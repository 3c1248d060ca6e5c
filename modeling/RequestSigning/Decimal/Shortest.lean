/-!
# The shortest decimal that reads back

A positive double is `mantissa · 2 ^ exponent`.  All reals between the midpoints to its two
neighbours round to it (the midpoints included when the mantissa is even), and the decimal
`digits · 10 ^ scale` that is printed lies on the coarsest grid of powers of ten that has a point
there: of the two grid points around the double the nearer one, of two equally near ones the even
one.  All comparisons are between natural numbers.
-/

namespace RequestSigning.Decimal

/-- a positive binary floating point number -/
structure Binary where
  mantissa : Nat
  exponent : Int
  /-- whether the neighbour below is only half as far away as the one above -/
  closeBelow : Bool

/-- a positive decimal number -/
structure Scaled where
  digits : Nat
  scale : Int

/-- the number of a finite, positive double with the given bits -/
def Binary.ofBits (bits : Nat) : Binary :=
  let field : Nat := bits / 0x10000000000000 % 0x800
  let fraction : Nat := bits % 0x10000000000000
  if field = 0 then ⟨fraction, -1074, false⟩
  else ⟨0x10000000000000 + fraction, (field : Int) - 1075, fraction = 0 && decide (1 < field)⟩

/-- the point of the grid `10 ^ scale` that the double is printed as, if one rounds to it.  In
units of a quarter of `2 ^ exponent`, brought to integers by the factors `a` and `b`. -/
def Binary.nearest? (x : Binary) (scale : Int) : Option Scaled :=
  let a := Nat.pow 2 (x.exponent - 2).toNat * Nat.pow 10 (-scale).toNat
  let b := Nat.pow 2 (2 - x.exponent).toNat * Nat.pow 10 scale.toNat
  let middle := 4 * x.mantissa * a
  let low := (4 * x.mantissa - (if x.closeBelow then 1 else 2)) * a
  let high := (4 * x.mantissa + 2) * a
  let inside (d : Nat) : Bool :=
    if x.mantissa % 2 = 0 then low ≤ d * b && d * b ≤ high else low < d * b && d * b < high
  let below := middle / b
  let nearer :=
    if 2 * middle < (2 * below + 1) * b then below
    else if (2 * below + 1) * b < 2 * middle then below + 1
    else if below % 2 = 0 then below
    else below + 1
  let other := 2 * below + 1 - nearer
  if inside nearer then some ⟨nearer, scale⟩
  else if inside other then some ⟨other, scale⟩
  else none

/-- the first of the grids `scale`, `scale - 1`, …, `scale - steps` with a point to print -/
def Binary.search (x : Binary) : Nat → Int → Option Scaled
  | 0, scale => x.nearest? scale
  | steps + 1, scale => (x.nearest? scale).or (x.search steps (scale - 1))

/-- the shortest decimal of a double; the grids of all doubles lie between `10 ^ 309` and
`10 ^ -324` -/
def Binary.shortest (x : Binary) : Scaled := (x.search 633 309).getD ⟨x.mantissa, 0⟩

end RequestSigning.Decimal
