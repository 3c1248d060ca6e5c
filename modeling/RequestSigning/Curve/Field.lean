/-!
# Arithmetic modulo a prime

The residues of a modulus are the type `Fin` with its addition, subtraction and multiplication.
`power` raises by squaring, with one step for each bit of the exponent.

The curve P-521 has coordinates modulo `fieldPrime` and multiples modulo `groupOrder`.  Both are
prime, so that inverses are powers.
-/

namespace RequestSigning.Curve

/-- the lowest bits of a number, the highest of them first -/
def bits (count n : Nat) : List Bool := (List.range count).reverse.map n.testBit

/-- the number of bits of both moduli -/
def width : Nat := 521

/-- a power, for exponents of at most `width` bits -/
def power {α : Type} [Mul α] (one a : α) (e : Nat) : α :=
  (bits width e).foldl (fun r bit => if bit then r * r * a else r * r) one

/-! ## the two moduli -/

/-- the number of field elements, 2⁵²¹ - 1 -/
def fieldPrime : Nat :=
  0x1ffffffffffffffffffffffffffffffffffffffffffffffffffffffffffffffffffffffffffffffffffffffffffffffffffffffffffffffffffffffffffffffffff

def groupOrder : Nat :=
  0x1fffffffffffffffffffffffffffffffffffffffffffffffffffffffffffffffffa51868783bf2f966b7fcc0148f709a5d03bb5c9b8899c47aebb6fb71e91386409

instance : @NeZero Nat Zero.ofOfNat0 fieldPrime := ⟨by decide⟩
instance : @NeZero Nat Zero.ofOfNat0 groupOrder := ⟨by decide⟩

abbrev Coordinate := Fin fieldPrime

/-- a multiple of a point, as far as it matters -/
abbrev Scalar := Fin groupOrder

/-- a scalar other than zero -/
structure Multiplier where
  scalar : Scalar
  pos : 0 < scalar.val
  deriving DecidableEq

/-- the multiplier of a number between zero and the group order, both excluded -/
def Multiplier.ofNat? (n : Nat) : Option Multiplier :=
  if h : 0 < n ∧ n < groupOrder then some ⟨⟨n, h.2⟩, h.1⟩ else none

theorem Multiplier.ofNat?_eq_some_iff (n : Nat) (a : Multiplier) :
    ofNat? n = some a ↔ a.scalar.val = n := by
  unfold ofNat?
  constructor
  · intro h
    split at h
    · obtain rfl := Option.some.inj h
      rfl
    · cases h
  · rintro rfl
    exact dif_pos ⟨a.pos, a.scalar.isLt⟩

/-- the inverse of a coordinate, zero for zero -/
def inverse (a : Coordinate) : Coordinate := power 1 a (fieldPrime - 2)

/-- the inverse of a scalar, zero for zero -/
def inverseScalar (a : Scalar) : Scalar := power 1 a (groupOrder - 2)

end RequestSigning.Curve
