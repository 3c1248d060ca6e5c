import RequestSigning.Curve.Field

/-!
# Coordinates in limbs

A number is cut into nine limbs, the lowest first, of 58 bits each but the last, which has 57.
The field prime is 2⁵²¹ - 1, so that a carry out of the last limb comes back into the first.

* `ofNat`, `value`  the limbs of a number, and the number of some limbs;
* `carry`           limbs within their widths, but for one bit in the third;
* `add`, `mul`      sums and products, carried.

`value_add` and `value_mul` say that both are right modulo the field prime.  They need not be below
it: a coordinate that is less than the carry which came back is left with the field prime added, in
a form of the other parity.
-/

namespace RequestSigning.Curve

/-- the limbs of a number, the lowest first -/
abbrev Limbs := List Nat

namespace Limbs

def count : Nat := 9

/-- what a limb counts in units of the one before it, 2⁵⁸ -/
def radix : Nat := 0x400000000000000

/-- the bound of the last limb, 2⁵⁷ -/
def lastRadix : Nat := 0x200000000000000

/-- the number of some limbs -/
def value : Limbs → Nat
  | [] => 0
  | x :: xs => x + radix * value xs

/-- so many limbs of a number, the last of which takes all that is left -/
def digits : Nat → Nat → Limbs
  | 0, _ => []
  | 1, n => [n]
  | len + 1, n => n % radix :: digits len (n / radix)

def ofNat (n : Nat) : Limbs := digits count n

def toCoordinate (l : Limbs) : Coordinate := Fin.ofNat fieldPrime (value l)

/-- whether the lowest limb is odd; this is the parity of the number, not of the coordinate -/
def isOdd (l : Limbs) : Bool := l.headD 0 % 2 = 1

/-! ## carrying -/

/-- limbs within their widths, from the lowest to the last, and the carry out of the last -/
def sweep : Nat → Limbs → Limbs × Nat
  | c, [] => ([], c)
  | c, [x] => ([(x + c) % lastRadix], (x + c) / lastRadix)
  | c, x :: xs =>
    let (ys, out) := sweep ((x + c) / radix) xs
    ((x + c) % radix :: ys, out)

/-- a carry added to the lowest limb and passed on so many times -/
def push : Nat → Nat → Limbs → Limbs
  | _, _, [] => []
  | 0, c, x :: xs => (x + c) :: xs
  | steps + 1, c, x :: xs => (x + c) % radix :: push steps ((x + c) / radix) xs

/-- limbs within their widths; the carry out of the last one is passed on to the third at most -/
def carry (l : Limbs) : Limbs :=
  let (ys, out) := sweep 0 l
  push 2 out ys

/-! ## sums and products -/

def sum (a b : Limbs) : Limbs := List.zipWith (· + ·) a b

/-- a number times the radix: the last limb comes back doubled, for 2⁵²² is 2 -/
def shift (l : Limbs) : Limbs := 2 * l.getLastD 0 :: l.dropLast

/-- the product of two numbers, not carried -/
def product (a b : Limbs) : Limbs :=
  a.foldr (fun x acc => sum (b.map (x * ·)) (shift acc)) (List.replicate count 0)

def add (a b : Limbs) : Limbs := carry (sum a b)

def mul (a b : Limbs) : Limbs := carry (product a b)

/-- a number squared so many times -/
def squares (times : Nat) (l : Limbs) : Limbs := Nat.repeat (fun r => mul r r) times l

/-! ### lengths -/

theorem length_digits (len n : Nat) : (digits len n).length = len := by
  fun_induction digits len n with
  | case1 => rfl
  | case2 => rfl
  | case3 len n _ ih => simp [ih]

theorem length_ofNat (n : Nat) : (ofNat n).length = count := length_digits count n

theorem length_sweep (c : Nat) (l : Limbs) : (sweep c l).1.length = l.length := by
  fun_induction sweep c l with
  | case1 => rfl
  | case2 => rfl
  | case3 c x xs _ ys out h ih => simpa [h] using ih

theorem length_push (steps c : Nat) (l : Limbs) : (push steps c l).length = l.length := by
  fun_induction push steps c l with
  | case1 => rfl
  | case2 => rfl
  | case3 steps c x xs ih => simpa using ih

theorem length_carry (l : Limbs) : (carry l).length = l.length := by
  simp [carry, length_push, length_sweep]

theorem length_sum (a b : Limbs) (h : a.length = b.length) : (sum a b).length = b.length := by
  simp [sum, h]

theorem length_shift (l : Limbs) (h : l ≠ []) : (shift l).length = l.length := by
  cases l with
  | nil => exact absurd rfl h
  | cons x xs => simp [shift]

/-! ### values -/

theorem value_nil : value [] = 0 := rfl
theorem value_cons (x : Nat) (xs : Limbs) : value (x :: xs) = x + radix * value xs := rfl

theorem value_digits (len n : Nat) : value (digits (len + 1) n) = n := by
  induction len generalizing n with
  | zero => simp [digits, value]
  | succ len ih => rw [digits, value_cons, ih, Nat.mod_add_div]; simp

theorem value_ofNat (n : Nat) : value (ofNat n) = n := value_digits 8 n

/-- what the carry out of the last of so many limbs counts -/
def bound : Nat → Nat
  | 0 => 1
  | 1 => lastRadix
  | len + 1 => radix * bound len

theorem value_sweep (c : Nat) (l : Limbs) :
    value (sweep c l).1 + bound l.length * (sweep c l).2 = value l + c := by
  fun_induction sweep c l with
  | case1 => simp [value, bound]
  | case2 c x =>
    have h := Nat.mod_add_div (x + c) lastRadix
    simp only [value, List.length_cons, List.length_nil, Nat.mul_zero, Nat.add_zero]
    exact h
  | case3 c x xs hne ys out h ih =>
    have hb : bound (x :: xs).length = radix * bound xs.length := by
      cases xs with
      | nil => exact absurd rfl hne
      | cons y ys => rfl
    have hd := Nat.mod_add_div (x + c) radix
    rw [h] at ih
    simp only [hb, value_cons, Nat.mul_assoc]
    have ih' := congrArg (radix * ·) ih
    simp only [Nat.mul_add] at ih'
    omega

theorem value_push (steps c : Nat) (l : Limbs) (h : steps < l.length) :
    value (push steps c l) = value l + c := by
  fun_induction push steps c l with
  | case1 => simp at h
  | case2 c x xs => simp only [value_cons]; omega
  | case3 steps c x xs ih =>
    have hd := Nat.mod_add_div (x + c) radix
    have ih' := congrArg (radix * ·) (ih (by simpa using h))
    simp only [Nat.mul_add] at ih'
    simp only [value_cons]
    omega

/-- carrying keeps the coordinate, because what comes back counts one more than the field prime -/
theorem value_carry (l : Limbs) (h : l.length = count) :
    value (carry l) % fieldPrime = value l % fieldPrime := by
  have hs := value_sweep 0 l
  have hb : bound l.length = fieldPrime + 1 := by rw [h]; decide
  rw [carry, value_push 2 _ _ (by rw [length_sweep, h]; decide)]
  rw [hb, Nat.add_mul, Nat.one_mul, Nat.add_zero] at hs
  rw [← hs, Nat.add_comm (fieldPrime * _), ← Nat.add_assoc, Nat.add_mul_mod_self_left]

theorem value_sum (a b : Limbs) (h : a.length = b.length) :
    value (sum a b) = value a + value b := by
  induction a generalizing b with
  | nil => cases b with
    | nil => rfl
    | cons y ys => simp at h
  | cons x xs ih => cases b with
    | nil => simp at h
    | cons y ys =>
      have e : sum (x :: xs) (y :: ys) = (x + y) :: sum xs ys := rfl
      rw [e, value_cons, ih ys (by simpa using h)]
      simp only [value_cons, Nat.mul_add]
      omega

theorem value_map_mul (x : Nat) (l : Limbs) : value (l.map (x * ·)) = x * value l := by
  induction l with
  | nil => rfl
  | cons y ys ih =>
    rw [List.map_cons, value_cons, ih, value_cons, Nat.mul_add, Nat.mul_left_comm]

theorem value_add (a b : Limbs) (ha : a.length = count) (hb : b.length = count) :
    value (add a b) % fieldPrime = (value a + value b) % fieldPrime := by
  have h : a.length = b.length := ha.trans hb.symm
  rw [add, value_carry _ ((length_sum a b h).trans hb), value_sum a b h]

theorem value_concat (l : Limbs) (x : Nat) :
    value (l ++ [x]) = value l + Nat.pow radix l.length * x := by
  induction l with
  | nil => simp [value]
  | cons y ys ih =>
    have hp : Nat.pow radix (y :: ys).length = Nat.pow radix ys.length * radix := rfl
    rw [List.cons_append, value_cons, ih, value_cons, hp, Nat.mul_add, Nat.mul_comm _ radix,
      Nat.mul_assoc, Nat.add_assoc]

/-- the last limb comes back doubled, because 2⁵²² is two more than twice the field prime -/
theorem value_shift (l : Limbs) (h : l.length = count) :
    value (shift l) % fieldPrime = radix * value l % fieldPrime := by
  have hne : l ≠ [] := by intro e; rw [e] at h; exact absurd h (by decide)
  have hl := List.dropLast_concat_getLast hne
  have hlen : l.dropLast.length = 8 := by rw [List.length_dropLast, h]; rfl
  have hv := value_concat l.dropLast (l.getLast hne)
  rw [hl, hlen] at hv
  have hr : radix * Nat.pow radix 8 = fieldPrime * 2 + 2 := by decide
  have hs : value (shift l) = 2 * l.getLast hne + radix * value l.dropLast := by
    rw [shift, value_cons, List.getLastD_eq_getLast?, List.getLast?_eq_some_getLast hne,
      Option.getD_some]
  rw [hs, hv, Nat.mul_add, ← Nat.mul_assoc, hr, Nat.add_mul, Nat.mul_assoc fieldPrime,
    Nat.add_comm (fieldPrime * _), ← Nat.add_assoc, Nat.add_mul_mod_self_left, Nat.add_comm]

theorem length_product (a b : Limbs) (hb : b.length = count) : (product a b).length = count := by
  induction a with
  | nil => simp [product]
  | cons x xs ih =>
    have hne : product xs b ≠ [] := by intro e; rw [e] at ih; exact absurd ih (by decide)
    have e : product (x :: xs) b = sum (b.map (x * ·)) (shift (product xs b)) := rfl
    have hl : (b.map (x * ·)).length = (shift (product xs b)).length := by
      rw [List.length_map, hb, length_shift _ hne, ih]
    rw [e, length_sum _ _ hl, length_shift _ hne, ih]

theorem value_product (a b : Limbs) (hb : b.length = count) :
    value (product a b) % fieldPrime = value a * value b % fieldPrime := by
  induction a with
  | nil =>
    have e : value (product [] b) = 0 := show value (List.replicate count 0) = 0 by decide
    rw [e, value_nil, Nat.zero_mul]
  | cons x xs ih =>
    have hlen := length_product xs b hb
    have hne : product xs b ≠ [] := by intro e; rw [e] at hlen; exact absurd hlen (by decide)
    have e : product (x :: xs) b = sum (b.map (x * ·)) (shift (product xs b)) := rfl
    have hl : (b.map (x * ·)).length = (shift (product xs b)).length := by
      rw [List.length_map, hb, length_shift _ hne, hlen]
    rw [e, value_sum _ _ hl, value_map_mul, value_cons, Nat.add_mul, Nat.mul_assoc,
      Nat.add_mod, value_shift _ hlen, Nat.mul_mod radix (value (product xs b)), ih,
      ← Nat.mul_mod, ← Nat.add_mod]

theorem value_mul (a b : Limbs) (hb : b.length = count) :
    value (mul a b) % fieldPrime = value a * value b % fieldPrime := by
  rw [mul, value_carry _ (length_product a b hb), value_product a b hb]

end Limbs

end RequestSigning.Curve
