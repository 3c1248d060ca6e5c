import RequestSigning.Proofs.Curve.Field
import RequestSigning.Proofs.Key.Public

/-!
# Roots

A point whose second coordinate is left out is found by a root of the right side of the equation,
which is computed in limbs.

* `toCoordinate_cubicLimbs`   the limbs of the right side are those of `cubic`;
* `toCoordinate_root`         the root is the power of it with the exponent 2⁵¹⁹;
* `root_mul_root`             which is a root, if there is any.

So `ofRoot?` gives one of the two points with the first coordinate, if there are any
(`ofRoot?_eq_some_iff`), and every point comes back from its short form or its negative does
(`decode?_encodeShort`).
-/

namespace RequestSigning.Curve

open scoped Fin.CommRing

namespace Limbs

/-! ## limbs as coordinates -/

theorem val_toCoordinate (l : Limbs) : (toCoordinate l).val = value l % fieldPrime := rfl

theorem toCoordinate_ofNat (x : Coordinate) : toCoordinate (ofNat x.val) = x := by
  apply Fin.ext
  rw [val_toCoordinate, value_ofNat, Nat.mod_eq_of_lt x.isLt]

theorem toCoordinate_add (a b : Limbs) (ha : a.length = count) (hb : b.length = count) :
    toCoordinate (add a b) = toCoordinate a + toCoordinate b := by
  apply Fin.ext
  rw [Fin.val_add, val_toCoordinate, val_toCoordinate, val_toCoordinate, value_add a b ha hb,
    Nat.add_mod]

theorem toCoordinate_mul (a b : Limbs) (hb : b.length = count) :
    toCoordinate (mul a b) = toCoordinate a * toCoordinate b := by
  apply Fin.ext
  rw [Fin.val_mul, val_toCoordinate, val_toCoordinate, val_toCoordinate, value_mul a b hb,
    Nat.mul_mod]

theorem length_add (a b : Limbs) (h : a.length = b.length) : (add a b).length = b.length := by
  rw [add, length_carry, length_sum a b h]

theorem length_mul (a b : Limbs) (hb : b.length = count) : (mul a b).length = count := by
  rw [mul, length_carry, length_product a b hb]

theorem squares_succ (times : Nat) (l : Limbs) :
    squares (times + 1) l = mul (squares times l) (squares times l) := rfl

theorem length_squares (times : Nat) (l : Limbs) (h : l.length = count) :
    (squares times l).length = count := by
  induction times with
  | zero => exact h
  | succ times ih => rw [squares_succ, length_mul _ _ ih]

theorem toCoordinate_squares (times : Nat) (l : Limbs) (h : l.length = count) :
    toCoordinate (squares times l) = toCoordinate l ^ 2 ^ times := by
  induction times with
  | zero => rw [pow_zero, pow_one]; rfl
  | succ times ih =>
    rw [squares_succ, toCoordinate_mul _ _ (length_squares times l h), ih, ← pow_add, pow_succ,
      Nat.mul_two]

/-- the lowest limb tells the parity of the number, because the others count even numbers -/
theorem isOdd_eq (l : Limbs) : isOdd l = decide (value l % 2 = 1) := by
  cases l with
  | nil => rfl
  | cons x xs =>
    have h : radix * value xs % 2 = 0 := by
      have hr : radix % 2 = 0 := by decide
      rw [Nat.mul_mod, hr, Nat.zero_mul]
    have hv : value (x :: xs) % 2 = x % 2 := by
      rw [value_cons]
      omega
    rw [hv]
    rfl

end Limbs

namespace Point

open Limbs

/-! ## the root -/

theorem length_cubicLimbs (x : Coordinate) : (cubicLimbs x).length = count := by
  unfold cubicLimbs
  rw [length_add, length_ofNat]
  rw [length_add, length_mul _ _ (length_ofNat _), length_ofNat]
  rw [length_mul _ _ (length_ofNat _), length_mul _ _ (length_ofNat _)]

/-- **The right side in limbs is the right side.** -/
theorem toCoordinate_cubicLimbs (x : Coordinate) : (cubicLimbs x).toCoordinate = cubic x := by
  have hx := length_ofNat x.val
  have hsquare := length_mul (ofNat x.val) _ hx
  have hcube := length_mul (mul (ofNat x.val) (ofNat x.val)) _ hx
  have hthree := length_mul (ofNat (fieldPrime - 3)) _ hx
  have hminus : toCoordinate (ofNat (fieldPrime - 3)) = -3 := by decide +kernel
  have hsum : (add (mul (mul (ofNat x.val) (ofNat x.val)) (ofNat x.val))
      (mul (ofNat (fieldPrime - 3)) (ofNat x.val))).length = count := by
    rw [length_add _ _ (hcube.trans hthree.symm), hthree]
  unfold cubicLimbs cubic
  rw [toCoordinate_add _ _ hsum (length_ofNat _), toCoordinate_add _ _ hcube hthree,
    toCoordinate_mul _ _ hx, toCoordinate_mul _ _ hx, toCoordinate_mul _ _ hx,
    toCoordinate_ofNat, toCoordinate_ofNat, hminus]
  ring

theorem toCoordinate_root (x : Coordinate) : (root x).toCoordinate = cubic x ^ 2 ^ 519 := by
  rw [root, toCoordinate_squares _ _ (length_cubicLimbs x), toCoordinate_cubicLimbs]

/-- **The root is a root**, if the right side has one: a power of that one leads to it. -/
theorem root_mul_root {x y : Coordinate} (h : OnCurve x y) :
    (root x).toCoordinate * (root x).toCoordinate = cubic x := by
  have hpower : y ^ fieldPrime = y := by
    have hpow := FiniteField.pow_card y
    rwa [Fintype.card_fin] at hpow
  have hexponent : 2 * 2 ^ 519 + 2 * 2 ^ 519 = fieldPrime + 1 := by decide +kernel
  have hcubic : cubic x = y ^ 2 := by rw [← h, pow_two]
  rw [toCoordinate_root, hcubic, ← pow_mul, ← pow_add, hexponent, pow_succ, hpower, pow_two]

theorem eq_root_or_neg {x y : Coordinate} (h : OnCurve x y) :
    y = (root x).toCoordinate ∨ y = -(root x).toCoordinate :=
  mul_self_eq_mul_self_iff.mp (h.trans (root_mul_root h).symm)

/-! ## points without their second coordinate -/

/-- **There is a point with a first coordinate exactly if the right side has a root**, and then
the root that is kept, or else its negative, is the second one. -/
theorem ofRoot?_eq_some_iff (x : Coordinate) (keep : Limbs → Bool) (p : Point) :
    ofRoot? x keep = some p ↔ p.x = x ∧
      p.y = if keep (root x) then (root x).toCoordinate else -(root x).toCoordinate :=
  ofCoordinates?_eq_some_iff _ _ p

theorem isSome_ofRoot?_iff (x : Coordinate) (keep : Limbs → Bool) :
    (ofRoot? x keep).isSome ↔ ∃ y, OnCurve x y := by
  rw [Option.isSome_iff_exists]
  constructor
  · rintro ⟨p, hp⟩
    obtain ⟨rfl, -⟩ := (ofRoot?_eq_some_iff x keep p).mp hp
    exact ⟨p.y, p.onCurve⟩
  · rintro ⟨y, hy⟩
    have hroot := root_mul_root hy
    have hkept : OnCurve x
        (if keep (root x) then (root x).toCoordinate else -(root x).toCoordinate) := by
      split
      · exact hroot
      · exact (neg_mul_neg _ _).trans hroot
    exact ⟨⟨x, _, hkept⟩, (ofRoot?_eq_some_iff x keep _).mpr ⟨rfl, rfl⟩⟩

/-- the point with the same first coordinate -/
def neg (p : Point) : Point := ⟨p.x, -p.y, (neg_mul_neg _ _).trans p.onCurve⟩

/-- the second coordinate of a point is the root, or its negative and another one -/
theorem y_eq_root_or (p : Point) : p.y = (root p.x).toCoordinate ∨
    p.y = -(root p.x).toCoordinate ∧ p.y ≠ (root p.x).toCoordinate := by
  rcases eq_root_or_neg p.onCurve with hy | hy
  · exact Or.inl hy
  · by_cases h : p.y = (root p.x).toCoordinate
    · exact Or.inl h
    · exact Or.inr ⟨hy, h⟩

theorem ofRoot?_x (p : Point) (keep : Limbs → Bool) : ofRoot? p.x keep
    = some (if keep (root p.x) = true ↔ p.y = (root p.x).toCoordinate then p else p.neg) := by
  rw [ofRoot?_eq_some_iff]
  rcases y_eq_root_or p with hy | ⟨hy, hne⟩
  · by_cases h : keep (root p.x) = true
    · rw [if_pos h, if_pos (iff_of_true h hy)]
      exact ⟨rfl, hy⟩
    · rw [if_neg h, if_neg fun e => h (e.mpr hy)]
      exact ⟨rfl, congrArg (-·) hy⟩
  · by_cases h : keep (root p.x) = true
    · rw [if_pos h, if_neg fun e => hne (e.mp h)]
      exact ⟨rfl, neg_eq_iff_eq_neg.mpr hy⟩
    · rw [if_neg h, if_pos (iff_of_false h hne)]
      exact ⟨rfl, hy⟩

/-! ## short forms -/

/-- of a coordinate and its negative one is odd and one is even, unless they are the same -/
theorem odd_neg_iff {y : Coordinate} (hy : -y ≠ y) : (-y).val % 2 = 1 ↔ ¬ y.val % 2 = 1 := by
  have hzero : y ≠ 0 := by
    rintro rfl
    exact hy neg_zero
  have hpos : y.val ≠ 0 := fun h => hzero (Fin.ext h)
  have hlt := y.isLt
  have hodd : fieldPrime % 2 = 1 := by decide
  have hval : (-y).val = fieldPrime - y.val := by
    rw [Fin.val_neg, if_neg hzero]
  omega

/-- the field prime is odd, so that the parity of a coordinate is that of its limbs if they hold it
an even number of times -/
theorem isOdd_iff (l : Limbs) :
    l.isOdd = true ↔ (l.toCoordinate.val % 2 = 1 ↔ value l / fieldPrime % 2 = 0) := by
  have hodd : fieldPrime % 2 = 1 := by decide
  have hsum := Nat.div_add_mod (value l) fieldPrime
  have hparity : value l % 2 = (value l / fieldPrime % 2 + value l % fieldPrime % 2) % 2 := by
    conv_lhs => rw [← hsum]
    rw [Nat.add_mod, Nat.mul_mod, hodd, Nat.one_mul, Nat.mod_mod]
  rw [isOdd_eq, decide_eq_true_eq, val_toCoordinate]
  omega

theorem decode?_parity {form : UInt8} (h : form = 0x02 ∨ form = 0x03) (x : Coordinate) :
    decode? (form :: coordinateOctets x)
      = ofRoot? x fun root => root.isOdd = decide (form = 0x03) := by
  have hne : form ≠ 0x04 := by
    rintro rfl
    simp at h
  rw [decode?, if_neg hne, if_pos h, coordinate?_coordinateOctets, Option.bind_eq_bind,
    Option.bind_some]

theorem decode?_encodeShort_eq (p : Point) : decode? p.encodeShort
    = ofRoot? p.x fun root => root.isOdd = decide (p.y.val % 2 = 1) := by
  unfold encodeShort
  by_cases h : p.y.val % 2 = 0
  · have hform : decide ((0x02 : UInt8) = 0x03) = decide (p.y.val % 2 = 1) := by simp [h]
    rw [if_pos h, decode?_parity (Or.inl rfl), hform]
  · have hform : decide ((0x03 : UInt8) = 0x03) = decide (p.y.val % 2 = 1) := by simp; omega
    rw [if_neg h, decode?_parity (Or.inr rfl), hform]

/-- **A point comes back from its short form**, or its negative does if the limbs of the root hold
the field prime. -/
theorem decode?_encodeShort (p : Point) : decode? p.encodeShort
    = some (if value (root p.x) / fieldPrime % 2 = 0 then p else p.neg) := by
  -- the parity of the limbs is that of the root or not, the root is the second coordinate or not
  have hlogic : ∀ rootOdd odd same plain : Prop, (same → (odd ↔ rootOdd)) →
      (¬ same → (odd ↔ ¬ rootOdd)) → ((((rootOdd ↔ plain) ↔ odd) ↔ same) ↔ plain) := by
    intro rootOdd odd same plain hsame hother
    tauto
  rw [decode?_encodeShort_eq, ofRoot?_x]
  refine congrArg some (if_congr ?_ rfl rfl)
  rw [decide_eq_true_eq, Bool.eq_iff_iff, decide_eq_true_eq, isOdd_iff]
  refine hlogic _ _ _ _ (fun hsame => by rw [hsame]) fun hother => ?_
  obtain ⟨hy, hne⟩ := (y_eq_root_or p).resolve_left hother
  rw [hy] at hne ⊢
  exact odd_neg_iff hne

/-- **A point or its negative comes back from the first coordinate**, the one whose second
coordinate is smaller. -/
theorem decode?_smaller (p : Point) :
    decode? (0x05 :: coordinateOctets p.x) = some (if p.y ≤ -p.y then p else p.neg) := by
  have hshort : decode? (0x05 :: coordinateOctets p.x) = ofRoot? p.x isSmaller := by
    rw [decode?, if_neg (by simp), if_neg (by simp), if_pos rfl, coordinate?_coordinateOctets,
      Option.bind_eq_bind, Option.bind_some]
  rw [hshort, ofRoot?_x]
  refine congrArg some (if_congr ?_ rfl rfl)
  rw [isSmaller, decide_eq_true_eq]
  rcases y_eq_root_or p with hy | ⟨hy, hne⟩
  · rw [← hy]
    exact iff_true_right rfl
  · have hroot : (root p.x).toCoordinate = -p.y := (neg_eq_iff_eq_neg.mpr hy).symm
    rw [hroot] at hne ⊢
    rw [neg_neg, iff_false_right hne, not_le]
    exact ⟨le_of_lt, fun h => lt_of_le_of_ne h hne⟩

end Point

end RequestSigning.Curve
