import Mathlib.GroupTheory.OrderOfElement
import RequestSigning.Proofs.Curve.Group
import RequestSigning.Proofs.Curve.Primality
import RequestSigning.Proofs.Curve.Roots

/-!
# The order of the generator

The last multiple of the generator before infinity, that of `groupOrder - 1`, is the negative of the
generator.  This is found by evaluation, with one doubling for each of the 521 bits, and
`Projective.force` makes the kernel evaluate the coordinates after each of them.

So the group order makes infinity of the generator, and since it is prime, nothing below it does.

* `smul_generator_ne_zero`   no multiplier makes infinity of the generator;
* `smul_generator_inj`       its multiples by different scalars differ;
* `add_smul_generator`, `mul_smul_generator`   they add and multiply as the scalars do.
-/

namespace RequestSigning.Curve

/-! ## evaluation -/

/-- a function of a number that is evaluated first -/
def force {α : Type} (n : Nat) (k : Nat → α) : α := Nat.rec (k 0) (fun m _ => k (m + 1)) n

theorem force_eq {α : Type} (n : Nat) (k : Nat → α) : force n k = k n := by cases n <;> rfl

/-- a function of a projective point whose coordinates are evaluated first -/
def Projective.force {α : Type} (p : Projective) (k : Projective → α) : α :=
  Curve.force p.x.val fun x => Curve.force p.y.val fun y => Curve.force p.z.val fun z =>
    k ⟨Fin.ofNat fieldPrime x, Fin.ofNat fieldPrime y, Fin.ofNat fieldPrime z⟩

theorem Projective.force_eq {α : Type} (p : Projective) (k : Projective → α) : p.force k = k p := by
  have hval : ∀ a : Coordinate, Fin.ofNat fieldPrime a.val = a := fun a =>
    Fin.ext (Nat.mod_eq_of_lt a.isLt)
  unfold Projective.force
  rw [Curve.force_eq, Curve.force_eq, Curve.force_eq, hval, hval, hval]

/-- one bit of a multiple -/
def addBit (p sum : Projective) (bit : Bool) : Projective :=
  if bit then sum.double.add p else sum.double

/-- a function of a multiple, from its bits, which is evaluated bit by bit -/
def forceBits {α : Type} (p : Projective) : List Bool → Projective → (Projective → α) → α
  | [], sum, k => k sum
  | bit :: rest, sum, k => (addBit p sum bit).force fun sum => forceBits p rest sum k

theorem forceBits_eq {α : Type} (p sum : Projective) (l : List Bool) (k : Projective → α) :
    forceBits p l sum k = k (l.foldl (addBit p) sum) := by
  induction l generalizing sum with
  | nil => rfl
  | cons bit rest ih => rw [forceBits, Projective.force_eq, ih, List.foldl_cons]

theorem represents_foldl_addBit {p : Projective} {P : weierstrass.Point} (hp : Represents p P)
    {n : Nat} (hn : n < 2 ^ width) :
    Represents ((bits width n).foldl (addBit p) .infinity) (n • P) := by
  have hall := foldl_bits (fun m sum => Represents sum (m • P)) (addBit p) ?_ width n 0 .infinity ?_
  · rwa [Nat.zero_mul, Nat.zero_add, Nat.mod_eq_of_lt hn] at hall
  · intro m sum bit hsum
    have hdouble := hsum.double
    rw [← two_nsmul, ← mul_nsmul'] at hdouble
    cases bit with
    | false => exact hdouble
    | true =>
      show Represents (sum.double.add p) ((2 * m + 1) • P)
      rw [succ_nsmul]
      exact hdouble.add hp
  · rw [zero_nsmul]
    exact represents_infinity

/-! ## the generator -/

theorem Point.toGroup_neg (p : Point) : p.neg.toGroup = -p.toGroup := by
  have hneg : -p.toGroup = .some p.x (weierstrass.negY p.x p.y) _ :=
    WeierstrassCurve.Affine.Point.neg_some p.nonsingular
  rw [hneg]
  simp only [negY_eq]
  rfl

theorem toPoint?_last : ((bits width (groupOrder - 1)).foldl (addBit (.ofPoint generator))
    .infinity).toPoint? = some generator.neg := by
  have h : forceBits (.ofPoint generator) (bits width (groupOrder - 1)) .infinity
      (fun sum => decide (sum.toPoint? = some generator.neg)) = true := by decide +kernel
  rw [forceBits_eq] at h
  exact of_decide_eq_true h

/-- **The group order makes infinity of the generator.** -/
theorem groupOrder_smul_generator : groupOrder • generator.toGroup = 0 := by
  have hlast := represents_foldl_addBit (represents_ofPoint generator)
    (n := groupOrder - 1) (by decide +kernel)
  have hneg : (groupOrder - 1) • generator.toGroup = generator.neg.toGroup := by
    exact (hlast.toPoint?_eq_some_iff _).mp toPoint?_last
  have hsucc : groupOrder = groupOrder - 1 + 1 := by decide +kernel
  rw [hsucc, succ_nsmul, hneg, Point.toGroup_neg, neg_add_cancel]

theorem addOrderOf_generator : addOrderOf generator.toGroup = groupOrder := by
  have : Fact groupOrder.Prime := ⟨prime_groupOrder⟩
  exact addOrderOf_eq_prime groupOrder_smul_generator generator.toGroup_ne_zero

/-- **No multiplier makes infinity of the generator.** -/
theorem smul_generator_ne_zero (a : Multiplier) : a.scalar.val • generator.toGroup ≠ 0 := by
  intro hzero
  have hdvd := addOrderOf_dvd_of_nsmul_eq_zero hzero
  rw [addOrderOf_generator] at hdvd
  exact Nat.not_le_of_lt a.scalar.isLt (Nat.le_of_dvd a.pos hdvd)

/-- **The multiples of the generator differ.** -/
theorem smul_generator_inj {a b : Scalar}
    (h : a.val • generator.toGroup = b.val • generator.toGroup) : a = b := by
  have hmod := nsmul_eq_nsmul_iff_modEq.mp h
  rw [addOrderOf_generator] at hmod
  exact Fin.ext (hmod.eq_of_lt_of_lt a.isLt b.isLt)

/-! ## sums and products of scalars -/

theorem add_smul_generator (a b : Scalar) :
    (a + b).val • generator.toGroup = a.val • generator.toGroup + b.val • generator.toGroup := by
  rw [Fin.val_add, ← nsmul_eq_mod_nsmul _ groupOrder_smul_generator, add_nsmul]

theorem mul_smul_generator (a b : Scalar) :
    (a * b).val • generator.toGroup = a.val • b.val • generator.toGroup := by
  rw [Fin.val_mul, ← nsmul_eq_mod_nsmul _ groupOrder_smul_generator, mul_comm a.val, mul_nsmul]

open scoped Fin.CommRing in
theorem mul_inverseScalar (a : Multiplier) : a.scalar * inverseScalar a.scalar = 1 := by
  refine mul_power_eq_one prime_groupOrder (by decide +kernel) ?_
  intro hzero
  exact a.pos.ne' (congrArg Fin.val hzero)

end RequestSigning.Curve
