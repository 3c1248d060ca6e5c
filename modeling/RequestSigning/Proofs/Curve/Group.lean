import Mathlib.AlgebraicGeometry.EllipticCurve.Affine.Point
import RequestSigning.Curve.Point
import RequestSigning.Proofs.Curve.Field

/-!
# Sums and multiples are those of the group

The points of the curve and infinity are an abelian group, the one that `weierstrass.Point` has.  A
`Projective` point `Represents` an element of it, and then

* `Represents.double`, `Represents.add`   sums are computed in the group;
* `represents_combine`                    so are sums of multiples, bit by bit;
* `Represents.toPoint?_eq_some_iff`       the point without denominator is the element.
-/

namespace RequestSigning.Curve

open WeierstrassCurve.Affine (Point.some)

/-- the equation of the curve -/
noncomputable def weierstrass : WeierstrassCurve.Affine Coordinate where
  a₁ := 0
  a₂ := 0
  a₃ := 0
  a₄ := -3
  a₆ := coefficient

theorem discriminant_ne_zero : weierstrass.Δ ≠ 0 := by
  decide +kernel

theorem equation_iff (x y : Coordinate) : weierstrass.Equation x y ↔ OnCurve x y := by
  rw [WeierstrassCurve.Affine.equation_iff, OnCurve, cubic]
  simp only [weierstrass]
  constructor
  · intro h
    linear_combination h
  · intro h
    linear_combination h

theorem Point.nonsingular (p : Point) : weierstrass.Nonsingular p.x p.y :=
  (WeierstrassCurve.Affine.equation_iff_nonsingular_of_Δ_ne_zero discriminant_ne_zero).mp
    ((equation_iff p.x p.y).mpr p.onCurve)

/-- a point as an element of the group -/
noncomputable def Point.toGroup (p : Point) : weierstrass.Point := .some p.x p.y p.nonsingular

theorem Point.toGroup_ne_zero (p : Point) : p.toGroup ≠ 0 :=
  WeierstrassCurve.Affine.Point.some_ne_zero p.nonsingular

theorem Point.ext {p q : Point} (hx : p.x = q.x) (hy : p.y = q.y) : p = q := by
  cases p
  cases q
  cases hx
  cases hy
  rfl

theorem Point.toGroup_inj {p q : Point} (h : p.toGroup = q.toGroup) : p = q := by
  obtain ⟨hx, hy⟩ := WeierstrassCurve.Affine.Point.some.inj h
  exact Point.ext hx hy

/-! ## sums by slopes -/

theorem negY_eq (x y : Coordinate) : weierstrass.negY x y = -y := by
  simp [WeierstrassCurve.Affine.negY, weierstrass]

/-- two points with the same first coordinate and opposite second ones -/
theorem toGroup_add_eq_zero {p q : Point} (hx : p.x = q.x) (hy : p.y = -q.y) :
    p.toGroup + q.toGroup = 0 :=
  WeierstrassCurve.Affine.Point.add_of_Y_eq hx (by rw [negY_eq, hy])

/-- two other points, by the slope of the line through them -/
theorem exists_toGroup_add {p q : Point} (h : ¬ (p.x = q.x ∧ p.y = -q.y)) :
    ∃ r : Point, r.x = weierstrass.slope p.x q.x p.y q.y ^ 2 - p.x - q.x ∧
      r.y = weierstrass.slope p.x q.x p.y q.y * (p.x - r.x) - p.y ∧
      p.toGroup + q.toGroup = r.toGroup := by
  rw [← negY_eq] at h
  have hsum := WeierstrassCurve.Affine.nonsingular_add p.nonsingular q.nonsingular h
  refine ⟨⟨_, _, (equation_iff _ _).mp hsum.1⟩, ?_, ?_,
    WeierstrassCurve.Affine.Point.add_some h⟩
  · simp only [WeierstrassCurve.Affine.addX, weierstrass]
    ring
  · simp only [WeierstrassCurve.Affine.addY, WeierstrassCurve.Affine.negAddY, negY_eq]
    ring

/-- the slope of a chord -/
theorem slope_mul_chord {p q : Point} (h : p.x ≠ q.x) :
    weierstrass.slope p.x q.x p.y q.y * (p.x - q.x) = p.y - q.y := by
  rw [WeierstrassCurve.Affine.slope_of_X_ne h]
  exact div_mul_cancel₀ _ (sub_ne_zero.mpr h)

/-- the slope of a tangent -/
theorem slope_mul_tangent {p : Point} (h : p.y ≠ -p.y) :
    weierstrass.slope p.x p.x p.y p.y * (2 * p.y) = 3 * p.x ^ 2 - 3 := by
  have hy : p.y ≠ weierstrass.negY p.x p.y := by rwa [negY_eq]
  have htwo : 2 * p.y ≠ 0 := by
    intro e
    exact h (eq_neg_of_add_eq_zero_left (by rw [← two_mul, e]))
  rw [WeierstrassCurve.Affine.slope_of_Y_ne rfl hy, negY_eq]
  simp only [weierstrass]
  rw [sub_neg_eq_add, ← two_mul, div_mul_cancel₀ _ htwo]
  ring

/-! ## projective points -/

/-- a projective point stands for an element of the group -/
inductive Represents : Projective → weierstrass.Point → Prop
  | infinity {p : Projective} (hz : p.z = 0) : Represents p 0
  | finite {p : Projective} (q : Point) (hz : p.z ≠ 0) (hx : p.x = q.x * p.z ^ 2)
      (hy : p.y = q.y * p.z ^ 3) : Represents p q.toGroup

theorem represents_infinity : Represents .infinity 0 := .infinity rfl

theorem represents_ofPoint (p : Point) : Represents (.ofPoint p) p.toGroup :=
  .finite p one_ne_zero (by simp [Projective.ofPoint]) (by simp [Projective.ofPoint])

theorem two_ne_zero_coordinate : (2 : Coordinate) ≠ 0 := by decide +kernel

theorem eq_zero_of_eq_neg {y : Coordinate} (h : y = -y) : y = 0 := by
  have hsum : 2 * y = 0 := by linear_combination h
  exact (mul_eq_zero.mp hsum).resolve_left two_ne_zero_coordinate

theorem Represents.double {p : Projective} {P : weierstrass.Point} (h : Represents p P) :
    Represents p.double (P + P) := by
  have hdouble : p.double.z = 2 * p.y * p.z := by
    simp only [Projective.double]
    ring
  cases h with
  | infinity hz =>
    rw [add_zero]
    exact .infinity (by rw [hdouble, hz, mul_zero])
  | finite q hz hx hy =>
    by_cases hq : q.y = 0
    · rw [toGroup_add_eq_zero rfl (by rw [hq, neg_zero])]
      exact .infinity (by rw [hdouble, hy, hq]; ring)
    · have htangent : q.y ≠ -q.y := fun e => hq (eq_zero_of_eq_neg e)
      obtain ⟨r, hrx, hry, hsum⟩ := exists_toGroup_add (p := q) (q := q) fun e => htangent e.2
      have hslope := slope_mul_tangent htangent
      generalize weierstrass.slope q.x q.x q.y q.y = slope at hrx hry hslope
      have hz' : p.double.z = 2 * q.y * p.z ^ 4 := by
        rw [hdouble, hy]
        ring
      rw [hsum]
      refine .finite r ?_ ?_ ?_
      · rw [hz']
        exact mul_ne_zero (mul_ne_zero two_ne_zero_coordinate hq) (pow_ne_zero 4 hz)
      · rw [hz', hrx]
        simp only [Projective.double]
        rw [hx, hy]
        linear_combination (-(slope * (2 * q.y) + (3 * q.x ^ 2 - 3)) * p.z ^ 8) * hslope
      · rw [hz', hry, hrx]
        simp only [Projective.double]
        rw [hx, hy]
        linear_combination (-(3 * q.x * (2 * q.y) ^ 2 - (3 * q.x ^ 2 - 3) ^ 2
          - (3 * q.x ^ 2 - 3) * (slope * (2 * q.y)) - (slope * (2 * q.y)) ^ 2) * p.z ^ 12) * hslope

/-- two points with the same first coordinate are the same or opposite -/
theorem y_eq_or_neg {p q : Point} (hx : p.x = q.x) : p.y = q.y ∨ p.y = -q.y := by
  have hsquares : p.y * p.y = q.y * q.y := by rw [p.onCurve, q.onCurve, hx]
  exact mul_self_eq_mul_self_iff.mp hsquares

theorem Represents.add {p q : Projective} {P Q : weierstrass.Point} (hp : Represents p P)
    (hq : Represents q Q) : Represents (p.add q) (P + Q) := by
  unfold Projective.add
  cases hp with
  | infinity hz =>
    rw [if_pos hz, zero_add]
    exact hq
  | finite a hpz hpx hpy =>
    rw [if_neg hpz]
    cases hq with
    | infinity hz =>
      rw [if_pos hz, add_zero]
      exact .finite a hpz hpx hpy
    | finite b hqz hqx hqy =>
      rw [if_neg hqz]
      -- the differences of the coordinates, with the common denominators
      have hh : q.x * (p.z * p.z) - p.x * (q.z * q.z) = (b.x - a.x) * (p.z * q.z) ^ 2 := by
        rw [hpx, hqx]
        ring
      have hr : q.y * (p.z * (p.z * p.z)) - p.y * (q.z * (q.z * q.z))
          = (b.y - a.y) * (p.z * q.z) ^ 3 := by
        rw [hpy, hqy]
        ring
      have hzz : p.z * q.z ≠ 0 := mul_ne_zero hpz hqz
      simp only [hh, hr]
      by_cases hx : a.x = b.x
      · rw [if_pos (by rw [hx, sub_self, zero_mul])]
        by_cases hy : a.y = b.y
        · obtain rfl := Point.ext hx hy
          rw [if_pos (by rw [sub_self, zero_mul])]
          exact (Represents.finite a hpz hpx hpy).double
        · rw [if_neg (mul_ne_zero (sub_ne_zero.mpr (Ne.symm hy)) (pow_ne_zero 3 hzz)),
            toGroup_add_eq_zero hx ((y_eq_or_neg hx).resolve_left hy)]
          exact represents_infinity
      · have hne : b.x - a.x ≠ 0 := sub_ne_zero.mpr (Ne.symm hx)
        rw [if_neg (mul_ne_zero hne (pow_ne_zero 2 hzz))]
        obtain ⟨r, hrx, hry, hsum⟩ := exists_toGroup_add (p := a) (q := b) fun e => hx e.1
        have hslope := slope_mul_chord hx
        generalize weierstrass.slope a.x b.x a.y b.y = slope at hrx hry hslope
        rw [hsum]
        refine .finite r ?_ ?_ ?_
        · exact mul_ne_zero (mul_ne_zero hne (pow_ne_zero 2 hzz)) hzz
        · rw [hrx, hpx]
          linear_combination (b.y - a.y + slope * (b.x - a.x)) * (p.z * q.z) ^ 6 * hslope
        · rw [hry, hpx, hpy, hrx]
          linear_combination ((b.x - a.x) ^ 2 * (a.x - (slope ^ 2 - a.x - b.x))
            - (b.y - a.y) * (b.y - a.y + slope * (b.x - a.x))) * (p.z * q.z) ^ 9 * hslope

/-! ## multiples -/

/-- what each pair of bits keeps holds of the two whole numbers -/
theorem foldl_zip_bits {σ : Type} (R : Nat → Nat → σ → Prop) (step : σ → Bool × Bool → σ)
    (hstep : ∀ m n s pair, R m n s →
      R (2 * m + pair.1.toNat) (2 * n + pair.2.toNat) (step s pair))
    (count a b m n : Nat) (s : σ) (h : R m n s) :
    R (m * 2 ^ count + a % 2 ^ count) (n * 2 ^ count + b % 2 ^ count)
      (((bits count a).zip (bits count b)).foldl step s) := by
  induction count generalizing m n s with
  | zero => simpa [bits_zero, Nat.mod_one] using h
  | succ count ih =>
    rw [bits_succ, bits_succ, List.zip_cons_cons, List.foldl_cons, ← two_mul_add_bit,
      ← two_mul_add_bit]
    exact ih _ _ _ (hstep m n s (a.testBit count, b.testBit count) h)

theorem scalar_lt (a : Scalar) : a.val < 2 ^ width :=
  Nat.lt_trans a.isLt (by decide +kernel)

/-- **A combination is the sum of the two multiples.** -/
theorem represents_combine {p q : Projective} {P Q : weierstrass.Point} (hp : Represents p P)
    (hq : Represents q Q) (a b : Scalar) :
    Represents (.combine a p b q) (a.val • P + b.val • Q) := by
  have hbits : (0 * 2 ^ width + a.val % 2 ^ width) • P + (0 * 2 ^ width + b.val % 2 ^ width) • Q
      = a.val • P + b.val • Q := by
    rw [Nat.mod_eq_of_lt (scalar_lt a), Nat.mod_eq_of_lt (scalar_lt b), Nat.zero_mul,
      Nat.zero_add, Nat.zero_add]
  unfold Projective.combine
  rw [← hbits]
  refine foldl_zip_bits (fun m n sum => Represents sum (m • P + n • Q)) _ ?_ width a.val b.val
    0 0 .infinity ?_
  · rintro m n sum ⟨x, y⟩ hsum
    have hvalue : ∀ i j : Nat, (2 * m + i) • P + (2 * n + j) • Q
        = (m • P + n • Q) + (m • P + n • Q) + (i • P + j • Q) := by
      intro i j
      module
    rw [hvalue]
    cases x <;> cases y
    case false.false => simpa using hsum.double
    case false.true => simpa using hsum.double.add hq
    case true.false => simpa using hsum.double.add hp
    case true.true => simpa using hsum.double.add (hp.add hq)
  · simpa using represents_infinity

theorem represents_multiple {p : Projective} {P : weierstrass.Point} (hp : Represents p P)
    (a : Scalar) : Represents (.multiple a p) (a.val • P) := by
  have h := represents_combine hp represents_infinity a 0
  rwa [smul_zero, add_zero] at h

/-! ## points without denominator -/

theorem Represents.toPoint?_eq_some_iff {p : Projective} {P : weierstrass.Point}
    (h : Represents p P) (q : Point) : p.toPoint? = some q ↔ P = q.toGroup := by
  cases h with
  | infinity hz =>
    rw [Projective.toPoint?, if_pos hz]
    exact iff_of_false (fun e => by cases e) (Ne.symm q.toGroup_ne_zero)
  | finite r hz hx hy =>
    have hw := mul_inverse hz
    have hr : p.toPoint? = some r := by
      rw [Projective.toPoint?, if_neg hz, Point.ofCoordinates?_eq_some_iff, hx, hy]
      constructor
      · linear_combination (-(r.x * (p.z * inverse p.z + 1))) * hw
      · linear_combination
          (-(r.y * ((p.z * inverse p.z) ^ 2 + p.z * inverse p.z + 1))) * hw
    rw [hr, Option.some_inj]
    exact ⟨congrArg Point.toGroup, Point.toGroup_inj⟩

/-- **There is a point without denominator unless the element is infinity.** -/
theorem Represents.exists_toPoint? {p : Projective} {P : weierstrass.Point} (h : Represents p P)
    (hP : P ≠ 0) : ∃ q : Point, p.toPoint? = some q ∧ q.toGroup = P := by
  have hall := h.toPoint?_eq_some_iff
  cases h with
  | infinity => exact absurd rfl hP
  | finite q => exact ⟨q, (hall q).mpr rfl, rfl⟩

end RequestSigning.Curve
