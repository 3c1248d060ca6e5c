import RequestSigning.Proofs.Curve.Order
import RequestSigning.Proofs.Key.Forms

/-!
# What is signed is accepted

Let `q` be the point that belongs to the scalar `d`.  A signature is accepted for `q` exactly if
some secret number makes it from `d` (`verifies_iff_exists_signWith?`): the equation that signing
solves for the second scalar is the one that checking looks for.

* `verifies_iff`                    a sum of two multiples in the group has the right abscissa;
* `signWith?_eq_some_iff`           the scalars of a signature, from the secret number;
* `Signature.decode?_eq_some_iff`   the octets of a signature;
* `accepts_iff`                     the octets that are accepted are those that can be made;
* `accepts_of_sign?`                so the ones that are made are.
-/

namespace RequestSigning.Ecdsa

open Curve
open scoped Fin.CommRing

/-! ## in the group -/

theorem verifies_iff (q : Point) (z : Scalar) (sig : Signature) :
    verifies q z sig = true ↔
      ∃ p : Point, (z * inverseScalar sig.s.scalar).val • generator.toGroup
          + (sig.r.scalar * inverseScalar sig.s.scalar).val • q.toGroup = p.toGroup ∧
        abscissa p = sig.r.scalar := by
  have hpoint := (represents_combine (represents_ofPoint generator) (represents_ofPoint q)
    (z * inverseScalar sig.s.scalar)
    (sig.r.scalar * inverseScalar sig.s.scalar)).toPoint?_eq_some_iff
  simp only [← hpoint]
  unfold verifies
  dsimp only
  cases (Projective.combine (z * inverseScalar sig.s.scalar) (.ofPoint generator)
      (sig.r.scalar * inverseScalar sig.s.scalar) (.ofPoint q)).toPoint? with
  | none => exact iff_of_false Bool.false_ne_true fun ⟨_, hp, _⟩ => by cases hp
  | some p =>
    rw [decide_eq_true_eq]
    constructor
    · intro h
      exact ⟨p, rfl, h⟩
    · rintro ⟨_, hp, h⟩
      rwa [Option.some.inj hp]

theorem signWith?_eq_some_iff (d : Multiplier) (z : Scalar) (k : Multiplier) (sig : Signature) :
    signWith? d z k = some sig ↔
      ∃ p : Point, k.scalar.val • generator.toGroup = p.toGroup ∧ sig.r.scalar = abscissa p ∧
        sig.s.scalar = inverseScalar k.scalar * (z + abscissa p * d.scalar) := by
  have hmultiple := represents_multiple (represents_ofPoint generator) k.scalar
  simp only [signWith?, Option.bind_eq_bind, Option.bind_eq_some_iff, Option.some.injEq,
    hmultiple.toPoint?_eq_some_iff, Multiplier.ofNat?_eq_some_iff]
  constructor
  · rintro ⟨p, hp, r, hr, s, hs, rfl⟩
    exact ⟨p, hp, Fin.ext hr, Fin.ext hs⟩
  · rintro ⟨p, hp, hr, hs⟩
    exact ⟨p, hp, sig.r, congrArg Fin.val hr, sig.s, congrArg Fin.val hs, rfl⟩

section
variable {d : Multiplier} {q : Point} (hq : q.toGroup = d.scalar.val • generator.toGroup)
include hq

/-- the sum of two multiples that checking looks at, as one multiple of the generator -/
theorem add_smul_eq (a b : Scalar) :
    a.val • generator.toGroup + b.val • q.toGroup = (a + b * d.scalar).val • generator.toGroup := by
  rw [add_smul_generator, mul_smul_generator, hq]

/-- **A signature is accepted exactly if some secret number makes it.** -/
theorem verifies_iff_exists_signWith? (z : Scalar) (sig : Signature) :
    verifies q z sig = true ↔ ∃ k, signWith? d z k = some sig := by
  have hs := mul_inverseScalar sig.s
  simp only [verifies_iff, signWith?_eq_some_iff, add_smul_eq hq]
  -- checking looks at the multiple `(z + r d) / s`, and signing makes `s` from `(z + r d) / k`
  constructor
  · rintro ⟨p, hp, hr⟩
    have hpos : 0 < (z * inverseScalar sig.s.scalar
        + sig.r.scalar * inverseScalar sig.s.scalar * d.scalar).val := by
      refine Nat.pos_of_ne_zero fun hzero => p.toGroup_ne_zero ?_
      rw [← hp, hzero, zero_nsmul]
    let k : Multiplier := ⟨_, hpos⟩
    have hk := mul_inverseScalar k
    refine ⟨k, p, hp, hr.symm, ?_⟩
    rw [hr]
    linear_combination (-sig.s.scalar) * hk
      + inverseScalar k.scalar * (z + sig.r.scalar * d.scalar) * hs
  · rintro ⟨k, p, hp, hr, hsum⟩
    have hk := mul_inverseScalar k
    rw [← hr] at hsum
    refine ⟨p, ?_, hr.symm⟩
    rw [← hp]
    have heq : z * inverseScalar sig.s.scalar
        + sig.r.scalar * inverseScalar sig.s.scalar * d.scalar = k.scalar := by
      linear_combination (-(z + sig.r.scalar * d.scalar) * inverseScalar sig.s.scalar) * hk
        - k.scalar * inverseScalar sig.s.scalar * hsum + k.scalar * hs
    rw [heq]

end

/-! ## octets -/

theorem groupOrder_lt_weight : groupOrder < Bytes.weight scalarLength := by decide +kernel

theorem toNat_eq_scalar_iff {b : Bytes} (h : b.length = scalarLength) (a : Multiplier) :
    b.toNat = a.scalar.val ↔ b = Bytes.ofNat scalarLength a.scalar.val :=
  Bytes.toNat_eq_iff h (a.scalar.isLt.trans groupOrder_lt_weight)

theorem Signature.decode?_eq_some_iff (b : Bytes) (sig : Signature) :
    decode? b = some sig ↔ b = sig.encode := by
  unfold decode? encode
  constructor
  · intro h
    split at h
    · rename_i hlength
      simp only [Option.bind_eq_bind, Option.bind_eq_some_iff, Option.some.injEq,
        Multiplier.ofNat?_eq_some_iff] at h
      obtain ⟨r, hr, s, hs, rfl⟩ := h
      have htake : (b.take scalarLength).length = scalarLength := by
        rw [List.length_take, hlength]
        decide
      have hdrop : (b.drop scalarLength).length = scalarLength := by
        rw [List.length_drop, hlength]
        decide
      rw [← (toNat_eq_scalar_iff htake r).mp hr.symm, ← (toNat_eq_scalar_iff hdrop s).mp hs.symm,
        List.take_append_drop]
    · cases h
  · rintro rfl
    have hr := Bytes.length_ofNat scalarLength sig.r.scalar.val
    have hs := Bytes.length_ofNat scalarLength sig.s.scalar.val
    rw [if_pos (by rw [List.length_append, hr, hs]; rfl), List.take_left' hr, List.drop_left' hr,
      (toNat_eq_scalar_iff hr sig.r).mpr rfl, (toNat_eq_scalar_iff hs sig.s).mpr rfl,
      (Multiplier.ofNat?_eq_some_iff _ sig.r).mpr rfl,
      (Multiplier.ofNat?_eq_some_iff _ sig.s).mpr rfl]
    rfl

section
variable {d : Multiplier} {q : Point} (hq : q.toGroup = d.scalar.val • generator.toGroup)
include hq

/-- **The octets that are accepted are those that can be made.** -/
theorem accepts_iff (message signature : Bytes) :
    accepts q message signature = true ↔
      ∃ k sig, signWith? d (digest message) k = some sig ∧ signature = sig.encode := by
  unfold accepts
  constructor
  · intro h
    cases hdecoded : Signature.decode? signature with
    | none =>
      rw [hdecoded] at h
      cases h
    | some sig =>
      rw [hdecoded] at h
      obtain ⟨k, hk⟩ := (verifies_iff_exists_signWith? hq _ sig).mp h
      exact ⟨k, sig, hk, (Signature.decode?_eq_some_iff signature sig).mp hdecoded⟩
  · rintro ⟨k, sig, hk, hsignature⟩
    rw [(Signature.decode?_eq_some_iff signature sig).mpr hsignature]
    exact (verifies_iff_exists_signWith? hq _ sig).mpr ⟨k, hk⟩

theorem accepts_of_sign? {message signature : Bytes} (h : sign? d message = some signature) :
    accepts q message signature = true := by
  unfold sign? at h
  dsimp only at h
  obtain ⟨sig, hsig, rfl⟩ := Option.map_eq_some_iff.mp h
  obtain ⟨n, -, hn⟩ := List.exists_of_findSome?_eq_some hsig
  obtain ⟨k, -, hk⟩ := Option.bind_eq_some_iff.mp hn
  exact (accepts_iff hq message _).mpr ⟨k, sig, hk, rfl⟩

end

end RequestSigning.Ecdsa
