import Mathlib.FieldTheory.Finite.Basic
import Mathlib.Tactic.NormNum.Prime
import RequestSigning.Proofs.Curve.Field

/-!
# The group order is a prime

Let `q` be a prime factor of `n - 1`.  If two to the power of `n - 1` is one modulo `n`, and its
power of `(n - 1) / q` is other than one modulo each prime factor `r` of `n`, then that power has the
order `q` there, so that `q` divides `r - 1` (`dvd_sub_one`).  With enough such factors every `r` is
larger than the square root of `n`, and `n` is prime (`Certified.prime`).

From `chainStart` on, each number of the chain is certified by the one before it, and the last one
is `groupOrder`.  The kernel evaluates the powers.
-/

namespace RequestSigning.Curve

/-! ## powers -/

/-- two to the power of an exponent, modulo `n`, from the bits of the exponent -/
def twoPow (n e : Nat) : Nat :=
  (bits width e).foldl (fun r bit => if bit then r * r * 2 % n else r * r % n) 1

theorem twoPow_eq {n e : Nat} (hn : 1 < n) (he : e < 2 ^ width) : twoPow n e = 2 ^ e % n := by
  have hstep : ∀ (m r : Nat) (bit : Bool), r = 2 ^ m % n →
      (if bit then r * r * 2 % n else r * r % n) = 2 ^ (2 * m + bit.toNat) % n := by
    rintro m r bit rfl
    have hsquare : 2 ^ m % n * (2 ^ m % n) ≡ 2 ^ (2 * m) [MOD n] := by
      rw [two_mul, pow_add]
      exact (Nat.mod_modEq _ _).mul (Nat.mod_modEq _ _)
    cases bit with
    | false => exact hsquare
    | true => exact hsquare.mul_right 2
  have hall := foldl_bits (fun m r => r = 2 ^ m % n) _ hstep width e 0 1
    (Nat.mod_eq_of_lt hn).symm
  rwa [Nat.zero_mul, Nat.zero_add, Nat.mod_eq_of_lt he] at hall

/-! ## prime factors below the number -/

theorem dvd_sub_one {n q r : Nat} (hq : q.Prime) (hr : r.Prime) (hqn : q ∣ n - 1) (hrn : r ∣ n)
    (hone : 2 ^ (n - 1) ≡ 1 [MOD n]) (hcoprime : (2 ^ ((n - 1) / q) % n - 1).Coprime n) :
    q ∣ r - 1 := by
  have : Fact q.Prime := ⟨hq⟩
  have : Fact r.Prime := ⟨hr⟩
  have hpow : ((2 : ZMod r) ^ ((n - 1) / q)) ^ q = 1 := by
    rw [← pow_mul, Nat.div_mul_cancel hqn]
    exact_mod_cast (ZMod.natCast_eq_natCast_iff _ _ r).mpr (hone.of_dvd hrn)
  have hne : (2 : ZMod r) ^ ((n - 1) / q) ≠ 1 := by
    intro e
    have hmod : 1 ≡ 2 ^ ((n - 1) / q) % n [MOD r] := by
      refine ((ZMod.natCast_eq_natCast_iff _ _ r).mp ?_).trans ((Nat.mod_modEq _ n).of_dvd hrn).symm
      exact_mod_cast e.symm
    have hpos : 1 ≤ 2 ^ ((n - 1) / q) % n := by
      by_contra hzero
      rw [Nat.lt_one_iff.mp (not_le.mp hzero)] at hmod
      exact hr.one_lt.ne' (Nat.dvd_one.mp (Nat.modEq_zero_iff_dvd.mp hmod))
    exact hr.one_lt.ne'
      (Nat.eq_one_of_dvd_coprimes hcoprime ((Nat.modEq_iff_dvd' hpos).mp hmod) hrn)
  have hunit : (2 : ZMod r) ^ ((n - 1) / q) ≠ 0 := by
    intro e
    rw [e, zero_pow hq.ne_zero] at hpow
    exact zero_ne_one hpow
  rw [← orderOf_eq_prime hpow hne]
  exact ZMod.orderOf_dvd_card_sub_one hunit

/-! ## certificates -/

/-- what is evaluated of a number and some factors of the number below it -/
def Certified (n : Nat) (factors : List Nat) : Prop :=
  (1 < n ∧ n < 2 ^ width) ∧ n < factors.prod * factors.prod ∧ factors.Nodup ∧
    twoPow n (n - 1) = 1 ∧
    ∀ q ∈ factors, q ∣ n - 1 ∧ (twoPow n ((n - 1) / q) - 1).Coprime n

instance (n : Nat) (factors : List Nat) : Decidable (Certified n factors) :=
  inferInstanceAs (Decidable (_ ∧ _))

theorem prod_dvd_of_prime {factors : List Nat} {m : Nat} (hnodup : factors.Nodup)
    (hprime : ∀ q ∈ factors, q.Prime) (hdvd : ∀ q ∈ factors, q ∣ m) : factors.prod ∣ m := by
  have hall := Finset.prod_primes_dvd (s := factors.toFinset) m
    (fun q hq => (hprime q (List.mem_toFinset.mp hq)).prime)
    (fun q hq => hdvd q (List.mem_toFinset.mp hq))
  have heq := List.prod_toFinset id hnodup
  rw [List.map_id] at heq
  exact heq ▸ hall

/-- **A number with enough certified prime factors below it is prime.** -/
theorem Certified.prime {n : Nat} {factors : List Nat} (h : Certified n factors)
    (hprime : ∀ q ∈ factors, q.Prime) : n.Prime := by
  obtain ⟨⟨hn, hwidth⟩, hlarge, hnodup, hone, hfactors⟩ := h
  have hr : n.minFac.Prime := Nat.minFac_prime hn.ne'
  have hdvd : ∀ q ∈ factors, q ∣ n.minFac - 1 := by
    intro q hq
    obtain ⟨hqn, hcoprime⟩ := hfactors q hq
    have hpower : (n - 1) / q < 2 ^ width :=
      ((Nat.div_le_self _ _).trans (Nat.sub_le _ _)).trans_lt hwidth
    rw [twoPow_eq hn hpower] at hcoprime
    rw [twoPow_eq hn (by omega)] at hone
    exact dvd_sub_one (hprime q hq) hr hqn n.minFac_dvd
      (hone.trans (Nat.mod_eq_of_lt hn).symm) hcoprime
  have hprod := prod_dvd_of_prime hnodup hprime hdvd
  have hlt : factors.prod < n.minFac :=
    (Nat.le_of_dvd (Nat.sub_pos_of_lt hr.one_lt) hprod).trans_lt (Nat.sub_lt hr.pos one_pos)
  by_contra hcomposite
  have hsquare := Nat.minFac_sq_le_self (Nat.zero_lt_of_lt hn) hcomposite
  rw [sq] at hsquare
  exact (Nat.mul_self_lt_mul_self hlt).not_ge (hsquare.trans hlarge.le)

/-! ## the chain -/

/-- From `q` on, each number is one more than a multiple of the one before it, by the next factor of
the list, and certified by that one. -/
def Chained : Nat → List Nat → Prop
  | _, [] => True
  | q, k :: rest => Certified (k * q + 1) [q] ∧ Chained (k * q + 1) rest

instance decidableChained : (q : Nat) → (l : List Nat) → Decidable (Chained q l)
  | _, [] => isTrue trivial
  | q, k :: rest =>
    have := decidableChained (k * q + 1) rest
    inferInstanceAs (Decidable (_ ∧ _))

theorem Chained.prime {q : Nat} {l : List Nat} (h : Chained q l) (hq : q.Prime) :
    (l.foldl (fun q k => k * q + 1) q).Prime := by
  induction l generalizing q with
  | nil => exact hq
  | cons k rest ih =>
    exact ih h.2 (h.1.prime (List.forall_mem_singleton.mpr hq))

def chainStart : Nat := 0xd53ab44ac00f4f

/-- the factors that lead to the group order -/
def chain : List Nat :=
  [0x113ee, 0x6397840184848, 0x1de1cf44511c8232, 0x25fadeaba0bc7f44c7c74699e108db574ea6497184aaa,
    0x3b41c3da, 0x5948dbcaaf3dee7c1e2d7a0da1bdd2cb8]

theorem prime_chainStart : chainStart.Prime := by
  have hcertified : Certified chainStart [777241, 19353437] := by decide +kernel
  refine hcertified.prime (List.forall_mem_cons.mpr ⟨by norm_num, ?_⟩)
  exact List.forall_mem_singleton.mpr (by norm_num)

theorem prime_groupOrder : groupOrder.Prime := by
  have hchained : Chained chainStart chain := by decide +kernel
  have hend : chain.foldl (fun q k => k * q + 1) chainStart = groupOrder := by decide +kernel
  exact hend ▸ hchained.prime prime_chainStart

end RequestSigning.Curve
