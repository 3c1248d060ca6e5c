import Mathlib.FieldTheory.Finite.Basic
import Mathlib.NumberTheory.LucasLehmer
import RequestSigning.Curve.Field

/-!
# Coordinates as a field

`fieldPrime` is one less than a power of two, and the library has a test for the primality of such
numbers.  So the power that `inverse` computes is an inverse, and the coordinates are a field.

* `foldl_bits`      what is true of a number that grows by one bit after the other is true of all;
* `power_eq_pow`    squaring along the bits of an exponent gives the power;
* `mul_inverse`     the power that is taken for an inverse is one.
-/

namespace RequestSigning.Curve

open scoped Fin.CommRing

/-! ## bits -/

theorem bits_zero (n : Nat) : bits 0 n = [] := rfl

theorem bits_succ (count n : Nat) : bits (count + 1) n = n.testBit count :: bits count n := by
  rw [bits, List.range_succ, List.reverse_concat, List.map_cons]
  rfl

/-- a number is twice the number of its higher bits, and its lowest bit -/
theorem two_mul_add_bit (m count n : Nat) :
    (2 * m + (n.testBit count).toNat) * 2 ^ count + n % 2 ^ count
      = m * 2 ^ (count + 1) + n % 2 ^ (count + 1) := by
  rw [Nat.mod_pow_succ, Nat.toNat_testBit, Nat.pow_succ]
  ring

/-- **What each bit keeps holds of the whole number.** -/
theorem foldl_bits {σ : Type} (R : Nat → σ → Prop) (step : σ → Bool → σ)
    (hstep : ∀ m s bit, R m s → R (2 * m + bit.toNat) (step s bit)) (count n m : Nat) (s : σ)
    (h : R m s) : R (m * 2 ^ count + n % 2 ^ count) ((bits count n).foldl step s) := by
  induction count generalizing m s with
  | zero => simpa [bits_zero, Nat.mod_one] using h
  | succ count ih =>
    rw [bits_succ, List.foldl_cons, ← two_mul_add_bit]
    exact ih _ _ (hstep m s _ h)

theorem power_eq_pow {α : Type} [Monoid α] (a : α) {e : Nat} (h : e < 2 ^ width) :
    power 1 a e = a ^ e := by
  have hstep : ∀ (m : Nat) (r : α) (bit : Bool), r = a ^ m →
      (if bit then r * r * a else r * r) = a ^ (2 * m + bit.toNat) := by
    rintro m r bit rfl
    cases bit with
    | false => rw [if_neg Bool.false_ne_true, ← pow_add, ← two_mul]; rfl
    | true => rw [if_pos rfl, ← pow_add, ← two_mul, ← pow_succ]; rfl
  have hall := foldl_bits (fun m r => r = a ^ m) _ hstep width e 0 1 (pow_zero a).symm
  rwa [Nat.zero_mul, Nat.zero_add, Nat.mod_eq_of_lt h] at hall

/-! ## inverses -/

/-- the power of a residue that is one, with one factor taken out -/
theorem mul_power_eq_one {n : Nat} [NeZero n] (hn : n.Prime) (hwidth : n ≤ 2 ^ width) {a : Fin n}
    (ha : a ≠ 0) : a * power 1 a (n - 2) = 1 := by
  have : Fact n.Prime := ⟨hn⟩
  have htwo := hn.two_le
  have hne : ZMod.finEquiv n a ≠ 0 := (map_ne_zero_iff _ (ZMod.finEquiv n).injective).mpr ha
  rw [power_eq_pow a (by omega), ← pow_succ']
  apply (ZMod.finEquiv n).injective
  rw [map_pow, map_one, show n - 2 + 1 = n - 1 by omega]
  exact ZMod.pow_card_sub_one_eq_one hne

theorem prime_fieldPrime : fieldPrime.Prime := by
  have h : fieldPrime = mersenne 521 := by decide +kernel
  rw [h]
  exact lucas_lehmer_sufficiency 521 (by decide) (by norm_num)

theorem mul_inverse {a : Coordinate} (ha : a ≠ 0) : a * inverse a = 1 :=
  mul_power_eq_one prime_fieldPrime (by decide +kernel) ha

theorem isField_coordinate : IsField Coordinate where
  exists_pair_ne := ⟨0, 1, by decide⟩
  mul_comm := mul_comm
  mul_inv_cancel ha := ⟨inverse _, mul_inverse ha⟩

noncomputable instance : Field Coordinate := isField_coordinate.toField

end RequestSigning.Curve
