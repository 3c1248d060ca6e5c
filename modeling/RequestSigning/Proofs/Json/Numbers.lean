import RequestSigning.Json.Printer
import RequestSigning.Json.Reader
import RequestSigning.Proofs.Text.Utf8

/-!
# JSON integers: reading undoes writing

An integer is written with the digits of its magnitude (`digits`), which begin with zero for zero
only.  In front of an octet that ends a number they are scanned as they were written
(`scanNumber_repr`), and an integer of 64 bits is the value of its numeral (`value?_numeral`).
-/

namespace RequestSigning.Json

/-! ## digits -/

/-- the digits of a number, the most significant one first -/
def digits (n : Nat) : List Nat := (Nat.toDigits 10 n).map fun c => c.toNat - 48

theorem spelt_digits (n : Nat) : spelt (digits n) = n := by
  rw [spelt, digits, List.foldl_map]
  have h : Nat.ofDigitChars 10 (Nat.toDigits 10 n) 0 = n := Nat.ofDigitChars_ten_toDigits
  simp only [Nat.ofDigitChars_eq_foldl, Nat.mul_comm 10] at h
  exact h

theorem digits_of_lt {n : Nat} (h : n < 10) : digits n = [n] := by
  rw [digits, Nat.toDigits_of_lt_base h, List.map_singleton, Nat.toNat_digitChar_sub_48_of_lt_ten h]

theorem digits_of_le {n : Nat} (h : 10 ≤ n) : digits n = digits (n / 10) ++ [n % 10] := by
  have hlast := Nat.toNat_digitChar_sub_48_of_lt_ten (Nat.mod_lt n (show 10 > 0 by decide))
  rw [digits, Nat.toDigits_of_base_le (by decide) h, List.map_append, List.map_singleton, hlast]
  rfl

/-- no number but zero begins with a zero -/
theorem exists_digits_eq_cons {n : Nat} (h : n ≠ 0) : ∃ d ds, digits n = d :: ds ∧ d ≠ 0 := by
  induction n using Nat.strongRecOn with
  | ind n ih =>
    by_cases hn : n < 10
    · exact ⟨n, [], digits_of_lt hn, h⟩
    · obtain ⟨d, ds, hd, hne⟩ := ih (n / 10) (by omega) (by omega)
      exact ⟨d, ds ++ [n % 10], by rw [digits_of_le (by omega), hd]; rfl, hne⟩

/-! ## scanning -/

/-- an octet that ends a number without fraction and exponent -/
def EndsNumber (b : UInt8) : Prop :=
  isDigit b = false ∧ b ≠ byte '.' ∧ b ≠ byte 'e' ∧ b ≠ byte 'E'

instance (b : UInt8) : Decidable (EndsNumber b) := inferInstanceAs (Decidable (_ ∧ _))

theorem isDigit_byte {c : Char} (h : c.isDigit = true) :
    c.toNat < 128 ∧ isDigit (byte c) = true ∧ (byte c).toNat = c.toNat := by
  obtain ⟨hlow, hhigh⟩ := Char.isDigit_iff_toNat.mp h
  have hlow' : 48 ≤ c.toNat := hlow
  have hhigh' : c.toNat ≤ 57 := hhigh
  have hbyte : (byte c).toNat = c.toNat := toNat_byte c (by omega)
  refine ⟨by omega, ?_, hbyte⟩
  rw [isDigit, Bool.and_eq_true, decide_eq_true_eq, decide_eq_true_eq, UInt8.le_iff_toNat_le,
    UInt8.le_iff_toNat_le, hbyte]
  exact ⟨hlow', hhigh'⟩

/-- digits are taken as far as they go -/
theorem scanDigits_append {s : Bytes} (hs : ∀ x ∈ s, isDigit x = true) {b : UInt8}
    (hb : isDigit b = false) (rest : Bytes) :
    scanDigits (s ++ b :: rest) = (s.map fun x => x.toNat - 48, b :: rest) := by
  have hstop : ¬ isDigit b = true := by rw [hb]; exact Bool.false_ne_true
  rw [scanDigits, List.takeWhile_append_of_pos hs, List.dropWhile_append_of_pos hs,
    List.takeWhile_cons_of_neg hstop, List.dropWhile_cons_of_neg hstop, List.append_nil]

theorem scanDigits_toDigits (n : Nat) {b : UInt8} (hb : EndsNumber b) (rest : Bytes) :
    scanDigits (Bytes.ofChars (Nat.toDigits 10 n) ++ b :: rest) = (digits n, b :: rest) := by
  have hdigit : ∀ c ∈ Nat.toDigits 10 n, c.isDigit = true := fun c hc =>
    Nat.isDigit_of_mem_toDigits (by decide) (by decide) hc
  rw [Bytes.ofChars_ascii _ fun c hc => (isDigit_byte (hdigit c hc)).1]
  have hall : ∀ x ∈ (Nat.toDigits 10 n).map byte, isDigit x = true := by
    intro x hx
    obtain ⟨c, hc, rfl⟩ := List.mem_map.mp hx
    exact (isDigit_byte (hdigit c hc)).2.1
  rw [scanDigits_append hall hb.1, List.map_map, digits]
  exact congrArg (·, b :: rest) (List.map_congr_left fun c hc =>
    congrArg (· - 48) (isDigit_byte (hdigit c hc)).2.2)

theorem scanWhole_toDigits (n : Nat) {b : UInt8} (hb : EndsNumber b) (rest : Bytes) :
    scanWhole (Bytes.ofChars (Nat.toDigits 10 n) ++ b :: rest) = some (digits n, b :: rest) := by
  rw [scanWhole, scanDigits_toDigits n hb]
  by_cases hn : n = 0
  · subst hn
    rfl
  · obtain ⟨d, ds, hd, hne⟩ := exists_digits_eq_cons hn
    rw [hd]
    cases d with
    | zero => exact absurd rfl hne
    | succ d => rfl

theorem scanFraction_of_endsNumber {b : UInt8} (hb : EndsNumber b) (rest : Bytes) :
    scanFraction (b :: rest) = some (none, b :: rest) := if_neg hb.2.1

theorem scanExponent_of_endsNumber {b : UInt8} (hb : EndsNumber b) (rest : Bytes) :
    scanExponent (b :: rest) = some (none, b :: rest) :=
  if_neg fun h => h.elim hb.2.2.1 hb.2.2.2

/-! ## integers -/

/-- an integer as a numeral -/
def numeral (n : Int) : Numeral := ⟨decide (n < 0), digits n.natAbs, none, none⟩

theorem toList_repr (n : Nat) : n.repr.toList = Nat.toDigits 10 n := by
  rw [Nat.repr_eq_ofList_toDigits, String.toList_ofList]

/-- a number begins with a digit -/
theorem exists_toDigits_eq (n : Nat) :
    ∃ b body, Bytes.ofChars (Nat.toDigits 10 n) = b :: body ∧ isDigit b = true := by
  cases hcs : Nat.toDigits 10 n with
  | nil => exact absurd hcs Nat.toDigits_ne_nil
  | cons c cs =>
    have hc : c ∈ Nat.toDigits 10 n := hcs ▸ List.mem_cons_self
    have hdigit := isDigit_byte (Nat.isDigit_of_mem_toDigits (by decide) (by decide) hc)
    refine ⟨byte c, Bytes.ofChars cs, ?_, hdigit.2.1⟩
    rw [Bytes.ofChars_cons, utf8EncodeChar_ascii c hdigit.1]
    rfl

theorem scanNumber_repr (n : Int) {b : UInt8} (hb : EndsNumber b) (rest : Bytes) :
    scanNumber (Bytes.ofChars n.repr.toList ++ b :: rest) = some (numeral n, b :: rest) := by
  cases n with
  | ofNat n =>
    obtain ⟨a, body, ha, hdigit⟩ := exists_toDigits_eq n
    have hwhole := scanWhole_toDigits n hb rest
    rw [ha, List.cons_append] at hwhole
    have hminus : a ≠ byte '-' := by
      rintro rfl
      exact absurd hdigit (by decide)
    have hneg : decide (Int.ofNat n < 0) = false := 
      decide_eq_false (Int.not_lt.mpr (Int.natCast_nonneg n))
    show scanNumber (Bytes.ofChars n.repr.toList ++ b :: rest) = _
    rw [toList_repr, ha, List.cons_append]
    simp only [scanNumber, if_neg hminus, hwhole, Option.bind_eq_bind, Option.bind_some,
      scanFraction_of_endsNumber hb, scanExponent_of_endsNumber hb, numeral, hneg, Int.natAbs]
  | negSucc n =>
    have hwhole := scanWhole_toDigits (n + 1) hb rest
    have hneg : decide (Int.negSucc n < 0) = true := decide_eq_true (by omega)
    have hchars : Bytes.ofChars (Int.negSucc n).repr.toList
        = byte '-' :: Bytes.ofChars (Nat.toDigits 10 (n + 1)) := by
      show Bytes.ofChars ("-" ++ (n + 1).repr).toList = _
      rw [String.toList_append, Bytes.ofChars_append, toList_repr]
      rfl
    rw [hchars, List.cons_append]
    simp only [scanNumber, if_true, hwhole, Option.bind_eq_bind, Option.bind_some,
      scanFraction_of_endsNumber hb, scanExponent_of_endsNumber hb, numeral, hneg, Int.natAbs]

/-- an integer that 64 bits can hold, with a sign or without -/
def IsWord (n : Int) : Prop := -0x8000000000000000 ≤ n ∧ n < 0x10000000000000000

instance (n : Int) : Decidable (IsWord n) := inferInstanceAs (Decidable (_ ∧ _))

theorem value?_numeral {n : Int} (h : IsWord n) : (numeral n).value? = some (.int n) := by
  have hint : (numeral n).int? = some n := by
    obtain ⟨hlow, hhigh⟩ := h
    simp only [numeral, Numeral.int?, spelt_digits, Option.isSome_none, Bool.or_self,
      Bool.false_eq_true, if_false, decide_eq_true_eq]
    by_cases hneg : n < 0
    · rw [if_pos hneg, if_pos (by omega)]
      exact congrArg some (by rw [Int.ofNat_eq_natCast]; omega)
    · have hlt : n.natAbs < UInt64.size := by
        show n.natAbs < 0x10000000000000000
        omega
      rw [if_neg hneg, if_pos hlt]
      exact congrArg some (by rw [Int.ofNat_eq_natCast]; omega)
  rw [Numeral.value?, hint]

end RequestSigning.Json
