import RequestSigning.Proofs.Json.Numbers
import RequestSigning.Proofs.Json.Strings

/-!
# JSON strings and numbers in any spelling

A text has many spellings: any character may be written by its code units, and some by a letter
behind a backslash.  A string as it is written is a list of parts (`Piece`), and `unescape` gives
the octets that it stands for, unless a surrogate stands alone.  It is scanned as these octets
(`scanString_spell`), and skipped whatever it stands for (`skipString_spell`).

A number as it is written is a `NumberText`.  In front of an octet that ends a number it is scanned
as its numeral (`NumberText.scanNumber_append`).
-/

namespace RequestSigning.Json

/-! ## strings -/

/-- a part of a string as it is written: an octet for itself, a letter behind a backslash that
stands for an octet, or a code unit in four hexadecimal digits -/
inductive Piece where
  | plain (b : UInt8) (h : b ≠ byte '"' ∧ b ≠ byte '\\' ∧ ¬ b < 0x20)
  | letter (e x : UInt8) (h : escaped? e = some x)
  | unit (a b c d : UInt8) (n : Nat) (h : unit? a b c d = some n)

def Piece.octets : Piece → Bytes
  | plain b _ => [b]
  | letter e _ _ => [byte '\\', e]
  | unit a b c d _ _ => [byte '\\', byte 'u', a, b, c, d]

def spell (ps : List Piece) : Bytes := ps.flatMap Piece.octets

/-- a string with its quotation marks -/
def quotedPieces (ps : List Piece) : Bytes := byte '"' :: (spell ps ++ [byte '"'])

/-- the octets that a string stands for.  Two surrogates are one character; no surrogate stands
alone. -/
def unescape : List Piece → Option Bytes
  | [] => some []
  | .plain b _ :: ps => (unescape ps).map (b :: ·)
  | .letter _ x _ :: ps => (unescape ps).map (x :: ·)
  | .unit _ _ _ _ n _ :: ps =>
    if n < 0xD800 ∨ 0xDFFF < n then (unescape ps).map (octetsOf n ++ ·)
    else if 0xDBFF < n then none
    else
      match ps with
      | .unit _ _ _ _ low _ :: ps =>
        if 0xDC00 ≤ low ∧ low ≤ 0xDFFF then
          (unescape ps).map (octetsOf (0x10000 + (n - 0xD800) * 0x400 + (low - 0xDC00)) ++ ·)
        else none
      | _ => none

/-- the text that a string stands for, if its octets are UTF-8 -/
def pieceText? (ps : List Piece) : Option String := (unescape ps).bind Utf8.text?

theorem spell_cons (p : Piece) (ps : List Piece) (rest : Bytes) :
    spell (p :: ps) ++ rest = p.octets ++ (spell ps ++ rest) := by
  rw [spell, List.flatMap_cons, List.append_assoc, ← spell]

section
variable (ps : List Piece) (rest : Bytes)

theorem spell_plain (b : UInt8) (h : b ≠ byte '"' ∧ b ≠ byte '\\' ∧ ¬ b < 0x20) :
    spell (.plain b h :: ps) ++ rest = b :: (spell ps ++ rest) := spell_cons _ ps rest
theorem spell_letter (e x : UInt8) (h : escaped? e = some x) :
    spell (.letter e x h :: ps) ++ rest = byte '\\' :: e :: (spell ps ++ rest) :=
  spell_cons _ ps rest
theorem spell_unit (a b c d : UInt8) (n : Nat) (h : unit? a b c d = some n) :
    spell (.unit a b c d n h :: ps) ++ rest
      = byte '\\' :: byte 'u' :: a :: b :: c :: d :: (spell ps ++ rest) := spell_cons _ ps rest

end

theorem letter_ne_unit {e x : UInt8} (h : escaped? e = some x) : e ≠ byte 'u' := by
  rintro rfl
  cases h

theorem quotedPieces_append (ps : List Piece) (rest : Bytes) :
    quotedPieces ps ++ rest = byte '"' :: (spell ps ++ byte '"' :: rest) := by
  rw [quotedPieces, List.cons_append, List.append_assoc]
  rfl

/-! ### skipping -/

theorem skipString_spell (ps : List Piece) (rest : Bytes) :
    skipString (spell ps ++ byte '"' :: rest) = some rest := by
  have hq : byte '\\' ≠ byte '"' := by decide
  induction ps with
  | nil =>
    show skipString (byte '"' :: rest) = _
    rw [skipString.eq_def]
    exact if_pos rfl
  | cons p ps ih =>
    cases p with
    | plain b h =>
      rw [spell_plain, skipString.eq_def]
      simp only [if_neg h.1, if_neg h.2.1, if_neg h.2.2, ih]
    | letter e x h =>
      rw [spell_letter, skipString.eq_def]
      simp only [if_neg hq, if_true, if_neg (letter_ne_unit h), h, Option.isSome_some, ih]
    | unit a b c d n h =>
      rw [spell_unit, skipString.eq_def]
      simp only [if_neg hq, if_true, h, Option.isSome_some, ih]

/-! ### scanning -/

theorem prepend_map (b rest : Bytes) (x : Option Bytes) :
    prepend b (x.map (·, rest)) = (x.map (b ++ ·)).map (·, rest) := by
  cases x <;> rfl

section
variable {a b c d : UInt8} {n : Nat} (h : unit? a b c d = some n)
  (hsurrogate : ¬ (n < 0xD800 ∨ 0xDFFF < n))
include h hsurrogate

/-- the second one of two surrogates does not come first -/
theorem scanString_low (hlow : 0xDBFF < n) (rest : Bytes) :
    scanString (byte '\\' :: byte 'u' :: a :: b :: c :: d :: rest) = none := by
  have hq : byte '\\' ≠ byte '"' := by decide
  rw [scanString.eq_def]
  simp only [if_neg hq, if_true, h, if_neg hsurrogate, if_pos hlow]

/-- the first one of two surrogates does not come alone -/
theorem scanString_high (hlow : ¬ 0xDBFF < n) {rest : Bytes}
    (hrest : ∀ more, rest ≠ byte '\\' :: byte 'u' :: more) :
    scanString (byte '\\' :: byte 'u' :: a :: b :: c :: d :: rest) = none := by
  have hq : byte '\\' ≠ byte '"' := by decide
  rw [scanString.eq_def]
  simp only [if_neg hq, if_true, h, if_neg hsurrogate, if_neg hlow]
  split
  · split
    · rfl
    · refine if_neg ?_
      rintro ⟨rfl, rfl, -⟩
      exact hrest _ rfl
  · rfl

theorem scanString_pair (hlow : ¬ 0xDBFF < n) {a' b' c' d' : UInt8} {low : Nat}
    (h' : unit? a' b' c' d' = some low) (rest : Bytes) :
    scanString (byte '\\' :: byte 'u' :: a :: b :: c :: d
        :: byte '\\' :: byte 'u' :: a' :: b' :: c' :: d' :: rest)
      = if 0xDC00 ≤ low ∧ low ≤ 0xDFFF then
          prepend (octetsOf (0x10000 + (n - 0xD800) * 0x400 + (low - 0xDC00))) (scanString rest)
        else none := by
  have hq : byte '\\' ≠ byte '"' := by decide
  rw [scanString.eq_def]
  simp only [if_neg hq, if_true, h, if_neg hsurrogate, if_neg hlow, h', true_and]

end

/-- **A string is scanned as the octets that it stands for.** -/
theorem scanString_spell (ps : List Piece) (rest : Bytes) :
    scanString (spell ps ++ byte '"' :: rest) = (unescape ps).map (·, rest) := by
  -- the cases are those of `unescape`, where two surrogates are taken at once
  induction ps using unescape.induct with
  | case1 => exact scanString_quote rest
  | case2 b h ps ih =>
    rw [spell_plain, unescape, scanString_plain b _ h.1 h.2.1 h.2.2, ih, prepend_map]
    rfl
  | case3 e x h ps ih =>
    rw [spell_letter, unescape, scanString_letter e x _ (letter_ne_unit h) h, ih, prepend_map]
    rfl
  | case4 a b c d n h ps hn ih =>
    rw [spell_unit, unescape.eq_def, scanString_unit a b c d _ n h hn, ih, prepend_map]
    simp only [if_pos hn]
  | case5 a b c d n h ps hn hlow =>
    rw [spell_unit, unescape.eq_def, scanString_low h hn hlow]
    simp only [if_neg hn, if_pos hlow, Option.map_none]
  | case6 a b c d n h hn hlow a' b' c' d' low h' ps hpair ih =>
    rw [spell_unit, spell_unit, unescape.eq_def, scanString_pair h hn hlow h', if_pos hpair, ih,
      prepend_map]
    simp only [if_neg hn, if_neg hlow, if_pos hpair]
  | case7 a b c d n h hn hlow a' b' c' d' low h' ps hpair =>
    rw [spell_unit, spell_unit, unescape.eq_def, scanString_pair h hn hlow h', if_neg hpair]
    simp only [if_neg hn, if_neg hlow, if_neg hpair, Option.map_none]
  | case8 a b c d n h ps hn hlow hps =>
    have hrest : ∀ more, spell ps ++ byte '"' :: rest ≠ byte '\\' :: byte 'u' :: more := by
      intro more hmore
      cases ps with
      | nil => exact absurd (List.cons.inj hmore).1 (by decide)
      | cons p ps =>
        cases p with
        | plain x hx =>
          rw [spell_plain] at hmore
          exact hx.2.1 (List.cons.inj hmore).1
        | letter e x hx =>
          rw [spell_letter] at hmore
          exact letter_ne_unit hx (List.cons.inj (List.cons.inj hmore).2).1
        | unit a' b' c' d' low h' => exact hps a' b' c' d' low h' ps rfl
    rw [spell_unit, unescape.eq_def, scanString_high h hn hlow hrest]
    simp only [if_neg hn, if_neg hlow, Option.map_none]

theorem readString_spell (ps : List Piece) (rest : Bytes) :
    readString (spell ps ++ byte '"' :: rest) = (pieceText? ps).map (·, rest) := by
  rw [readString, scanString_spell, pieceText?]
  cases unescape ps with
  | none => rfl
  | some octets =>
    simp only [Option.map_some, Option.bind_eq_bind, Option.bind_some]
    cases Utf8.text? octets <;> rfl

/-! ## numbers -/

/-- digits as they are written, at least one -/
structure Digits where
  octets : Bytes
  digit : ∀ b ∈ octets, isDigit b = true
  ne_nil : octets ≠ []

namespace Digits

def values (ds : Digits) : List Nat := ds.octets.map fun b => b.toNat - 48

theorem exists_cons (ds : Digits) : ∃ b more, ds.octets = b :: more ∧ isDigit b = true := by
  cases h : ds.octets with
  | nil => exact absurd h ds.ne_nil
  | cons b more => exact ⟨b, more, rfl, ds.digit b (by rw [h]; exact List.mem_cons_self)⟩

theorem scanSomeDigits_append (ds : Digits) {b : UInt8} (hb : isDigit b = false) (rest : Bytes) :
    scanSomeDigits (ds.octets ++ b :: rest) = some (ds.values, b :: rest) := by
  obtain ⟨x, more, hx, -⟩ := ds.exists_cons
  rw [scanSomeDigits, scanDigits_append ds.digit hb, values, hx]
  rfl

end Digits

/-- an exponent as it is written: `e` or `E`, perhaps a sign, and digits -/
structure Exponent where
  mark : UInt8
  marks : mark = byte 'e' ∨ mark = byte 'E'
  /-- whether the sign is a minus, if there is one -/
  sign : Option Bool
  digits : Digits

/-- a number as it is written -/
structure NumberText where
  negative : Bool
  whole : Digits
  /-- no further digit follows a leading zero -/
  leading : ∀ more, whole.octets = byte '0' :: more → more = []
  fraction : Option Digits
  exponent : Option Exponent

/-! ### exponents -/

namespace Exponent

def signOctets : Option Bool → Bytes
  | none => []
  | some true => [byte '-']
  | some false => [byte '+']

def octets (e : Exponent) : Bytes := e.mark :: (signOctets e.sign ++ e.digits.octets)

theorem scanSign_append (sign : Option Bool) (ds : Digits) (rest : Bytes) :
    scanSign (signOctets sign ++ (ds.octets ++ rest)) = (sign.getD false, ds.octets ++ rest) := by
  cases sign with
  | none =>
    obtain ⟨b, more, hb, hdigit⟩ := ds.exists_cons
    have hminus : b ≠ byte '-' := by
      rintro rfl
      exact absurd hdigit (by decide)
    have hplus : b ≠ byte '+' := by
      rintro rfl
      exact absurd hdigit (by decide)
    rw [hb]
    show scanSign (b :: (more ++ rest)) = _
    rw [scanSign, if_neg hminus, if_neg hplus]
    rfl
  | some minus =>
    have hne : byte '+' ≠ byte '-' := by decide
    cases minus with
    | true =>
      show scanSign (byte '-' :: (ds.octets ++ rest)) = _
      rw [scanSign, if_pos rfl]
      rfl
    | false =>
      show scanSign (byte '+' :: (ds.octets ++ rest)) = _
      rw [scanSign, if_neg hne, if_pos rfl]
      rfl

theorem scanExponent_append (e : Exponent) {b : UInt8} (hb : EndsNumber b) (rest : Bytes) :
    scanExponent (e.octets ++ b :: rest)
      = some (some (e.sign.getD false, e.digits.values), b :: rest) := by
  rw [octets, List.cons_append, List.append_assoc, scanExponent, if_pos e.marks,
    scanSign_append e.sign e.digits (b :: rest)]
  show Option.map _ (scanSomeDigits (e.digits.octets ++ b :: rest)) = _
  rw [e.digits.scanSomeDigits_append hb.1]
  rfl

end Exponent

/-! ### numbers as a whole -/

namespace NumberText

def signOctets (n : NumberText) : Bytes := if n.negative then [byte '-'] else []

def fractionOctets (n : NumberText) : Bytes := n.fraction.elim [] fun ds => byte '.' :: ds.octets

def exponentOctets (n : NumberText) : Bytes := n.exponent.elim [] Exponent.octets

def octets (n : NumberText) : Bytes :=
  n.signOctets ++ (n.whole.octets ++ (n.fractionOctets ++ n.exponentOctets))

/-- what is scanned -/
def numeral (n : NumberText) : Numeral where
  negative := n.negative
  whole := n.whole.values
  fraction := n.fraction.map Digits.values
  exponent := n.exponent.map fun e => (e.sign.getD false, e.digits.values)

variable (n : NumberText)

theorem scanExponent_append {b : UInt8} (hb : EndsNumber b) (rest : Bytes) :
    scanExponent (n.exponentOctets ++ b :: rest) = some (n.numeral.exponent, b :: rest) := by
  rw [exponentOctets, numeral]
  cases n.exponent with
  | none => exact scanExponent_of_endsNumber hb rest
  | some e => exact e.scanExponent_append hb rest

/-- behind the fraction there is neither a digit nor a point -/
theorem exists_exponent_eq {b : UInt8} (hb : EndsNumber b) (rest : Bytes) :
    ∃ c more, n.exponentOctets ++ b :: rest = c :: more ∧ isDigit c = false ∧ c ≠ byte '.' := by
  rw [exponentOctets]
  cases n.exponent with
  | none => exact ⟨b, rest, rfl, hb.1, hb.2.1⟩
  | some e =>
    refine ⟨e.mark, Exponent.signOctets e.sign ++ e.digits.octets ++ b :: rest, rfl, ?_, ?_⟩
    · rcases e.marks with h | h <;> rw [h] <;> decide
    · rcases e.marks with h | h <;> rw [h] <;> decide

theorem scanFraction_append {c : UInt8} (hc : isDigit c = false) (hpoint : c ≠ byte '.')
    (more : Bytes) :
    scanFraction (n.fractionOctets ++ c :: more) = some (n.numeral.fraction, c :: more) := by
  rw [fractionOctets, numeral]
  cases n.fraction with
  | none => exact if_neg hpoint
  | some ds =>
    show scanFraction (byte '.' :: (ds.octets ++ c :: more)) = _
    rw [scanFraction, if_pos rfl, ds.scanSomeDigits_append hc]
    rfl

/-- behind the digits before the point there is no digit -/
theorem exists_fraction_eq {c : UInt8} (hc : isDigit c = false) (more : Bytes) :
    ∃ x xs, n.fractionOctets ++ c :: more = x :: xs ∧ isDigit x = false := by
  rw [fractionOctets]
  cases n.fraction with
  | none => exact ⟨c, more, rfl, hc⟩
  | some ds => exact ⟨byte '.', ds.octets ++ c :: more, rfl, by decide⟩

theorem scanWhole_append {x : UInt8} (hx : isDigit x = false) (xs : Bytes) :
    scanWhole (n.whole.octets ++ x :: xs) = some (n.whole.values, x :: xs) := by
  obtain ⟨b, more, hb, hdigit⟩ := n.whole.exists_cons
  rw [scanWhole, scanDigits_append n.whole.digit hx, Digits.values, hb, List.map_cons]
  by_cases hzero : b = byte '0'
  · subst hzero
    rw [n.leading more hb]
    rfl
  · have hall : ∀ b, isDigit b = true → b ≠ byte '0' → b.toNat - 48 ≠ 0 :=
      forall_octet (by decide +kernel)
    obtain ⟨k, hk⟩ := Nat.exists_eq_succ_of_ne_zero (hall b hdigit hzero)
    rw [hk]
    rfl

/-- **A number is scanned as its numeral.** -/
theorem scanNumber_append {b : UInt8} (hb : EndsNumber b) (rest : Bytes) :
    scanNumber (n.octets ++ b :: rest) = some (n.numeral, b :: rest) := by
  obtain ⟨c, more, hc, hdigit, hpoint⟩ := n.exists_exponent_eq hb rest
  obtain ⟨x, xs, hx, hstop⟩ := n.exists_fraction_eq hdigit more
  have hexponent := n.scanExponent_append hb rest
  have hfraction := n.scanFraction_append hdigit hpoint more
  have hwhole := n.scanWhole_append hstop xs
  rw [hc] at hexponent
  rw [hx] at hfraction
  have hnumeral : n.numeral
      = ⟨n.negative, n.whole.values, n.numeral.fraction, n.numeral.exponent⟩ := rfl
  rw [octets, List.append_assoc, List.append_assoc, List.append_assoc, hc, hx, signOctets, hnumeral]
  cases n.negative with
  | true =>
    show scanNumber (byte '-' :: (n.whole.octets ++ x :: xs)) = _
    simp only [scanNumber, if_true, hwhole, hfraction, hexponent, Option.bind_eq_bind,
      Option.bind_some]
  | false =>
    obtain ⟨d, ds, hd, hfirst⟩ := n.whole.exists_cons
    have hminus : d ≠ byte '-' := by
      rintro rfl
      exact absurd hfirst (by decide)
    rw [hd, List.cons_append] at hwhole
    rw [hd]
    show scanNumber (d :: (ds ++ x :: xs)) = _
    simp only [scanNumber, if_neg hminus, hwhole, hfraction, hexponent, Option.bind_eq_bind,
      Option.bind_some]

end NumberText

end RequestSigning.Json
