import RequestSigning.Json.Printer
import RequestSigning.Json.Reader
import RequestSigning.Proofs.Text.Names

/-!
# JSON strings: reading undoes writing

`scanString_escape` reads one written character, whatever it is: a letter behind a backslash, a
control character by its number, or its plain octets.  Hence every text is read back from its
written form (`readText_stringChars`), also in front of a colon (`readName_stringChars`).
-/

namespace RequestSigning.Json

/-! ## blanks and punctuation -/

theorem skipBlank_cons (b : UInt8) (rest : Bytes) (h : isBlank b = false) :
    skipBlank (b :: rest) = b :: rest :=
  List.dropWhile_cons_of_neg (by rw [h]; exact Bool.false_ne_true)

/-- white space, perhaps none -/
def IsBlanks (s : Bytes) : Prop := ∀ b ∈ s, isBlank b = true

instance (s : Bytes) : Decidable (IsBlanks s) := List.decidableBAll (fun b => isBlank b = true) s

theorem skipBlank_append {blank : Bytes} (h : IsBlanks blank) (rest : Bytes) :
    skipBlank (blank ++ rest) = skipBlank rest := List.dropWhile_append_of_pos h

theorem expect?_append {blank : Bytes} (h : IsBlanks blank) (b : UInt8) (rest : Bytes) :
    expect? b (blank ++ rest) = expect? b rest := by
  rw [expect?, expect?, skipBlank_append h]

theorem expect?_cons (b : UInt8) (rest : Bytes) (h : isBlank b = false) :
    expect? b (b :: rest) = some rest := by
  rw [expect?, skipBlank_cons b rest h]
  exact if_pos rfl

theorem expect?_cons_ne (a b : UInt8) (rest : Bytes) (h : isBlank b = false) (hne : b ≠ a) :
    expect? a (b :: rest) = none := by
  rw [expect?, skipBlank_cons b rest h]
  exact if_neg hne

theorem isBlank_quote : isBlank (byte '"') = false := by decide

/-! ## one step of a string -/

theorem prepend_nil (x : Option (Bytes × Bytes)) : prepend [] x = x := by
  cases x <;> rfl

theorem prepend_prepend (a b : Bytes) (x : Option (Bytes × Bytes)) :
    prepend a (prepend b x) = prepend (a ++ b) x := by
  cases x with
  | none => rfl
  | some p => simp only [prepend, Option.map_some, List.append_assoc]

theorem scanString_quote (rest : Bytes) : scanString (byte '"' :: rest) = some ([], rest) := by
  rw [scanString.eq_def]
  exact if_pos rfl

theorem scanString_plain (b : UInt8) (rest : Bytes) (hq : b ≠ byte '"') (hb : b ≠ byte '\\')
    (hc : ¬ b < 0x20) : scanString (b :: rest) = prepend [b] (scanString rest) := by
  rw [scanString.eq_def]
  simp only [if_neg hq, if_neg hb, if_neg hc]

theorem scanString_letter (e x : UInt8) (rest : Bytes) (hu : e ≠ byte 'u')
    (h : escaped? e = some x) :
    scanString (byte '\\' :: e :: rest) = prepend [x] (scanString rest) := by
  have hq : byte '\\' ≠ byte '"' := by decide
  rw [scanString.eq_def]
  simp only [if_neg hq, if_true, if_neg hu, h]

theorem scanString_unit (a b c d : UInt8) (rest : Bytes) (n : Nat) (h : unit? a b c d = some n)
    (hn : n < 0xD800 ∨ 0xDFFF < n) : scanString (byte '\\' :: byte 'u' :: a :: b :: c :: d :: rest)
      = prepend (octetsOf n) (scanString rest) := by
  have hq : byte '\\' ≠ byte '"' := by decide
  rw [scanString.eq_def]
  simp only [if_neg hq, if_true, h, if_pos hn]

/-! ## one character -/

theorem scanString_octets (bs rest : Bytes) (h : ∀ b ∈ bs, 128 ≤ b.toNat) :
    scanString (bs ++ rest) = prepend bs (scanString rest) := by
  induction bs with
  | nil => exact (prepend_nil (scanString rest)).symm
  | cons b bs ih =>
    have hb := h b List.mem_cons_self
    have hplain : b ≠ byte '"' ∧ b ≠ byte '\\' ∧ ¬ b < 0x20 := by
      refine ⟨?_, ?_, ?_⟩
      · rintro rfl
        exact absurd hb (by decide)
      · rintro rfl
        exact absurd hb (by decide)
      · intro hlt
        have hlt' : b.toNat < 32 := UInt8.lt_iff_toNat_lt.mp hlt
        omega
    rw [List.cons_append, scanString_plain b _ hplain.1 hplain.2.1 hplain.2.2,
      ih fun c hc => h c (List.mem_cons_of_mem b hc), prepend_prepend]
    rfl

/-- the characters of ASCII that stand for themselves -/
theorem plain_ascii : ∀ n < 128, 0x20 ≤ n ∧ Char.ofNat n ≠ '"' ∧ Char.ofNat n ≠ '\\' →
    byte (Char.ofNat n) ≠ byte '"' ∧ byte (Char.ofNat n) ≠ byte '\\' ∧
      ¬ byte (Char.ofNat n) < 0x20 := by decide

theorem control_ascii : ∀ n < 0x20,
    Bytes.ofChars ['\\', 'u', '0', '0', hexChar (n / 16), hexChar (n % 16)]
      = [byte '\\', byte 'u', byte '0', byte '0', byte (hexChar (n / 16)),
          byte (hexChar (n % 16))] ∧
    unit? (byte '0') (byte '0') (byte (hexChar (n / 16))) (byte (hexChar (n % 16))) = some n := by
  decide

/-- a written character is read as its octets -/
theorem scanString_escape (c : Char) (rest : Bytes) :
    scanString (Bytes.ofChars (escape c) ++ rest)
      = prepend (String.utf8EncodeChar c) (scanString rest) := by
  unfold escape
  by_cases h1 : c = '"'
  · subst h1; exact scanString_letter (byte '"') (byte '"') rest (by decide) (by decide)
  by_cases h2 : c = '\\'
  · subst h2; exact scanString_letter (byte '\\') (byte '\\') rest (by decide) (by decide)
  by_cases h3 : c = '\n'
  · subst h3; exact scanString_letter (byte 'n') 0x0A rest (by decide) (by decide)
  by_cases h4 : c = '\r'
  · subst h4; exact scanString_letter (byte 'r') 0x0D rest (by decide) (by decide)
  by_cases h5 : c = '\t'
  · subst h5; exact scanString_letter (byte 't') 0x09 rest (by decide) (by decide)
  by_cases h6 : c = '\x08'
  · subst h6; exact scanString_letter (byte 'b') 0x08 rest (by decide) (by decide)
  by_cases h7 : c = '\x0c'
  · subst h7; exact scanString_letter (byte 'f') 0x0C rest (by decide) (by decide)
  rw [if_neg h1, if_neg h2, if_neg h3, if_neg h4, if_neg h5, if_neg h6, if_neg h7]
  by_cases h8 : c.toNat < 0x20
  · obtain ⟨hchars, hunit⟩ := control_ascii c.toNat h8
    rw [if_pos h8, hchars]
    have hlow : c.toNat < 0xD800 := Nat.lt_trans h8 (by decide)
    refine (scanString_unit _ _ _ _ rest c.toNat hunit (Or.inl hlow)).trans ?_
    rw [octetsOf, Char.ofNat_toNat]
  · rw [if_neg h8, Bytes.ofChars_cons, Bytes.ofChars_nil, List.append_nil]
    by_cases h9 : c.toNat < 128
    · have hp := plain_ascii c.toNat h9
      rw [Char.ofNat_toNat] at hp
      obtain ⟨hq, hb, hc⟩ := hp ⟨Nat.not_lt.mp h8, h1, h2⟩
      rw [utf8EncodeChar_ascii c h9]
      exact scanString_plain (byte c) rest hq hb hc
    · exact scanString_octets _ rest (le_of_mem_utf8EncodeChar c (Nat.not_lt.mp h9))

/-! ## texts -/

theorem scanString_escaped (cs : List Char) (rest : Bytes) :
    scanString (Bytes.ofChars (cs.flatMap escape) ++ rest)
      = prepend (Bytes.ofChars cs) (scanString rest) := by
  induction cs with
  | nil => exact (prepend_nil (scanString rest)).symm
  | cons c cs ih =>
    rw [List.flatMap_cons, Bytes.ofChars_append, List.append_assoc, scanString_escape, ih,
      prepend_prepend, Bytes.ofChars_cons]

/-- a written text begins with a quotation mark, and the rest is read as the text -/
theorem stringChars_eq (s : String) (rest : Bytes) :
    ∃ body : Bytes, Bytes.ofChars (stringChars s) ++ rest = byte '"' :: body ∧
      readString body = some (s, rest) := by
  refine ⟨Bytes.ofChars (s.toList.flatMap escape) ++ byte '"' :: rest, ?_, ?_⟩
  · rw [stringChars, Bytes.ofChars_cons, Bytes.ofChars_append, List.append_assoc, List.append_assoc]
    rfl
  · have hscan : scanString (Bytes.ofChars (s.toList.flatMap escape) ++ byte '"' :: rest)
        = some (Bytes.ofText s, rest) := by
      rw [scanString_escaped, scanString_quote]
      exact congrArg (fun content => some (content, rest)) (List.append_nil _)
    simp only [readString, hscan, Option.bind_eq_bind, Option.bind_some, Utf8.text?_ofText]

theorem readText_stringChars (s : String) (rest : Bytes) :
    readText (Bytes.ofChars (stringChars s) ++ rest) = some (s, rest) := by
  obtain ⟨body, hbody, hread⟩ := stringChars_eq s rest
  rw [hbody, readText, expect?_cons _ _ isBlank_quote]
  exact hread

theorem readName_stringChars (s : String) (rest : Bytes) :
    readName (Bytes.ofChars (stringChars s) ++ byte ':' :: rest) = some (s, rest) := by
  obtain ⟨body, hbody, hread⟩ := stringChars_eq s (byte ':' :: rest)
  have hcolon := expect?_cons (byte ':') rest (by decide)
  rw [hbody]
  simp only [readName, expect?_cons _ _ isBlank_quote, Option.bind_eq_bind, Option.bind_some, hread,
    hcolon]

end RequestSigning.Json
