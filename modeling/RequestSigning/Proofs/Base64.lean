import RequestSigning.Base64
import RequestSigning.Proofs.Text.Utf8

/-!
# Base64: reading undoes writing

`decode?_encode` reads back what `encode` writes, so that different octet strings have different
texts (`encode_inj`).  The texts that are written hold digits of the `url` alphabet only
(`isUrlDigit_of_mem_encode`), and the texts that are read hold digits of either alphabet and
padding (`readable_of_decode?`); a point is in none of them.
-/

namespace RequestSigning.Base64

/-! ## digits -/

theorem encodeDigits_lt (b : Bytes) : ∀ d ∈ encodeDigits b, d < 64 := by
  fun_induction encodeDigits b with
  | case1 a b c rest ih =>
    have ha := a.toNat_lt; have hb := b.toNat_lt; have hc := c.toNat_lt
    intro d hd
    simp only [List.mem_cons] at hd
    rcases hd with rfl | rfl | rfl | rfl | hd
    · omega
    · omega
    · omega
    · omega
    · exact ih d hd
  | case2 a b =>
    have ha := a.toNat_lt; have hb := b.toNat_lt
    intro d hd
    simp only [List.mem_cons, List.not_mem_nil, or_false] at hd
    rcases hd with rfl | rfl | rfl <;> omega
  | case3 a =>
    have ha := a.toNat_lt
    intro d hd
    simp only [List.mem_cons, List.not_mem_nil, or_false] at hd
    rcases hd with rfl | rfl <;> omega
  | case4 => exact fun d hd => absurd hd List.not_mem_nil

/-- a character that stands for a digit of the `url` alphabet -/
def IsUrlDigit (c : Char) : Prop := ∃ d < 64, url.char d = c

theorem isUrlDigit_of_mem_encode (b : Bytes) (c : Char) (h : c ∈ (encode b).toList) :
    IsUrlDigit c := by
  rw [encode, String.toList_ofList] at h
  obtain ⟨d, hd, rfl⟩ := List.mem_map.mp h
  exact ⟨d, encodeDigits_lt b d hd, rfl⟩

theorem url_char_lt : ∀ d < 64, (url.char d).toNat < 128 := by decide
theorem url_char_ne_point : ∀ d < 64, url.char d ≠ '.' := by decide
theorem toUrl_char : ∀ d < 64, toUrl (byte (url.char d)) = byte (url.char d) := by decide
theorem byte_char_ne_pad : ∀ d < 64, byte (url.char d) ≠ pad := by decide
theorem url_digit?_char : ∀ d < 64, url.digit? (byte (url.char d)) = some d := by decide

theorem IsUrlDigit.ne_point {c : Char} (h : IsUrlDigit c) : c ≠ '.' := by
  obtain ⟨d, hd, rfl⟩ := h
  exact url_char_ne_point d hd

theorem point_not_mem_encode (b : Bytes) : '.' ∉ (encode b).toList := fun h =>
  (isUrlDigit_of_mem_encode b '.' h).ne_point rfl

theorem ofText_encode (b : Bytes) :
    Bytes.ofText (encode b) = (encodeDigits b).map fun d => byte (url.char d) := by
  have hascii : ∀ c ∈ (encodeDigits b).map url.char, c.toNat < 128 := by
    intro c hc
    obtain ⟨d, hd, rfl⟩ := List.mem_map.mp hc
    exact url_char_lt d (encodeDigits_lt b d hd)
  rw [encode, Bytes.ofText_ofList, Bytes.ofChars_ascii _ hascii, List.map_map]
  rfl

/-! ## padding -/

theorem dropPadding_eq (s : Bytes) : dropPadding s =
    if (splitPadding s).2 = 0 ∨ ((splitPadding s).2 ≤ 2 ∧ s.length % 4 = 0)
    then some (splitPadding s).1 else none := rfl

theorem dropPadding_of_not_mem (s : Bytes) (h : pad ∉ s) : dropPadding s = some s := by
  have hrev : s.reverse.dropWhile (· = pad) = s.reverse := by
    cases hs : s.reverse with
    | nil => rfl
    | cons b rest =>
      have hb : b ∈ s := List.mem_reverse.mp (hs ▸ List.mem_cons_self)
      exact List.dropWhile_cons_of_neg fun e => h (of_decide_eq_true e ▸ hb)
  have hbody : splitPadding s = (s, 0) := by
    simp only [splitPadding, hrev, List.reverse_reverse, Nat.sub_self]
  rw [dropPadding_eq, hbody, if_pos (Or.inl rfl)]

/-- padding is all that is dropped -/
theorem eq_append_of_dropPadding (s body : Bytes) (h : dropPadding s = some body) :
    ∃ padding : Bytes, (∀ b ∈ padding, b = pad) ∧ s = body ++ padding := by
  refine ⟨(s.reverse.takeWhile (· = pad)).reverse, ?_, ?_⟩
  · intro b hb
    have hp := List.all_eq_true.mp (List.all_takeWhile (p := fun b => decide (b = pad))
      (l := s.reverse)) b (List.mem_reverse.mp hb)
    exact of_decide_eq_true hp
  · have hbody : (s.reverse.dropWhile (· = pad)).reverse = body := by
      rw [dropPadding_eq] at h
      split at h
      · exact Option.some.inj h
      · cases h
    rw [← hbody, ← List.reverse_append, List.takeWhile_append_dropWhile, List.reverse_reverse]

/-! ## round trip -/

theorem mapM_digit? {a : Alphabet} (ha : ∀ d < 64, a.digit? (byte (a.char d)) = some d)
    (digits : List Nat) (h : ∀ d ∈ digits, d < 64) :
    (digits.map fun d => byte (a.char d)).mapM a.digit? = some digits := by
  induction digits with
  | nil => rfl
  | cons d digits ih =>
    rw [List.map_cons, List.mapM_cons, ha d (h d List.mem_cons_self),
      ih fun e he => h e (List.mem_cons_of_mem d he)]
    rfl

/-- **A written octet string is read back.** -/
theorem decode?_encode (b : Bytes) : decode? (Bytes.ofText (encode b)) = some b := by
  have hlt := encodeDigits_lt b
  have hpad : pad ∉ (encodeDigits b).map fun d => byte (url.char d) := by
    intro hm
    obtain ⟨d, hd, e⟩ := List.mem_map.mp hm
    exact byte_char_ne_pad d (hlt d hd) e
  have hurl : ((encodeDigits b).map fun d => byte (url.char d)).map toUrl
      = (encodeDigits b).map fun d => byte (url.char d) := by
    rw [List.map_map]
    exact List.map_congr_left fun d hd => toUrl_char d (hlt d hd)
  rw [ofText_encode, decode?, dropPadding_of_not_mem _ hpad, Option.bind_some, hurl,
    Alphabet.decode?, mapM_digit? url_digit?_char _ hlt, Option.bind_some, decodeDigits_encodeDigits]

theorem encode_inj {a b : Bytes} (h : encode a = encode b) : a = b := by
  have e := decode?_encode a
  rw [h, decode?_encode] at e
  exact (Option.some.inj e).symm

/-! ## texts that are read -/

/-- an octet that may stand in a text to be read -/
def Readable (b : UInt8) : Prop := b = pad ∨ (url.digit? (toUrl b)).isSome = true

instance (b : UInt8) : Decidable (Readable b) := inferInstanceAs (Decidable (_ ∨ _))

theorem isSome_of_mapM (s : Bytes) (digits : List Nat) (h : s.mapM url.digit? = some digits) :
    ∀ b ∈ s, (url.digit? b).isSome = true := by
  induction s generalizing digits with
  | nil => exact fun b hb => absurd hb List.not_mem_nil
  | cons a s ih =>
    rw [List.mapM_cons] at h
    obtain ⟨d, hd, h⟩ := Option.bind_eq_some_iff.mp h
    obtain ⟨ds, hds, -⟩ := Option.bind_eq_some_iff.mp h
    intro b hb
    rcases List.mem_cons.mp hb with rfl | hb
    · rw [hd]; rfl
    · exact ih ds hds b hb

theorem readable_of_decode? (s b : Bytes) (h : decode? s = some b) : ∀ x ∈ s, Readable x := by
  obtain ⟨body, hbody, h⟩ := Option.bind_eq_some_iff.mp h
  obtain ⟨digits, hdigits, -⟩ := Option.bind_eq_some_iff.mp h
  obtain ⟨padding, hpadding, rfl⟩ := eq_append_of_dropPadding s body hbody
  intro x hx
  rcases List.mem_append.mp hx with hx | hx
  · exact Or.inr (isSome_of_mapM _ digits hdigits (toUrl x) (List.mem_map_of_mem hx))
  · exact Or.inl (hpadding x hx)

theorem point_not_mem_of_decode? (text : String) (b : Bytes)
    (h : decode? (Bytes.ofText text) = some b) : '.' ∉ text.toList := by
  intro hm
  have hbyte := (Bytes.byte_mem_ofChars '.' (by decide) text.toList).mpr hm
  exact absurd (readable_of_decode? _ b h _ hbyte) (by decide)

end RequestSigning.Base64
