import RequestSigning.Proofs.Base64

/-!
# Base64: which texts are read

* `Spells`  a text spells an octet string if it is what `encode` writes for it, with `+` and `/` in
            place of any `-` and `_`, and with the padding of its last group or without;
* `Flaw`    what is wrong with a text that spells nothing: padding where there is none, a sign of
            neither alphabet, or a last group that no octets have (`BrokenEnd`).

A text is read exactly if it spells an octet string, which is then the result, and refused exactly
if it has a flaw (`decode?_iff_spells`).  Of the padded form only what is written is said to be read
(`decodePadded?_encodePadded`).
-/

namespace RequestSigning.Base64

/-! ## digits -/

/-- digits whose last group is a single one, or has a bit that no octet uses -/
def BrokenEnd (digits : List Nat) : Prop :=
  digits.length % 4 = 1 ∨ ∃ d, digits.getLast? = some d ∧
    (digits.length % 4 = 2 ∧ d % 16 ≠ 0 ∨ digits.length % 4 = 3 ∧ d % 4 ≠ 0)

theorem brokenEnd_group (i j k l : Nat) (digits : List Nat) :
    BrokenEnd (i :: j :: k :: l :: digits) ↔ BrokenEnd digits := by
  cases digits with
  | nil => simp [BrokenEnd]
  | cons d digits =>
    have hlength : (i :: j :: k :: l :: d :: digits).length % 4 = (d :: digits).length % 4 := by
      simp only [List.length_cons]
      omega
    simp only [BrokenEnd, hlength, List.getLast?_cons_cons]

theorem decodeDigits_eq_none_iff (digits : List Nat) :
    decodeDigits digits = none ↔ BrokenEnd digits := by
  fun_induction decodeDigits digits with
  | case1 i j k l digits ih => rw [Option.map_eq_none_iff, ih, brokenEnd_group]
  | case2 i j k h => simp [BrokenEnd, h]
  | case3 i j k h => simp [BrokenEnd, h]
  | case4 i j h => simp [BrokenEnd, h]
  | case5 i j h => simp [BrokenEnd, h]
  | case6 i => simp [BrokenEnd]
  | case7 => simp [BrokenEnd]

/-- digits that are read are those that are written -/
theorem encodeDigits_of_decodeDigits {digits : List Nat} (hlt : ∀ d ∈ digits, d < 64) {b : Bytes}
    (h : decodeDigits digits = some b) : encodeDigits b = digits := by
  fun_induction decodeDigits digits generalizing b with
  | case1 i j k l digits ih =>
    simp only [List.forall_mem_cons] at hlt
    obtain ⟨hi, hj, hk, hl, hlt⟩ := hlt
    obtain ⟨rest, hrest, rfl⟩ := Option.map_eq_some_iff.mp h
    simp only [encodeDigits, ih hlt hrest, UInt8.toNat_ofNat', List.cons.injEq, and_true]
    omega
  | case2 i j k hbits =>
    simp only [List.forall_mem_cons] at hlt
    obtain ⟨hi, hj, hk, -⟩ := hlt
    obtain rfl := Option.some.inj h
    simp only [encodeDigits, UInt8.toNat_ofNat', List.cons.injEq, and_true]
    omega
  | case3 i j k hbits => cases h
  | case4 i j hbits =>
    simp only [List.forall_mem_cons] at hlt
    obtain ⟨hi, hj, -⟩ := hlt
    obtain rfl := Option.some.inj h
    simp only [encodeDigits, UInt8.toNat_ofNat', List.cons.injEq, and_true]
    omega
  | case5 i j hbits => cases h
  | case6 i => cases h
  | case7 =>
    obtain rfl := Option.some.inj h
    rfl

/-! ## signs -/

/-- the digit that an octet stands for in either alphabet -/
def digit? (b : UInt8) : Option Nat := url.digit? (toUrl b)

theorem eq_byte_char {b : UInt8} {d : Nat} (h : url.digit? b = some d) :
    d < 64 ∧ b = byte (url.char d) := by
  -- there are 256 octets, and the kernel goes through them
  have hall : ∀ b, ∀ d ∈ url.digit? b, d < 64 ∧ b = byte (url.char d) :=
    forall_octet (by decide +kernel)
  exact hall b d h

theorem map_digit?_eq_iff (text : Bytes) (digits : List Nat) :
    text.map digit? = digits.map some ↔
      (∀ d ∈ digits, d < 64) ∧ text.map toUrl = digits.map fun d => byte (url.char d) := by
  induction text generalizing digits with
  | nil => cases digits <;> simp
  | cons b text ih =>
    cases digits with
    | nil => simp
    | cons d digits =>
      simp only [List.map_cons, List.cons.injEq, ih, List.forall_mem_cons]
      constructor
      · rintro ⟨hd, hlt, htext⟩
        obtain ⟨hd64, hb⟩ := eq_byte_char hd
        exact ⟨⟨hd64, hlt⟩, hb, htext⟩
      · rintro ⟨⟨hd64, hlt⟩, hb, htext⟩
        refine ⟨?_, hlt, htext⟩
        rw [digit?, hb, url_digit?_char d hd64]

theorem mapM_digit?_eq_some_iff (text : Bytes) (digits : List Nat) :
    (text.map toUrl).mapM url.digit? = some digits ↔ text.map digit? = digits.map some := by
  induction text generalizing digits with
  | nil => cases digits <;> simp
  | cons b text ih =>
    rw [List.map_cons, List.mapM_cons, List.map_cons, Option.bind_eq_bind,
      Option.bind_eq_some_iff]
    constructor
    · rintro ⟨d, hd, h⟩
      obtain ⟨rest, hrest, h⟩ := Option.bind_eq_some_iff.mp h
      obtain rfl := Option.some.inj h
      rw [List.map_cons, ← (ih rest).mp hrest, ← hd]
      rfl
    · intro h
      cases digits with
      | nil => cases h
      | cons d rest =>
        obtain ⟨hd, hrest⟩ := List.cons.inj h
        exact ⟨d, hd, Option.bind_eq_some_iff.mpr ⟨rest, (ih rest).mpr hrest, rfl⟩⟩

/-- digits of either alphabet stand for octets exactly if they are the digits of these octets -/
theorem url_decode?_eq_some_iff (text b : Bytes) :
    url.decode? (text.map toUrl) = some b ↔ text.map toUrl = Bytes.ofText (encode b) := by
  rw [Alphabet.decode?, Option.bind_eq_some_iff, ofText_encode]
  constructor
  · rintro ⟨digits, hdigits, hb⟩
    obtain ⟨hlt, htext⟩ :=
      (map_digit?_eq_iff text digits).mp ((mapM_digit?_eq_some_iff text digits).mp hdigits)
    rw [htext, encodeDigits_of_decodeDigits hlt hb]
  · intro h
    refine ⟨encodeDigits b, ?_, decodeDigits_encodeDigits b⟩
    rw [h]
    exact mapM_digit? url_digit?_char _ (encodeDigits_lt b)

/-! ## padding -/

/-- padding of a text: none, or the one or two signs that make its length a multiple of four -/
def Fills (text : Bytes) (n : Nat) : Prop :=
  n = 0 ∨ ((n = 1 ∨ n = 2) ∧ (text.length + n) % 4 = 0)

instance (text : Bytes) (n : Nat) : Decidable (Fills text n) := inferInstanceAs (Decidable (_ ∨ _))

theorem splitPadding_append {text : Bytes} (h : text.getLast? ≠ some pad) (n : Nat) :
    splitPadding (text ++ List.replicate n pad) = (text, n) := by
  have hstop : text.reverse.dropWhile (· = pad) = text.reverse := by
    cases htext : text.reverse with
    | nil => rfl
    | cons b rest =>
      refine List.dropWhile_cons_of_neg fun hb => h ?_
      rw [← List.head?_reverse, htext, of_decide_eq_true hb]
      rfl
  have hbody : ((text ++ List.replicate n pad).reverse.dropWhile (· = pad)).reverse = text := by
    rw [List.reverse_append, List.reverse_replicate, List.dropWhile_append_of_pos (by simp), hstop,
      List.reverse_reverse]
  simp only [splitPadding, hbody, List.length_append, List.length_replicate,
    Nat.add_sub_cancel_left]

theorem dropPadding_append {text : Bytes} (h : text.getLast? ≠ some pad) (n : Nat) :
    dropPadding (text ++ List.replicate n pad) = if Fills text n then some text else none := by
  have hfill : (n = 0 ∨ n ≤ 2 ∧ (text.length + n) % 4 = 0) ↔ Fills text n := by
    unfold Fills
    omega
  simp only [dropPadding_eq, splitPadding_append h, List.length_append, List.length_replicate,
    hfill]

theorem decode?_append {text : Bytes} (h : text.getLast? ≠ some pad) (n : Nat) :
    decode? (text ++ List.replicate n pad)
      = if Fills text n then url.decode? (text.map toUrl) else none := by
  rw [decode?, dropPadding_append h]
  by_cases hfill : Fills text n
  · rw [if_pos hfill, if_pos hfill, Option.bind_some]
  · rw [if_neg hfill, if_neg hfill, Option.bind_none]

/-- a text ends with all its last padding signs, however many -/
theorem exists_append_padding (s : Bytes) :
    ∃ text n, s = text ++ List.replicate n pad ∧ text.getLast? ≠ some pad := by
  have hsplit := List.takeWhile_append_dropWhile (p := fun b => decide (b = pad)) (l := s.reverse)
  have hpads : ∀ b ∈ s.reverse.takeWhile (· = pad), b = pad := fun b hb =>
    of_decide_eq_true (List.all_eq_true.mp List.all_takeWhile b hb)
  refine ⟨(s.reverse.dropWhile (· = pad)).reverse, (s.reverse.takeWhile (· = pad)).length, ?_, ?_⟩
  · rw [List.eq_replicate_of_mem hpads] at hsplit
    have hs := congrArg List.reverse hsplit
    rw [List.reverse_append, List.reverse_replicate, List.reverse_reverse] at hs
    exact hs.symm
  · intro h
    rw [List.getLast?_reverse] at h
    have hnot := List.head?_dropWhile_not (fun b => decide (b = pad)) s.reverse
    rw [h] at hnot
    simp at hnot

/-! ## the padded form -/

theorem standard_digit?_char : ∀ d < 64, standard.digit? (byte (standard.char d)) = some d := by
  decide

theorem standard_char_ne_pad : ∀ d < 64, byte (standard.char d) ≠ pad := by decide

theorem length_encodeDigits_mod (b : Bytes) : (encodeDigits b).length % 4 ≠ 1 := by
  fun_induction encodeDigits b with
  | case1 a b c rest ih =>
    simp only [List.length_cons]
    omega
  | case2 | case3 | case4 => simp only [List.length_cons, List.length_nil]; decide

theorem eq_or_of_mem_encodePadded {b : Bytes} {x : UInt8} (h : x ∈ encodePadded b) :
    x = pad ∨ ∃ d < 64, byte (standard.char d) = x := by
  rcases List.mem_append.mp h with h | h
  · obtain ⟨d, hd, rfl⟩ := List.mem_map.mp h
    exact Or.inr ⟨d, encodeDigits_lt b d hd, rfl⟩
  · exact Or.inl (List.eq_of_mem_replicate h)

theorem encodePadded_ne_nil {b : Bytes} (h : b ≠ []) : encodePadded b ≠ [] := by
  intro hnil
  have hdigits := List.map_eq_nil_iff.mp (List.append_eq_nil_iff.mp hnil).1
  have hb := decodeDigits_encodeDigits b
  rw [hdigits] at hb
  exact h (Option.some.inj hb).symm

/-- **A written octet string is read back in the padded form, too.** -/
theorem decodePadded?_encodePadded (b : Bytes) : decodePadded? (encodePadded b) = some b := by
  have hmod := length_encodeDigits_mod b
  have hlast : ((encodeDigits b).map fun d => byte (standard.char d)).getLast? ≠ some pad := by
    intro h
    obtain ⟨d, hd, he⟩ := List.mem_map.mp (List.mem_of_getLast? h)
    exact standard_char_ne_pad d (encodeDigits_lt b d hd) he
  have hlength : (encodePadded b).length % 4 = 0 := by
    simp only [encodePadded, List.length_append, List.length_map, List.length_replicate]
    omega
  have hfills : Fills ((encodeDigits b).map fun d => byte (standard.char d))
      ((4 - (encodeDigits b).length % 4) % 4) := by
    simp only [Fills, List.length_map]
    omega
  rw [decodePadded?, if_pos hlength, encodePadded]
  simp only [List.length_map]
  rw [dropPadding_append hlast, if_pos hfills, Option.bind_some, Alphabet.decode?,
    mapM_digit? standard_digit?_char _ (encodeDigits_lt b), Option.bind_some,
    decodeDigits_encodeDigits]

/-! ## texts that are read -/

/-- a text for an octet string: what is written for it, but that any `-` may be `+` and any `_` may
be `/`, and that it may be padded -/
def Spells (s b : Bytes) : Prop :=
  ∃ text n, s = text ++ List.replicate n pad ∧ text.map toUrl = Bytes.ofText (encode b) ∧
    Fills text n

theorem pad_not_mem_of_map_toUrl {text b : Bytes} (h : text.map toUrl = Bytes.ofText (encode b)) :
    pad ∉ text := by
  intro hmem
  have hpad : toUrl pad ∈ Bytes.ofText (encode b) := h ▸ List.mem_map_of_mem hmem
  rw [ofText_encode] at hpad
  obtain ⟨d, hd, he⟩ := List.mem_map.mp hpad
  exact byte_char_ne_pad d (encodeDigits_lt b d hd) he

theorem getLast?_ne_of_not_mem {text : Bytes} (h : pad ∉ text) : text.getLast? ≠ some pad :=
  fun hlast => h (List.mem_of_getLast? hlast)

theorem decode?_eq_some_iff (s b : Bytes) : decode? s = some b ↔ Spells s b := by
  constructor
  · intro h
    obtain ⟨text, n, rfl, hlast⟩ := exists_append_padding s
    rw [decode?_append hlast] at h
    by_cases hfill : Fills text n
    · rw [if_pos hfill] at h
      exact ⟨text, n, rfl, (url_decode?_eq_some_iff text b).mp h, hfill⟩
    · rw [if_neg hfill] at h
      cases h
  · rintro ⟨text, n, rfl, htext, hfill⟩
    rw [decode?_append (getLast?_ne_of_not_mem (pad_not_mem_of_map_toUrl htext)), if_pos hfill]
    exact (url_decode?_eq_some_iff text b).mpr htext

/-! ## texts that are refused -/

/-- a digit of one of the two alphabets, or the sign for padding -/
def IsSign (b : UInt8) : Prop :=
  byte 'A' ≤ b ∧ b ≤ byte 'Z' ∨ byte 'a' ≤ b ∧ b ≤ byte 'z' ∨ byte '0' ≤ b ∧ b ≤ byte '9' ∨
    b ∈ [byte '-', byte '_', byte '+', byte '/', byte '=']

instance (b : UInt8) : Decidable (IsSign b) := inferInstanceAs (Decidable (_ ∨ _))

/-- what is wrong with a text -/
inductive Flaw : Bytes → Prop
  /-- a padding sign before another one -/
  | misplaced (front rest : Bytes) (b : UInt8) (hmem : b ∈ rest) (hne : b ≠ pad) :
      Flaw (front ++ pad :: rest)
  /-- too many padding signs, or too few, for the text before them -/
  | surplus (text : Bytes) (n : Nat) (hpad : pad ∉ text) (h : ¬ Fills text n) :
      Flaw (text ++ List.replicate n pad)
  /-- an octet that is no sign at all -/
  | foreign (s : Bytes) (b : UInt8) (hmem : b ∈ s) (h : ¬ IsSign b) : Flaw s
  /-- a last group of one digit, or with unused bits that are set -/
  | ending (text : Bytes) (n : Nat) (digits : List Nat)
      (hdigits : text.map digit? = digits.map some) (h : BrokenEnd digits) :
      Flaw (text ++ List.replicate n pad)

theorem isSign_iff (b : UInt8) : IsSign b ↔ b = pad ∨ (digit? b).isSome := by
  have hall : ∀ b, IsSign b ↔ b = pad ∨ (digit? b).isSome := forall_octet (by decide +kernel)
  exact hall b

theorem exists_digits {text : Bytes} (h : ∀ b ∈ text, (digit? b).isSome) :
    ∃ digits : List Nat, text.map digit? = digits.map some := by
  induction text with
  | nil => exact ⟨[], rfl⟩
  | cons b text ih =>
    obtain ⟨d, hd⟩ := Option.isSome_iff_exists.mp (h b List.mem_cons_self)
    obtain ⟨digits, hdigits⟩ := ih fun c hc => h c (List.mem_cons_of_mem b hc)
    exact ⟨d :: digits, by rw [List.map_cons, List.map_cons, hd, hdigits]⟩

theorem url_decode?_of_digits {text : Bytes} {digits : List Nat}
    (h : text.map digit? = digits.map some) :
    url.decode? (text.map toUrl) = decodeDigits digits := by
  rw [Alphabet.decode?, (mapM_digit?_eq_some_iff text digits).mpr h, Option.bind_some]

theorem pad_not_mem_of_digits {text : Bytes} {digits : List Nat}
    (h : text.map digit? = digits.map some) : pad ∉ text := by
  intro hmem
  have hpad : digit? pad ∈ digits.map some := h ▸ List.mem_map_of_mem hmem
  obtain ⟨d, -, hd⟩ := List.mem_map.mp hpad
  rw [show digit? pad = none by decide] at hd
  cases hd

theorem getLast?_append_pad (front : Bytes) (a : UInt8) (rest : Bytes) :
    (front ++ pad :: a :: rest).getLast? = (a :: rest).getLast? := by
  rw [List.getLast?_append, List.getLast?_cons_cons, List.getLast?_cons, Option.some_or]

/-- the text and its last padding signs are determined -/
theorem append_padding_inj {text text' : Bytes} {n n' : Nat} (h : text.getLast? ≠ some pad)
    (h' : text'.getLast? ≠ some pad)
    (he : text ++ List.replicate n pad = text' ++ List.replicate n' pad) :
    text = text' ∧ n = n' := by
  have hsplit := congrArg splitPadding he
  rw [splitPadding_append h, splitPadding_append h'] at hsplit
  exact Prod.mk.inj hsplit

theorem not_flaw_of_spells {s b : Bytes} (hs : Spells s b) : ¬ Flaw s := by
  obtain ⟨text, n, hs, htext, hfill⟩ := hs
  have hpad := pad_not_mem_of_map_toUrl htext
  have hlast := getLast?_ne_of_not_mem hpad
  intro h
  cases h with
  | misplaced front rest c hmem hne =>
    obtain ⟨inner, m, rfl, hinner⟩ := exists_append_padding rest
    -- not all of `rest` is padding, so the padding at the end does not reach to the misplaced sign,
    -- which then is a sign of the text itself
    have hlast' : (front ++ pad :: inner).getLast? ≠ some pad := by
      cases inner with
      | nil =>
        rw [List.nil_append] at hmem
        exact absurd (List.eq_of_mem_replicate hmem) hne
      | cons a inner => rwa [getLast?_append_pad]
    rw [← List.cons_append, ← List.append_assoc] at hs
    obtain ⟨rfl, -⟩ := append_padding_inj hlast' hlast hs
    exact hpad (List.mem_append_right front List.mem_cons_self)
  | surplus text' n' hpad' hfill' =>
    obtain ⟨rfl, rfl⟩ := append_padding_inj (getLast?_ne_of_not_mem hpad') hlast hs
    exact hfill' hfill
  | foreign _ c hmem hforeign =>
    subst hs
    apply hforeign
    rw [isSign_iff]
    have hread := (decode?_eq_some_iff _ b).mpr ⟨text, n, rfl, htext, hfill⟩
    exact readable_of_decode? _ b hread c hmem
  | ending text' n' digits hdigits hend =>
    obtain ⟨rfl, rfl⟩ :=
      append_padding_inj (getLast?_ne_of_not_mem (pad_not_mem_of_digits hdigits)) hlast hs
    have hsome := (url_decode?_eq_some_iff text' b).mpr htext
    rw [url_decode?_of_digits hdigits, (decodeDigits_eq_none_iff digits).mpr hend] at hsome
    cases hsome

theorem flaw_of_decode? {s : Bytes} (h : decode? s = none) : Flaw s := by
  obtain ⟨text, n, rfl, hlast⟩ := exists_append_padding s
  rw [decode?_append hlast] at h
  by_cases hpad : pad ∈ text
  · obtain ⟨front, rest, rfl⟩ := List.append_of_mem hpad
    cases rest with
    | nil => exact absurd List.getLast?_concat hlast
    | cons a rest =>
      rw [getLast?_append_pad] at hlast
      obtain ⟨c, hc⟩ : ∃ c, (a :: rest).getLast? = some c := ⟨_, List.getLast?_cons⟩
      rw [List.append_assoc, List.cons_append]
      refine .misplaced front _ c (List.mem_append_left _ (List.mem_of_getLast? hc)) ?_
      rintro rfl
      exact hlast hc
  by_cases hfill : Fills text n
  · rw [if_pos hfill] at h
    by_cases hall : ∀ b ∈ text, (digit? b).isSome
    · obtain ⟨digits, hdigits⟩ := exists_digits hall
      rw [url_decode?_of_digits hdigits, decodeDigits_eq_none_iff] at h
      exact .ending text n digits hdigits h
    · -- what stands for no digit is foreign, since the text without its end has no padding
      obtain ⟨b, hb⟩ := Classical.not_forall.mp hall
      obtain ⟨hb, hnone⟩ := Classical.not_imp.mp hb
      refine .foreign _ b (List.mem_append_left _ hb) fun hsign => ?_
      rcases (isSign_iff b).mp hsign with rfl | hsome
      · exact hpad hb
      · exact hnone hsome
  · exact .surplus text n hpad hfill

theorem decode?_eq_none_iff (s : Bytes) : decode? s = none ↔ Flaw s := by
  refine ⟨flaw_of_decode?, fun h => ?_⟩
  cases hs : decode? s with
  | none => rfl
  | some b => exact absurd h (not_flaw_of_spells ((decode?_eq_some_iff s b).mp hs))

theorem url_char_not_mem : ∀ d < 64, url.char d ∉ ['.', '=', '+', '/'] := by decide

theorem not_mem_encode (b : Bytes) {c : Char} (hc : c ∈ ['.', '=', '+', '/']) :
    c ∉ (encode b).toList := by
  intro hmem
  obtain ⟨d, hd, rfl⟩ := isUrlDigit_of_mem_encode b c hmem
  exact url_char_not_mem d hd hc

/-- **What is read is what was written, but for two pairs of signs and padding.**  A text is read as
`b` exactly if it spells `b`, and it is refused exactly if it has a flaw.  In particular every octet
string is read back, no two are written alike, and what is written holds no point, no padding and
neither of the two signs of the other alphabet. -/
theorem decode?_iff_spells :
    (∀ s b, decode? s = some b ↔ Spells s b) ∧
      (∀ b, decode? (Bytes.ofText (encode b)) = some b) ∧
      (∀ a b, encode a = encode b ↔ a = b) ∧
      (∀ b, '.' ∉ (encode b).toList ∧ '=' ∉ (encode b).toList ∧ '+' ∉ (encode b).toList ∧
        '/' ∉ (encode b).toList) ∧
      ∀ s, decode? s = none ↔ Flaw s := by
  refine ⟨decode?_eq_some_iff, decode?_encode, ?_, ?_, decode?_eq_none_iff⟩
  · exact fun a b => ⟨encode_inj, fun h => h ▸ rfl⟩
  · intro b
    exact ⟨not_mem_encode b (by decide), not_mem_encode b (by decide), not_mem_encode b (by decide),
      not_mem_encode b (by decide)⟩

end RequestSigning.Base64
