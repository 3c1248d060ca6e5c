import RequestSigning.Text.Utf8

/-!
# UTF-8: reading undoes writing

`Bytes.ofText` writes a text as octets and `Utf8.scan` reads octets.  Here the reader is run on
what was written, one character at a time (`scan_encodeChar`); so every text is read back
(`text?_ofText`) and no two texts have the same octets (`ofText_inj`).

An octet below 128 stands for itself and is no part of a longer character, so that a
separator is among the octets of a text exactly if it is in the text (`byte_mem_ofChars`), and
reading ill-formed octets brings in no separator either (`byte_mem_of_mem_decodeLossy`).  A text of
ASCII characters is read from its own octets only (`decodeLossy_eq_iff`).
-/

namespace RequestSigning

/-! ## the octets of a character -/

private theorem toNat_ofNat (n : Nat) (h : n < 256) : (UInt8.ofNat n).toNat = n :=
  UInt8.toNat_ofNat_of_lt' h

theorem toNat_byte (c : Char) (h : c.toNat < 256) : (byte c).toNat = c.toNat :=
  toNat_ofNat c.toNat h

/-- a statement on octets is checked for each of their numbers -/
theorem forall_octet {P : UInt8 → Prop} (h : ∀ n < 256, P (UInt8.ofNat n)) (b : UInt8) : P b := by
  have hb := h b.toNat b.toNat_lt
  rwa [UInt8.ofNat_toNat] at hb

theorem utf8EncodeChar_ascii (c : Char) (h : c.toNat < 128) :
    String.utf8EncodeChar c = [byte c] := by
  have hle : c.val.toNat ≤ 127 := Nat.le_of_lt_succ h
  unfold String.utf8EncodeChar
  simp only [if_pos hle]
  rfl

/-- all octets of a character beyond ASCII are at least 128 -/
theorem le_of_mem_utf8EncodeChar (c : Char) (h : 128 ≤ c.toNat) (b : UInt8)
    (hb : b ∈ String.utf8EncodeChar c) : 128 ≤ b.toNat := by
  have h1 : ¬ c.val.toNat ≤ 127 := Nat.not_le.mpr h
  unfold String.utf8EncodeChar at hb
  simp only [if_neg h1] at hb
  split at hb
  · simp only [List.mem_cons, List.not_mem_nil, or_false] at hb
    rcases hb with rfl | rfl <;> rw [toNat_ofNat _ (by omega)] <;> omega
  · split at hb
    · simp only [List.mem_cons, List.not_mem_nil, or_false] at hb
      rcases hb with rfl | rfl | rfl <;> rw [toNat_ofNat _ (by omega)] <;> omega
    · simp only [List.mem_cons, List.not_mem_nil, or_false] at hb
      rcases hb with rfl | rfl | rfl | rfl <;> rw [toNat_ofNat _ (by omega)] <;> omega

namespace Utf8

/-! ## the steps of the reader -/

theorem lead_one (b : UInt8) (h : b.toNat < 0x80) :
    lead b = ([some (Char.ofNat b.toNat)], none) := by
  simp only [lead, UInt8.lt_iff_toNat_lt, UInt8.reduceToNat]
  rw [if_pos h]

theorem lead_two (b : UInt8) (h1 : 0xC2 ≤ b.toNat) (h2 : b.toNat < 0xE0) :
    lead b = ([], some ⟨b.toNat - 0xC0, 1, 0x80, 0xBF⟩) := by
  simp only [lead, UInt8.lt_iff_toNat_lt, UInt8.reduceToNat]
  rw [if_neg (by omega), if_neg (by omega), if_pos h2]

theorem lead_three (b : UInt8) (h1 : 0xE0 ≤ b.toNat) (h2 : b.toNat < 0xF0) :
    lead b = ([], some ⟨b.toNat - 0xE0, 2, if b = 0xE0 then 0xA0 else 0x80,
      if b = 0xED then 0x9F else 0xBF⟩) := by
  simp only [lead, UInt8.lt_iff_toNat_lt, UInt8.reduceToNat]
  rw [if_neg (by omega), if_neg (by omega), if_neg (by omega), if_pos h2]

theorem lead_four (b : UInt8) (h1 : 0xF0 ≤ b.toNat) (h2 : b.toNat < 0xF5) :
    lead b = ([], some ⟨b.toNat - 0xF0, 3, if b = 0xF0 then 0x90 else 0x80,
      if b = 0xF4 then 0x8F else 0xBF⟩) := by
  simp only [lead, UInt8.lt_iff_toNat_lt, UInt8.reduceToNat]
  rw [if_neg (by omega), if_neg (by omega), if_neg (by omega), if_neg (by omega), if_pos h2]

/-- an octet of a character that owes more than one -/
theorem scan_inner (p : Pending) (b : UInt8) (rest : Bytes) (hl : p.low.toNat ≤ b.toNat)
    (hh : b.toNat ≤ p.high.toNat) (ho : 1 < p.owed) :
    scan (some p) (b :: rest)
      = scan (some ⟨64 * p.value + (b.toNat - 0x80), p.owed - 1, 0x80, 0xBF⟩) rest := by
  have hr : p.low ≤ b ∧ b ≤ p.high := ⟨UInt8.le_iff_toNat_le.mpr hl, UInt8.le_iff_toNat_le.mpr hh⟩
  rw [scan_cons, show step (some p) b = extend p b from rfl, extend, if_pos hr,
    if_neg (Nat.not_le.mpr ho)]
  rfl

theorem scan_last (p : Pending) (b : UInt8) (rest : Bytes) (hl : p.low.toNat ≤ b.toNat)
    (hh : b.toNat ≤ p.high.toNat) (ho : p.owed ≤ 1) :
    scan (some p) (b :: rest)
      = some (Char.ofNat (64 * p.value + (b.toNat - 0x80))) :: scan none rest := by
  have hr : p.low ≤ b ∧ b ≤ p.high := ⟨UInt8.le_iff_toNat_le.mpr hl, UInt8.le_iff_toNat_le.mpr hh⟩
  rw [scan_cons, show step (some p) b = extend p b from rfl, extend, if_pos hr, if_pos ho]
  rfl

/-- the bounds of the second octet depend on the first one -/
private theorem toNat_ite (b x y z : UInt8) (n : Nat) (h1 : b.toNat = x.toNat → y.toNat ≤ n)
    (h2 : b.toNat ≠ x.toNat → z.toNat ≤ n) : (if b = x then y else z).toNat ≤ n := by
  by_cases h : b = x
  · rw [if_pos h]; exact h1 (congrArg UInt8.toNat h)
  · rw [if_neg h]; exact h2 (fun e => h (UInt8.toNat_inj.mp e))

private theorem le_toNat_ite (b x y z : UInt8) (n : Nat) (h1 : b.toNat = x.toNat → n ≤ y.toNat)
    (h2 : b.toNat ≠ x.toNat → n ≤ z.toNat) : n ≤ (if b = x then y else z).toNat := by
  by_cases h : b = x
  · rw [if_pos h]; exact h1 (congrArg UInt8.toNat h)
  · rw [if_neg h]; exact h2 (fun e => h (UInt8.toNat_inj.mp e))

/-! ## one character -/

theorem scan_two (a b : UInt8) (rest : Bytes) (ha : 0xC2 ≤ a.toNat) (ha' : a.toNat < 0xE0)
    (hb : 0x80 ≤ b.toNat) (hb' : b.toNat ≤ 0xBF) :
    scan none (a :: b :: rest)
      = some (Char.ofNat (64 * (a.toNat - 0xC0) + (b.toNat - 0x80))) :: scan none rest := by
  rw [scan_cons, show step none a = lead a from rfl, lead_two a ha ha']
  exact scan_last ⟨a.toNat - 0xC0, 1, 0x80, 0xBF⟩ b rest hb hb' (Nat.le_refl 1)

theorem scan_three (a b c : UInt8) (rest : Bytes) (ha : 0xE0 ≤ a.toNat) (ha' : a.toNat < 0xF0)
    (hb : 0x80 ≤ b.toNat) (hb' : b.toNat ≤ 0xBF) (h0 : a.toNat = 0xE0 → 0xA0 ≤ b.toNat)
    (hD : a.toNat = 0xED → b.toNat ≤ 0x9F) (hc : 0x80 ≤ c.toNat) (hc' : c.toNat ≤ 0xBF) :
    scan none (a :: b :: c :: rest)
      = some (Char.ofNat (64 * (64 * (a.toNat - 0xE0) + (b.toNat - 0x80)) + (c.toNat - 0x80)))
        :: scan none rest := by
  rw [scan_cons, show step none a = lead a from rfl, lead_three a ha ha', List.nil_append,
    scan_inner _ b _ (toNat_ite a 0xE0 0xA0 0x80 _ h0 fun _ => hb)
      (le_toNat_ite a 0xED 0x9F 0xBF _ hD fun _ => hb') (show 1 < 2 by omega)]
  exact scan_last ⟨_, 1, 0x80, 0xBF⟩ c rest hc hc' (Nat.le_refl 1)

theorem scan_four (a b c d : UInt8) (rest : Bytes) (ha : 0xF0 ≤ a.toNat) (ha' : a.toNat < 0xF5)
    (hb : 0x80 ≤ b.toNat) (hb' : b.toNat ≤ 0xBF) (h0 : a.toNat = 0xF0 → 0x90 ≤ b.toNat)
    (h4 : a.toNat = 0xF4 → b.toNat ≤ 0x8F) (hc : 0x80 ≤ c.toNat) (hc' : c.toNat ≤ 0xBF)
    (hd : 0x80 ≤ d.toNat) (hd' : d.toNat ≤ 0xBF) :
    scan none (a :: b :: c :: d :: rest)
      = some (Char.ofNat (64 * (64 * (64 * (a.toNat - 0xF0) + (b.toNat - 0x80)) + (c.toNat - 0x80))
        + (d.toNat - 0x80))) :: scan none rest := by
  rw [scan_cons, show step none a = lead a from rfl, lead_four a ha ha', List.nil_append,
    scan_inner _ b _ (toNat_ite a 0xF0 0x90 0x80 _ h0 fun _ => hb)
      (le_toNat_ite a 0xF4 0x8F 0xBF _ h4 fun _ => hb') (show 1 < 3 by omega)]
  refine (scan_inner ⟨_, 2, 0x80, 0xBF⟩ c (d :: rest) hc hc' (show 1 < 2 by omega)).trans ?_
  exact scan_last ⟨_, 1, 0x80, 0xBF⟩ d rest hd hd' (Nat.le_refl 1)

/-- the octets of a character are read as that character -/
theorem scan_encodeChar (c : Char) (rest : Bytes) :
    scan none (String.utf8EncodeChar c ++ rest) = some c :: scan none rest := by
  have hv : c.toNat < 0xD800 ∨ 0xDFFF < c.toNat ∧ c.toNat < 0x110000 := c.valid
  have hc : c.val.toNat = c.toNat := rfl
  unfold String.utf8EncodeChar
  -- one case for each number of octets; `hv` leaves out the surrogates, as `lead` does
  by_cases h1 : c.val.toNat ≤ 0x7F
  · simp only [if_pos h1, List.cons_append, List.nil_append]
    have hn := toNat_ofNat c.val.toNat (by omega)
    rw [scan_cons, show step none _ = lead _ from rfl, lead_one _ (by omega), hn, hc,
      Char.ofNat_toNat]
    rfl
  by_cases h2 : c.val.toNat ≤ 0x7FF
  · simp only [if_neg h1, if_pos h2, List.cons_append, List.nil_append]
    rw [scan_two]
    · rw [toNat_ofNat _ (by omega), toNat_ofNat _ (by omega)]
      rw [show 64 * (c.val.toNat / 64 % 0x20 + 0xC0 - 0xC0) + (c.val.toNat % 0x40 + 0x80 - 0x80)
        = c.toNat by omega, Char.ofNat_toNat]
    all_goals rw [toNat_ofNat _ (by omega)]; omega
  by_cases h3 : c.val.toNat ≤ 0xFFFF
  · simp only [if_neg h1, if_neg h2, if_pos h3, List.cons_append, List.nil_append]
    rw [scan_three]
    · rw [toNat_ofNat _ (by omega), toNat_ofNat _ (by omega), toNat_ofNat _ (by omega)]
      rw [show 64 * (64 * (c.val.toNat / 4096 % 0x10 + 0xE0 - 0xE0)
          + (c.val.toNat / 64 % 0x40 + 0x80 - 0x80)) + (c.val.toNat % 0x40 + 0x80 - 0x80)
        = c.toNat by omega, Char.ofNat_toNat]
    all_goals simp only [toNat_ofNat _ (show c.val.toNat / 4096 % 0x10 + 0xE0 < 256 by omega),
      toNat_ofNat _ (show c.val.toNat / 64 % 0x40 + 0x80 < 256 by omega),
      toNat_ofNat _ (show c.val.toNat % 0x40 + 0x80 < 256 by omega)]; omega
  · simp only [if_neg h1, if_neg h2, if_neg h3, List.cons_append, List.nil_append]
    rw [scan_four]
    · rw [toNat_ofNat _ (by omega), toNat_ofNat _ (by omega), toNat_ofNat _ (by omega),
        toNat_ofNat _ (by omega)]
      rw [show 64 * (64 * (64 * (c.val.toNat / 262144 % 0x08 + 0xF0 - 0xF0)
          + (c.val.toNat / 4096 % 0x40 + 0x80 - 0x80)) + (c.val.toNat / 64 % 0x40 + 0x80 - 0x80))
          + (c.val.toNat % 0x40 + 0x80 - 0x80) = c.toNat by omega, Char.ofNat_toNat]
    all_goals simp only [toNat_ofNat _ (show c.val.toNat / 262144 % 0x08 + 0xF0 < 256 by omega),
      toNat_ofNat _ (show c.val.toNat / 4096 % 0x40 + 0x80 < 256 by omega),
      toNat_ofNat _ (show c.val.toNat / 64 % 0x40 + 0x80 < 256 by omega),
      toNat_ofNat _ (show c.val.toNat % 0x40 + 0x80 < 256 by omega)]; omega

/-! ## ASCII characters in what was read -/

/-- a pending character beyond ASCII: the least octet that may follow makes its number large
enough -/
structure Long (p : Pending) : Prop where
  next : 2 ≤ 64 * p.value + (p.low.toNat - 0x80)
  last : p.owed ≤ 1 → 2 ≤ p.value

theorem long_tail (value owed : Nat) (h : 2 ≤ value) : Long ⟨value, owed, 0x80, 0xBF⟩ where
  next := by
    show 2 ≤ 64 * value + _
    omega
  last := fun _ => h

/-- the first octet of a longer character that owes more than one octet: if it carries no bits of
the number, the range of the next octet is smaller -/
theorem long_ite (b first second high : UInt8) (value owed : Nat) (howed : 2 ≤ owed)
    (hsecond : 0x82 ≤ second.toNat) (hvalue : b ≠ first → 1 ≤ value) :
    Long ⟨value, owed, if b = first then second else 0x80, high⟩ := by
  by_cases h : b = first
  · rw [if_pos h]
    refine ⟨?_, fun hle => absurd (Nat.le_trans howed hle) (by decide)⟩
    show 2 ≤ 64 * value + (second.toNat - 0x80)
    omega
  · rw [if_neg h]
    refine ⟨?_, fun hle => absurd (Nat.le_trans howed hle) (by decide)⟩
    have hone := hvalue h
    show 2 ≤ 64 * value + _
    omega

theorem long_of_lead {b : UInt8} {p : Pending} (h : (lead b).2 = some p) : Long p := by
  have hne : ∀ first : UInt8, b ≠ first → b.toNat ≠ first.toNat := fun first hb e =>
    hb (UInt8.toNat_inj.mp e)
  simp only [lead, UInt8.lt_iff_toNat_lt, UInt8.reduceToNat] at h
  by_cases h80 : b.toNat < 0x80
  · rw [if_pos h80] at h
    cases h
  rw [if_neg h80] at h
  by_cases hC2 : b.toNat < 0xC2
  · rw [if_pos hC2] at h
    cases h
  rw [if_neg hC2] at h
  by_cases hE0 : b.toNat < 0xE0
  · rw [if_pos hE0] at h
    obtain rfl := Option.some.inj h
    exact long_tail _ 1 (by omega)
  rw [if_neg hE0] at h
  by_cases hF0 : b.toNat < 0xF0
  -- E0 and F0 carry no bits of the number, all others of their length do
  · rw [if_pos hF0] at h
    obtain rfl := Option.some.inj h
    refine long_ite b 0xE0 0xA0 _ _ 2 (Nat.le_refl 2) (by decide) fun hb => ?_
    have hfirst : b.toNat ≠ 0xE0 := hne 0xE0 hb
    omega
  rw [if_neg hF0] at h
  by_cases hF5 : b.toNat < 0xF5
  · rw [if_pos hF5] at h
    obtain rfl := Option.some.inj h
    refine long_ite b 0xF0 0x90 _ _ 3 (by decide) (by decide) fun hb => ?_
    have hfirst : b.toNat ≠ 0xF0 := hne 0xF0 hb
    omega
  rw [if_neg hF5] at h
  cases h

theorem eq_of_mem_lead {b : UInt8} {c : Char} (h : some c ∈ (lead b).1) :
    c = Char.ofNat b.toNat := by
  by_cases h80 : b.toNat < 0x80
  · rw [lead_one b h80, List.mem_singleton] at h
    exact Option.some.inj h
  · simp only [lead, UInt8.lt_iff_toNat_lt, UInt8.reduceToNat, if_neg h80] at h
    -- every other octet adds nothing, or an empty entry
    repeat' split at h
    all_goals simp at h

/-- each octet keeps what is pending beyond ASCII -/
theorem long_of_step {state : Option Pending} (hstate : ∀ p, state = some p → Long p) {b : UInt8}
    {p : Pending} (h : (step state b).2 = some p) : Long p := by
  cases state with
  | none => exact long_of_lead h
  | some q =>
    have hnext := (hstate q rfl).next
    replace h : (extend q b).2 = some p := h
    unfold extend at h
    by_cases hr : q.low ≤ b ∧ b ≤ q.high
    · rw [if_pos hr] at h
      by_cases ho : q.owed ≤ 1
      · simp only [if_pos ho] at h
        cases h
      · simp only [if_neg ho] at h
        obtain rfl := Option.some.inj h
        have hb := UInt8.le_iff_toNat_le.mp hr.1
        exact long_tail _ _ (by omega)
    · rw [if_neg hr] at h
      exact long_of_lead h

theorem toNat_of_ofNat_eq {n : Nat} {c : Char} (hc : c ≠ '\x00') (h : Char.ofNat n = c) :
    c.toNat = n := by
  by_cases hn : n.isValidChar
  · rw [← h, Char.ofNat, dif_pos hn]
    rfl
  · rw [Char.ofNat, dif_neg hn] at h
    exact absurd h.symm hc

theorem byte_of_mem_step {state : Option Pending} (hstate : ∀ p, state = some p → Long p)
    {b : UInt8} {c : Char} (hc : c ≠ '\x00') (hascii : c.toNat < 128)
    (h : some c ∈ (step state b).1) : byte c = b := by
  have hlead : some c ∈ (lead b).1 → byte c = b := by
    intro hm
    apply UInt8.toNat_inj.mp
    rw [toNat_byte c (by omega), toNat_of_ofNat_eq hc (eq_of_mem_lead hm).symm]
  cases state with
  | none => exact hlead h
  | some q =>
    have hlast := (hstate q rfl).last
    replace h : some c ∈ (extend q b).1 := h
    unfold extend at h
    by_cases hr : q.low ≤ b ∧ b ≤ q.high
    · rw [if_pos hr] at h
      by_cases ho : q.owed ≤ 1
      · simp only [if_pos ho, List.mem_singleton] at h
        have hvalue := hlast ho
        have hnat := toNat_of_ofNat_eq hc (Option.some.inj h).symm
        omega
      · simp only [if_neg ho] at h
        exact absurd h List.not_mem_nil
    · rw [if_neg hr] at h
      rcases List.mem_cons.mp h with e | hm
      · cases e
      · exact hlead hm

theorem byte_mem_of_mem_scan {c : Char} (hc : c ≠ '\x00') (hascii : c.toNat < 128)
    {state : Option Pending} (hstate : ∀ p, state = some p → Long p) (b : Bytes)
    (h : some c ∈ scan state b) : byte c ∈ b := by
  induction b generalizing state with
  | nil =>
    cases state with
    | none => exact absurd h List.not_mem_nil
    | some p => cases List.mem_singleton.mp h
  | cons x b ih =>
    rw [scan_cons, List.mem_append] at h
    rcases h with h | h
    · rw [byte_of_mem_step hstate hc hascii h]
      exact List.mem_cons_self
    · exact List.mem_cons_of_mem x (ih (fun _ hp => long_of_step hstate hp) h)

/-- **An ASCII character in a text that was read comes from its octet**, whatever the octets.  NUL
is left out, because it stands for numbers of no character, too. -/
theorem byte_mem_of_mem_decodeLossy {c : Char} (hc : c ≠ '\x00') (hascii : c.toNat < 128)
    (b : Bytes) (h : c ∈ (decodeLossy b).toList) : byte c ∈ b := by
  rw [decodeLossy, String.toList_ofList] at h
  obtain ⟨o, ho, rfl⟩ := List.mem_map.mp h
  cases o with
  | none => exact absurd hascii (by decide)
  | some c => exact byte_mem_of_mem_scan hc hascii (fun _ hp => by cases hp) b ho

/-- what the first octet of a longer character adds: an empty entry, or nothing while the rest is
pending -/
theorem lead_of_le {b : UInt8} (h : 0x80 ≤ b.toNat) :
    lead b = ([none], none) ∨ ∃ p, lead b = ([], some p) := by
  have h80 : ¬ b.toNat < 0x80 := Nat.not_lt.mpr h
  simp only [lead, UInt8.lt_iff_toNat_lt, UInt8.reduceToNat, if_neg h80]
  repeat' split
  all_goals simp

/-- a pending character comes to an entry that is empty, beyond ASCII or NUL -/
theorem exists_scan_pending {p : Pending} (hp : Long p) (b : Bytes) :
    ∃ o rest, scan (some p) b = o :: rest ∧ ∀ c, o = some c → c ≠ '\x00' → 128 ≤ c.toNat := by
  induction b generalizing p with
  | nil => exact ⟨none, [], rfl, fun c h => by cases h⟩
  | cons x b ih =>
    have hnext := hp.next
    rw [scan_cons, show step (some p) x = extend p x from rfl]
    unfold extend
    by_cases hr : p.low ≤ x ∧ x ≤ p.high
    · have hx := UInt8.le_iff_toNat_le.mp hr.1
      rw [if_pos hr]
      by_cases ho : p.owed ≤ 1
      · have hlast := hp.last ho
        simp only [if_pos ho]
        refine ⟨_, _, rfl, fun c h hc => ?_⟩
        rw [toNat_of_ofNat_eq hc (Option.some.inj h)]
        omega
      · simp only [if_neg ho]
        exact ih (long_tail _ _ (by omega))
    · rw [if_neg hr]
      exact ⟨none, _, rfl, fun c h => by cases h⟩

theorem eq_map_byte_of_scan {cs : List Char} (hcs : ∀ c ∈ cs, c ≠ '\x00' ∧ c.toNat < 128)
    {b : Bytes} (h : scan none b = cs.map some) : b = cs.map byte := by
  induction b generalizing cs with
  | nil =>
    obtain rfl := List.map_eq_nil_iff.mp h.symm
    rfl
  | cons x b ih =>
    rw [scan_cons, show step none x = lead x from rfl] at h
    by_cases hx : x.toNat < 0x80
    · rw [lead_one x hx] at h
      cases cs with
      | nil => cases h
      | cons c cs =>
        obtain ⟨hc, hrest⟩ := List.cons.inj h
        obtain ⟨hne, hascii⟩ := hcs c List.mem_cons_self
        have hbyte : byte c = x := by
          apply UInt8.toNat_inj.mp
          rw [toNat_byte c (by omega), toNat_of_ofNat_eq hne (Option.some.inj hc)]
        rw [List.map_cons, hbyte, ih (fun d hd => hcs d (List.mem_cons_of_mem c hd)) hrest]
    -- a longer character does not begin with the entry of an ASCII character
    · have hlead : ∃ o rest, (lead x).1 ++ scan (lead x).2 b = o :: rest ∧
          ∀ c, o = some c → c ≠ '\x00' → 128 ≤ c.toNat := by
        rcases lead_of_le (Nat.not_lt.mp hx) with he | ⟨p, hp⟩
        · rw [he]
          exact ⟨none, _, rfl, fun c h => by cases h⟩
        · rw [hp]
          exact exists_scan_pending (long_of_lead (congrArg Prod.snd hp)) b
      obtain ⟨o, rest, ho, hfar⟩ := hlead
      rw [ho] at h
      cases cs with
      | nil => cases h
      | cons c cs =>
        obtain ⟨hne, hascii⟩ := hcs c List.mem_cons_self
        exact absurd (hfar c (List.cons.inj h).1 hne) (Nat.not_le.mpr hascii)

/-! ## texts -/

theorem scan_ofChars_append (cs : List Char) (rest : Bytes) :
    scan none (Bytes.ofChars cs ++ rest) = cs.map some ++ scan none rest := by
  induction cs with
  | nil => rfl
  | cons c cs ih =>
    rw [Bytes.ofChars_cons, List.append_assoc, scan_encodeChar, ih, List.map_cons, List.cons_append]

theorem scan_ofChars (cs : List Char) : scan none (Bytes.ofChars cs) = cs.map some := by
  have h := scan_ofChars_append cs []
  rwa [List.append_nil, scan_nil, List.append_nil] at h

theorem decode?_ofChars (cs : List Char) : decode? (Bytes.ofChars cs) = some cs := by
  rw [decode?, scan_ofChars]
  induction cs with
  | nil => rfl
  | cons c cs ih => rw [List.map_cons, List.mapM_cons, ih]; rfl

theorem decodeLossy_ofText (s : String) : decodeLossy (Bytes.ofText s) = s := by
  rw [decodeLossy, Bytes.ofText, scan_ofChars, List.map_map]
  exact (congrArg String.ofList (List.map_id s.toList)).trans String.ofList_toList

/-- what follows a text has no influence on how the text is read -/
theorem toList_decodeLossy_append (s : String) (rest : Bytes) :
    (decodeLossy (Bytes.ofText s ++ rest)).toList = s.toList ++ (decodeLossy rest).toList := by
  rw [decodeLossy, decodeLossy, String.toList_ofList, String.toList_ofList, Bytes.ofText,
    scan_ofChars_append, List.map_append, List.map_map]
  exact congrArg (· ++ _) (List.map_id s.toList)

/-- a text is read back from its octets -/
theorem text?_ofText (s : String) : text? (Bytes.ofText s) = some s := by
  rw [text?, Bytes.ofText, decode?_ofChars, Option.map_some, String.ofList_toList]

end Utf8

namespace Bytes

theorem ofChars_inj {a b : List Char} (h : ofChars a = ofChars b) : a = b := by
  have e := congrArg Utf8.decode? h
  rw [Utf8.decode?_ofChars, Utf8.decode?_ofChars] at e
  exact Option.some.inj e

theorem ofText_inj {a b : String} (h : ofText a = ofText b) : a = b :=
  String.toList_inj.mp (ofChars_inj h)

theorem ofText_append (a b : String) : ofText (a ++ b) = ofText a ++ ofText b := by
  rw [ofText, String.toList_append, ofChars_append]; rfl

theorem ofText_ofList (cs : List Char) : ofText (String.ofList cs) = ofChars cs := by
  rw [ofText, String.toList_ofList]

/-! ## ASCII -/

theorem ofChars_ascii (cs : List Char) (h : ∀ c ∈ cs, c.toNat < 128) :
    ofChars cs = cs.map byte := by
  induction cs with
  | nil => rfl
  | cons c cs ih =>
    rw [ofChars_cons, utf8EncodeChar_ascii c (h c List.mem_cons_self),
      ih (fun d hd => h d (List.mem_cons_of_mem c hd)), List.map_cons]
    rfl

/-- octets below 128 are those of the characters with their numbers -/
theorem ofChars_map_ofNat (b : Bytes) (h : ∀ x ∈ b, x.toNat < 128) :
    ofChars (b.map fun x => Char.ofNat x.toNat) = b := by
  induction b with
  | nil => rfl
  | cons x b ih =>
    have hx := h x List.mem_cons_self
    have hascii : ∀ n < 128, (Char.ofNat n).toNat = n := by decide
    have hnat := hascii x.toNat hx
    have hbyte : byte (Char.ofNat x.toNat) = x := by
      rw [byte, hnat]
      exact UInt8.ofNat_toNat
    rw [List.map_cons, ofChars_cons, utf8EncodeChar_ascii _ (by rw [hnat]; exact hx), hbyte,
      ih fun y hy => h y (List.mem_cons_of_mem x hy)]
    rfl

/-- an ASCII character is among the octets of a text exactly if it is in the text -/
theorem byte_mem_ofChars (c : Char) (hc : c.toNat < 128) (cs : List Char) :
    byte c ∈ ofChars cs ↔ c ∈ cs := by
  induction cs with
  | nil => exact iff_of_false List.not_mem_nil List.not_mem_nil
  | cons d cs ih =>
    rw [ofChars_cons, List.mem_append, List.mem_cons, ih]
    refine or_congr_left ⟨fun h => ?_, fun h => ?_⟩
    · by_cases hd : d.toNat < 128
      · rw [utf8EncodeChar_ascii d hd, List.mem_singleton] at h
        have e : c.toNat = d.toNat := by
          rw [← toNat_byte c (by omega), ← toNat_byte d (by omega), h]
        exact Char.toNat_inj.mp e
      · have hb := le_of_mem_utf8EncodeChar d (Nat.not_lt.mp hd) _ h
        rw [toNat_byte c (by omega)] at hb
        omega
    · rw [← h, utf8EncodeChar_ascii c hc]
      exact List.mem_singleton.mpr rfl

end Bytes

/-- **A text of ASCII characters is read from its own octets only**, NUL aside. -/
theorem Utf8.decodeLossy_eq_iff {s : String} (hs : ∀ c ∈ s.toList, c ≠ '\x00' ∧ c.toNat < 128)
    (b : Bytes) : decodeLossy b = s ↔ b = Bytes.ofText s := by
  constructor
  · intro h
    have hlist := congrArg String.toList h
    rw [decodeLossy, String.toList_ofList] at hlist
    have hscan : scan none b = s.toList.map some := by
      rw [← hlist, List.map_map]
      refine ((List.map_congr_left fun o ho => ?_).trans (List.map_id _)).symm
      cases o with
      | some c => rfl
      | none =>
        -- an empty entry would be read as a character beyond ASCII
        have hm : '\uFFFD' ∈ s.toList := hlist ▸ List.mem_map_of_mem ho
        exact absurd (hs _ hm).2 (by decide)
    rw [eq_map_byte_of_scan hs hscan, Bytes.ofText,
      Bytes.ofChars_ascii _ fun c hc => (hs c hc).2]
  · rintro rfl
    exact decodeLossy_ofText s

end RequestSigning
