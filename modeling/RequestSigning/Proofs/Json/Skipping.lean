import RequestSigning.Proofs.Json.Trees

/-!
# Skipping JSON texts of any depth

Skipping keeps no value: it goes in rounds, each of which takes a scalar or the opening of an array
or object, and the ends of what is open wait in a list of frames.  A text is `Skipped` if some
rounds, at most as many as it has octets, lead behind it in whatever is open; then the rounds that
`skip` has are enough.  Every text of a tree is skipped (`skipped_of_spells`), also one of which no
value could be read, as with a number out of range or a lone surrogate.

The items of an array and the members of an object are skipped by one argument (`proceed_joined`)
about the parts of a frame (`Frame.Part`): the frame tells what comes before a value
(`Frame.enter`) and what ends them all.
-/

namespace RequestSigning.Json

/-! ## rounds -/

/-- the rounds behind the one that led to a place -/
def proceed (fuel : Nat) : Option Next → Option Bytes
  | some (.value frames rest) => skipFrames fuel frames rest
  | some (.done rest) => some rest
  | none => none

theorem skipFrames_succ (fuel : Nat) (frames : List Frame) (s : Bytes) :
    skipFrames (fuel + 1) frames s = proceed fuel (skipFront frames s) := by
  rw [skipFrames]
  cases skipFront frames s with
  | none => rfl
  | some next => cases next <;> rfl

theorem skipFront_append {blank : Bytes} (h : IsBlanks blank) (frames : List Frame) (rest : Bytes) :
    skipFront frames (blank ++ rest) = skipFront frames rest := by
  rw [skipFront, skipFront, skipBlank_append h]

/-- a text that is passed over in some rounds, at most as many as it has octets -/
def Skipped (text : Bytes) : Prop :=
  ∀ frames blank tail, IsBlanks blank → Follows tail → ∃ n ≤ text.length, ∀ fuel,
    skipFrames (n + fuel) frames (blank ++ (text ++ tail)) = proceed fuel (afterValue frames tail)

/-! ## scalars -/

/-- a scalar is passed over in one round -/
theorem skipped_scalar {b : UInt8} {body : Bytes} (hblank : isBlank b = false)
    (hbracket : b ≠ byte '[') (hbrace : b ≠ byte '\x7b')
    (h : ∀ tail, Follows tail → skipScalar (b :: body ++ tail) = some tail) :
    Skipped (b :: body) := by
  intro frames blank tail hbefore htail
  refine ⟨1, Nat.succ_le_succ (Nat.zero_le _), fun fuel => ?_⟩
  have hscalar := h tail htail
  rw [Nat.add_comm, skipFrames_succ, skipFront_append hbefore, skipFront]
  rw [List.cons_append] at hscalar ⊢
  simp only [skipBlank_cons b _ hblank, if_neg hbracket, if_neg hbrace, hscalar, Option.bind_some]

theorem skipped_word {v : Value} (h : v = .null ∨ v = .bool true ∨ v = .bool false) :
    Skipped (Bytes.ofChars v.chars) := by
  rcases h with rfl | rfl | rfl
  · exact skipped_scalar (b := byte 'n') (by decide) (by decide) (by decide) fun tail _ => rfl
  · exact skipped_scalar (b := byte 't') (by decide) (by decide) (by decide) fun tail _ => rfl
  · exact skipped_scalar (b := byte 'f') (by decide) (by decide) (by decide) fun tail _ => rfl

theorem skipped_quotedPieces (ps : List Piece) : Skipped (quotedPieces ps) := by
  refine skipped_scalar (by decide) (by decide) (by decide) fun tail _ => ?_
  rw [← quotedPieces, quotedPieces_append, skipScalar, if_pos rfl, skipString_spell]

theorem skipped_number (n : NumberText) : Skipped n.octets := by
  obtain ⟨b, body, hb, ⟨hblank, -, -⟩, hquote, hbracket, hbrace, hn, ht, hf⟩ := n.exists_octets_eq
  rw [hb]
  refine skipped_scalar hblank hbracket hbrace fun tail htail => ?_
  obtain ⟨c, rest, rfl, hends⟩ := htail
  have hscan := n.scanNumber_append hends rest
  rw [hb, List.cons_append] at hscan
  rw [List.cons_append, skipScalar, if_neg hquote, if_neg hn, if_neg ht, if_neg hf, hscan]
  rfl

/-! ## frames -/

def Frame.opening : Frame → UInt8
  | .array => byte '['
  | .object => byte '\x7b'

def Frame.close : Frame → UInt8
  | .array => byte ']'
  | .object => byte '\x7d'

/-- what follows the part of an item or member that comes before its value -/
def Frame.enter : Frame → Bytes → Option Bytes
  | .array, s => some s
  | .object, s => skipName s

theorem skipFront_opening (f : Frame) (frames : List Frame) (s : Bytes) :
    skipFront frames (f.opening :: s) = match expect? f.close s with
      | some rest => afterValue frames rest
      | none => (f.enter s).map (.value (f :: frames)) := by
  cases f <;> rfl

section
variable (f : Frame) (frames : List Frame) {blank : Bytes} (hblank : IsBlanks blank)
include hblank

theorem afterValue_comma (rest : Bytes) :
    afterValue (f :: frames) (blank ++ byte ',' :: rest)
      = (f.enter rest).map (.value (f :: frames)) := by
  cases f with
  | array =>
    rw [afterValue, skipBlank_append hblank]
    rfl
  | object =>
    rw [afterValue, skipBlank_append hblank]
    rfl

theorem afterValue_close (tail : Bytes) :
    afterValue (f :: frames) (blank ++ f.close :: tail) = afterValue frames tail := by
  cases f with
  | array =>
    rw [afterValue, skipBlank_append hblank]
    rfl
  | object =>
    rw [afterValue, skipBlank_append hblank]
    rfl

end

/-! ## what stands in a frame -/

/-- octets that are an item, perhaps behind the name of a member, within a frame -/
structure Frame.Part (f : Frame) (octets : Bytes) (i : Item) : Prop where
  enter_append : ∀ tail, f.enter (octets ++ tail) = some (i.octets ++ tail)
  expect?_close : ∀ tail, expect? f.close (octets ++ tail) = none
  length_text_le : i.text.length ≤ octets.length
  skipped : Skipped i.text

/-- one part is passed over, up to what its frame makes of the octet behind it -/
theorem Frame.Part.exists_proceed {f : Frame} {octets : Bytes} {i : Item} (h : f.Part octets i)
    (frames : List Frame) {c : UInt8} (hc : c = byte ',' ∨ c = f.close) (rest : Bytes) :
    ∃ n ≤ octets.length, ∀ fuel,
      proceed (n + fuel) ((f.enter (octets ++ c :: rest)).map (.value (f :: frames)))
        = proceed fuel (afterValue (f :: frames) (i.after ++ c :: rest)) := by
  have hfollows : Follows (c :: rest) := by
    refine follows_cons ?_ rest
    rcases hc with rfl | rfl
    · exact Or.inl rfl
    · cases f with
      | array => exact Or.inr (Or.inl rfl)
      | object => exact Or.inr (Or.inr rfl)
  obtain ⟨n, hn, hrounds⟩ := h.skipped (f :: frames) i.before (i.after ++ c :: rest)
    i.isBlanks_before (follows_append i.isBlanks_after hfollows)
  refine ⟨n, Nat.le_trans hn h.length_text_le, fun fuel => ?_⟩
  rw [h.enter_append, i.octets_append]
  exact hrounds fuel

section
variable {γ : Type} {f : Frame} {l : List γ} {octets : γ → Bytes} {item : γ → Item}

/-- all parts of a frame are passed over -/
theorem proceed_joined (hne : l ≠ []) (h : ∀ a ∈ l, f.Part (octets a) (item a))
    (frames : List Frame) (tail : Bytes) :
    ∃ n ≤ (joined (l.map octets)).length, ∀ fuel,
      proceed (n + fuel)
          ((f.enter (joined (l.map octets) ++ f.close :: tail)).map (.value (f :: frames)))
        = proceed fuel (afterValue frames tail) := by
  induction l with
  | nil => exact absurd rfl hne
  | cons a l ih =>
    have ha := h a List.mem_cons_self
    cases l with
    | nil =>
      obtain ⟨n, hn, hrounds⟩ := ha.exists_proceed frames (Or.inr rfl) tail
      refine ⟨n, hn, fun fuel => (hrounds fuel).trans ?_⟩
      rw [afterValue_close f frames (item a).isBlanks_after]
    | cons b l =>
      obtain ⟨m, hm, hmore⟩ := ih (List.cons_ne_nil b l) fun c hc =>
        h c (List.mem_cons_of_mem a hc)
      obtain ⟨n, hn, hrounds⟩ := ha.exists_proceed frames (Or.inl rfl)
        (joined ((b :: l).map octets) ++ f.close :: tail)
      refine ⟨n + m, ?_, fun fuel => ?_⟩
      · have hlength := congrArg List.length
          (joined_cons_cons (octets a) (octets b) (l.map octets) [])
        simp only [List.append_nil, List.length_append, List.length_cons] at hlength
        rw [List.map_cons, List.map_cons, hlength]
        rw [List.map_cons] at hm
        omega
      · rw [List.map_cons, List.map_cons, joined_cons_cons, Nat.add_assoc]
        refine (hrounds (m + fuel)).trans ?_
        rw [afterValue_comma f frames (item a).isBlanks_after]
        exact hmore fuel

theorem skipped_joined (hne : l ≠ []) (h : ∀ a ∈ l, f.Part (octets a) (item a)) :
    Skipped (f.opening :: (joined (l.map octets) ++ [f.close])) := by
  intro frames blank tail hblank _
  have hnone : expect? f.close (joined (l.map octets) ++ f.close :: tail) = none :=
    expect?_joined f.close hne (fun a ha => (h a ha).expect?_close) _
  obtain ⟨n, hn, hrounds⟩ := proceed_joined hne h frames tail
  refine ⟨n + 1, ?_, fun fuel => ?_⟩
  · rw [List.length_cons, List.length_append]
    omega
  · rw [Nat.add_right_comm, skipFrames_succ, skipFront_append hblank, List.cons_append,
      List.append_assoc, List.singleton_append, skipFront_opening, hnone]
    exact hrounds fuel

theorem isBlank_close (f : Frame) : isBlank f.close = false := by
  cases f <;> decide

theorem skipped_empty {inner : Bytes} (hinner : IsBlanks inner) :
    Skipped (f.opening :: (inner ++ [f.close])) := by
  intro frames blank tail hblank _
  have hend : expect? f.close (inner ++ f.close :: tail) = some tail := by
    rw [expect?_append hinner, expect?_cons f.close tail (isBlank_close f)]
  refine ⟨1, Nat.succ_le_succ (Nat.zero_le _), fun fuel => ?_⟩
  rw [Nat.add_comm, skipFrames_succ, skipFront_append hblank, List.cons_append, List.append_assoc,
    List.singleton_append, skipFront_opening, hend]

end

theorem Item.part {i : Item} (h : Spells i.tree i.text) (hskipped : Skipped i.text) :
    Frame.array.Part i.octets i where
  enter_append _ := rfl
  expect?_close := expect?_item h (Or.inl rfl)
  length_text_le := by
    rw [octets, List.length_append, List.length_append]
    omega
  skipped := hskipped

theorem Member.part {m : Member} (hskipped : Skipped m.item.text) :
    Frame.object.Part m.octets m.item where
  enter_append tail := by
    show skipName (m.octets ++ tail) = _
    rw [skipName, m.expect?_quote]
    simp only [Option.bind_eq_bind, Option.bind_some, skipString_spell, m.expect?_colon]
  expect?_close := m.expect?_brace
  length_text_le := by
    rw [octets, List.length_append, List.length_append, List.length_append, List.length_cons,
      Item.octets, List.length_append, List.length_append]
    omega
  skipped := hskipped

/-! ## texts -/

/-- **Every text of a tree is skipped, whatever its depth.** -/
theorem skipped_of_spells {t : Tree} {s : Bytes} (h : Spells t s) : Skipped s := by
  induction h with
  | null => exact skipped_word (Or.inl rfl)
  | bool b =>
    refine skipped_word (Or.inr ?_)
    cases b with
    | true => exact Or.inl rfl
    | false => exact Or.inr rfl
  | number n => exact skipped_number n
  | string ps => exact skipped_quotedPieces ps
  | emptyArray inner hinner => exact skipped_empty (f := .array) hinner
  | array items hne h ih =>
    exact skipped_joined (f := .array) hne fun i hi => Item.part (h i hi) (ih i hi)
  | emptyObject inner hinner => exact skipped_empty (f := .object) hinner
  | object members hne h ih =>
    exact skipped_joined (f := .object) hne fun m hm => Member.part (ih m hm)

theorem skip_spells {t : Tree} {s : Bytes} (h : Spells t s) {blank tail : Bytes}
    (hblank : IsBlanks blank) (htail : Follows tail) : skip (blank ++ (s ++ tail)) = some tail := by
  obtain ⟨n, hn, hrounds⟩ := skipped_of_spells h [] blank tail hblank htail
  have hle : n ≤ (blank ++ (s ++ tail)).length + 1 := by
    rw [List.length_append, List.length_append]
    omega
  obtain ⟨fuel, hfuel⟩ := Nat.exists_eq_add_of_le hle
  rw [skip, hfuel, hrounds fuel]
  rfl

end RequestSigning.Json
