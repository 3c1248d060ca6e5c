import RequestSigning.Proofs.Json.Tokens
import RequestSigning.Proofs.Json.Values

/-!
# JSON texts with white space anywhere

A `Tree` has the tokens of a JSON value, whichever way they are spelt, and `Spells` relates it to
its texts: white space may stand between any two tokens.  All texts of a tree are read as one value
(`readValue_spells`), which is `Tree.value?`: there is none if the tree is deeper than the reader
goes, if a number has no value, or if a string stands for no text.
-/

namespace RequestSigning.Json

/-! ## trees and their texts -/

/-- the tokens of a JSON value, without the white space between them -/
inductive Tree where
  | null
  | bool (b : Bool)
  | number (n : NumberText)
  | string (ps : List Piece)
  | array (items : List Tree)
  | object (members : List (List Piece × Tree))

/-- a value as it is written, with white space on both sides -/
structure Item where
  tree : Tree
  before : Bytes
  text : Bytes
  after : Bytes
  isBlanks_before : IsBlanks before
  isBlanks_after : IsBlanks after

def Item.octets (i : Item) : Bytes := i.before ++ (i.text ++ i.after)

/-- a member as it is written, with white space on both sides of its name -/
structure Member where
  before : Bytes
  name : List Piece
  after : Bytes
  item : Item
  isBlanks_before : IsBlanks before
  isBlanks_after : IsBlanks after

namespace Member

def octets (m : Member) : Bytes :=
  m.before ++ (quotedPieces m.name ++ (m.after ++ byte ':' :: m.item.octets))

/-- the tokens of a member -/
def tokens (m : Member) : List Piece × Tree := (m.name, m.item.tree)

end Member

/-- the texts of a tree -/
inductive Spells : Tree → Bytes → Prop
  | null : Spells .null (Bytes.ofChars Value.null.chars)
  | bool (b : Bool) : Spells (.bool b) (Bytes.ofChars (Value.bool b).chars)
  | number (n : NumberText) : Spells (.number n) n.octets
  | string (ps : List Piece) : Spells (.string ps) (quotedPieces ps)
  | emptyArray (blank : Bytes) (h : IsBlanks blank) :
      Spells (.array []) (byte '[' :: (blank ++ [byte ']']))
  | array (items : List Item) (hne : items ≠ []) (h : ∀ i ∈ items, Spells i.tree i.text) :
      Spells (.array (items.map Item.tree))
        (byte '[' :: (joined (items.map Item.octets) ++ [byte ']']))
  | emptyObject (blank : Bytes) (h : IsBlanks blank) :
      Spells (.object []) (byte '\x7b' :: (blank ++ [byte '\x7d']))
  | object (members : List Member) (hne : members ≠ [])
      (h : ∀ m ∈ members, Spells m.item.tree m.item.text) :
      Spells (.object (members.map Member.tokens))
        (byte '\x7b' :: (joined (members.map Member.octets) ++ [byte '\x7d']))

/-! ## how texts begin, and what follows them -/

theorem NumberText.exists_octets_eq (n : NumberText) :
    ∃ b body, n.octets = b :: body ∧ BeginsNumber b := by
  rw [octets, signOctets]
  cases n.negative with
  | true => exact ⟨byte '-', _, rfl, by decide⟩
  | false =>
    obtain ⟨b, more, hb, hdigit⟩ := n.whole.exists_cons
    rw [hb]
    exact ⟨b, _, rfl, beginsNumber_of_isDigit hdigit⟩

/-- no text but that of `null` begins like the word, and only strings begin with a quotation
mark -/
theorem Spells.exists_eq_cons {t : Tree} {s : Bytes} (h : Spells t s) :
    ∃ b body, s = b :: body ∧ Begins b ∧ (t ≠ .null → b ≠ byte 'n') ∧
      ((∀ ps, t ≠ .string ps) → b ≠ byte '"') := by
  cases h with
  | null =>
    exact ⟨byte 'n', Bytes.ofChars "ull".toList, rfl, by decide, fun h => absurd rfl h,
      fun _ => by decide⟩
  | bool b =>
    cases b with
    | true =>
      exact ⟨byte 't', Bytes.ofChars "rue".toList, rfl, by decide, fun _ => by decide,
        fun _ => by decide⟩
    | false =>
      exact ⟨byte 'f', Bytes.ofChars "alse".toList, rfl, by decide, fun _ => by decide,
        fun _ => by decide⟩
  | number n =>
    obtain ⟨b, body, hb, hbegins, hquote, -, -, hn, -⟩ := n.exists_octets_eq
    exact ⟨b, body, hb, hbegins, fun _ => hn, fun _ => hquote⟩
  | string ps =>
    exact ⟨byte '"', _, rfl, by decide, fun _ => by decide, fun h => absurd rfl (h ps)⟩
  | emptyArray blank _ =>
    exact ⟨byte '[', _, rfl, by decide, fun _ => by decide, fun _ => by decide⟩
  | array items _ _ =>
    exact ⟨byte '[', _, rfl, by decide, fun _ => by decide, fun _ => by decide⟩
  | emptyObject blank _ =>
    exact ⟨byte '\x7b', _, rfl, by decide, fun _ => by decide, fun _ => by decide⟩
  | object members _ _ =>
    exact ⟨byte '\x7b', _, rfl, by decide, fun _ => by decide, fun _ => by decide⟩

/-- what can follow a value: something that ends a number -/
def Follows (tail : Bytes) : Prop := ∃ b rest, tail = b :: rest ∧ EndsNumber b

theorem follows_append {blank tail : Bytes} (hblank : IsBlanks blank) (h : Follows tail) :
    Follows (blank ++ tail) := by
  cases blank with
  | nil => exact h
  | cons b blank =>
    have hall : ∀ b, isBlank b = true → EndsNumber b := forall_octet (by decide +kernel)
    exact ⟨b, blank ++ tail, rfl, hall b (hblank b List.mem_cons_self)⟩

theorem follows_cons {b : UInt8} (h : b = byte ',' ∨ b = byte ']' ∨ b = byte '\x7d')
    (rest : Bytes) : Follows (b :: rest) := ⟨b, rest, rfl, endsNumber_of_close h⟩

/-! ## readers of texts -/

/-- a reader that makes `r` of a text, wherever this stands: behind white space, and in front of
anything that can follow a value -/
def Takes {α : Type} (reader : Reader α) (text : Bytes) (r : Option α) : Prop :=
  ∀ blank tail, IsBlanks blank → Follows tail → reader (blank ++ (text ++ tail)) = r.map (·, tail)

section
variable {α : Type} {reader : Reader α} {close : UInt8}

theorem Item.octets_append (i : Item) (tail : Bytes) :
    i.octets ++ tail = i.before ++ (i.text ++ (i.after ++ tail)) := by
  rw [octets, List.append_assoc, List.append_assoc]

/-- an item is read as its text is, up to the white space behind this -/
theorem Takes.item {i : Item} {r : Option α} (h : Takes reader i.text r) {tail : Bytes}
    (htail : Follows tail) : reader (i.octets ++ tail) = r.map (·, i.after ++ tail) := by
  rw [i.octets_append]
  exact h i.before (i.after ++ tail) i.isBlanks_before (follows_append i.isBlanks_after htail)

theorem Item.skipBlank_after (i : Item) {b : UInt8} (hb : isBlank b = false) (rest : Bytes) :
    skipBlank (i.after ++ b :: rest) = b :: rest := by
  rw [skipBlank_append i.isBlanks_after, skipBlank_cons b rest hb]

theorem Takes.readsPart {i : Item} {r : Option α} (h : Takes reader i.text r)
    (hclose : close = byte ']' ∨ close = byte '\x7d') : ReadsPart close reader i.octets r := by
  intro b rest hb
  have hend : b = byte ',' ∨ b = byte ']' ∨ b = byte '\x7d' := by
    rcases hb with rfl | rfl
    · exact Or.inl rfl
    · exact Or.inr hclose
  refine ⟨i.after ++ b :: rest, h.item (follows_cons hend rest), i.skipBlank_after ?_ rest⟩
  rcases hend with rfl | rfl | rfl <;> decide

theorem expect?_item {i : Item} (h : Spells i.tree i.text)
    (hclose : close = byte ']' ∨ close = byte '\x7d') (tail : Bytes) :
    expect? close (i.octets ++ tail) = none := by
  obtain ⟨b, body, hb, ⟨hblank, hbracket, hbrace⟩, -⟩ := h.exists_eq_cons
  rw [i.octets_append, expect?_append i.isBlanks_before, hb]
  refine expect?_cons_ne close b _ hblank ?_
  rcases hclose with rfl | rfl
  · exact hbracket
  · exact hbrace

end

namespace Member

variable (m : Member) (tail : Bytes)

theorem octets_append : m.octets ++ tail
    = m.before ++ byte '"' :: (spell m.name ++ byte '"' :: (m.after ++ byte ':'
      :: (m.item.octets ++ tail))) := by
  rw [octets, List.append_assoc, List.append_assoc, quotedPieces_append, List.append_assoc]
  rfl

theorem expect?_quote : expect? (byte '"') (m.octets ++ tail)
    = some (spell m.name ++ byte '"' :: (m.after ++ byte ':' :: (m.item.octets ++ tail))) := by
  rw [m.octets_append, expect?_append m.isBlanks_before, expect?_cons _ _ isBlank_quote]

theorem expect?_colon : expect? (byte ':') (m.after ++ byte ':' :: (m.item.octets ++ tail))
    = some (m.item.octets ++ tail) := by
  rw [expect?_append m.isBlanks_after, expect?_cons _ _ (by decide)]

theorem expect?_brace : expect? (byte '\x7d') (m.octets ++ tail) = none := by
  rw [m.octets_append, expect?_append m.isBlanks_before]
  exact expect?_cons_ne _ _ _ isBlank_quote (by decide)

/-- the name of a member is read as the text that it stands for -/
theorem readName_append :
    readName (m.octets ++ tail) = (pieceText? m.name).map (·, m.item.octets ++ tail) := by
  rw [readName, m.expect?_quote]
  simp only [Option.bind_eq_bind, Option.bind_some, readString_spell]
  cases pieceText? m.name with
  | none => rfl
  | some name => simp only [Option.map_some, Option.bind_some, m.expect?_colon]

end Member

/-! ## texts, and the word `null` -/

/-- the text of a string -/
def Tree.text? : Tree → Option String
  | .string ps => pieceText? ps
  | _ => none

theorem takes_readText {t : Tree} {s : Bytes} (h : Spells t s) : Takes readText s t.text? := by
  intro blank tail hblank _
  rw [readText, expect?_append hblank]
  by_cases hstring : ∃ ps, t = .string ps
  · obtain ⟨ps, rfl⟩ := hstring
    cases h
    rw [quotedPieces_append, expect?_cons _ _ isBlank_quote]
    exact readString_spell ps tail
  · have hne : ∀ ps, t ≠ .string ps := fun ps he => hstring ⟨ps, he⟩
    have hnone : t.text? = none := by
      cases t with
      | string ps => exact absurd rfl (hne ps)
      | _ => rfl
    obtain ⟨b, body, rfl, ⟨hb, -, -⟩, -, hquote⟩ := h.exists_eq_cons
    rw [List.cons_append, expect?_cons_ne _ b _ hb (hquote hne), hnone]
    rfl

section
variable {α : Type} {value : Reader α}

theorem optional_append {blank : Bytes} (h : IsBlanks blank) (rest : Bytes) :
    Json.optional value (blank ++ rest) = Json.optional value rest := by
  rw [Json.optional, Json.optional, skipBlank_append h]

theorem takes_optional_null :
    Takes (Json.optional value) (Bytes.ofChars Value.null.chars) (some none) := by
  intro blank tail hblank _
  rw [optional_append hblank]
  rfl

/-- no text of another tree is taken for `null` -/
theorem Takes.optional {t : Tree} {s : Bytes} {r : Option α} (h : Takes value s r)
    (hspells : Spells t s) (hne : t ≠ .null) : Takes (Json.optional value) s (r.map some) := by
  intro blank tail hblank htail
  obtain ⟨b, body, rfl, ⟨hb, -, -⟩, hn, -⟩ := hspells.exists_eq_cons
  have hread : value (b :: (body ++ tail)) = r.map (·, tail) :=
    h [] tail (fun c hc => absurd hc List.not_mem_nil) htail
  rw [optional_append hblank, List.cons_append, optional_cons value b _ hb (hn hne), hread,
    Option.map_map, Option.map_map]
  rfl

end

/-! ## values -/

mutual

/-- the value of a tree that nests arrays and objects to a depth at most -/
def Tree.value? : Tree → Nat → Option Value
  | .null, _ => some .null
  | .bool b, _ => some (.bool b)
  | .number n, _ => n.numeral.value?
  | .string ps, _ => (pieceText? ps).map .string
  | .array _, 0 => none
  | .array items, depth + 1 => (itemValues? items depth).map .array
  | .object _, 0 => none
  | .object members, depth + 1 =>
    (memberValues? members depth).map fun members => .object (sortMembers members)

def itemValues? : List Tree → Nat → Option (List Value)
  | [], _ => some []
  | t :: items, depth => do
    let v ← t.value? depth
    some (v :: (← itemValues? items depth))

def memberValues? : List (List Piece × Tree) → Nat → Option (List (String × Value))
  | [], _ => some []
  | (ps, t) :: members, depth => do
    let name ← pieceText? ps
    let v ← t.value? depth
    some ((name, v) :: (← memberValues? members depth))

end

theorem itemValues?_eq_mapM (items : List Tree) (depth : Nat) :
    itemValues? items depth = items.mapM fun t => t.value? depth := by
  induction items with
  | nil => rfl
  | cons t items ih =>
    rw [itemValues?, ih, List.mapM_cons]
    rfl

/-- a member with its value -/
def memberValue? (depth : Nat) (member : List Piece × Tree) : Option (String × Value) :=
  (pieceText? member.1).bind fun name => (member.2.value? depth).map (name, ·)

theorem memberValues?_eq_mapM (members : List (List Piece × Tree)) (depth : Nat) :
    memberValues? members depth = members.mapM (memberValue? depth) := by
  induction members with
  | nil => rfl
  | cons m members ih =>
    obtain ⟨ps, t⟩ := m
    rw [memberValues?, ih, List.mapM_cons, memberValue?]
    cases pieceText? ps with
    | none => rfl
    | some name =>
      dsimp only [Option.bind_eq_bind, Option.bind_some]
      cases t.value? depth <;> rfl

theorem readValue_append {blank : Bytes} (h : IsBlanks blank) (depth : Nat) (rest : Bytes) :
    readValue depth (blank ++ rest) = readValue depth rest := by
  rw [readValue.eq_def, readValue.eq_def depth rest, skipBlank_append h]

theorem Takes.readMember {value : Reader Value} {m : Member} {r : Option Value}
    (h : Takes value m.item.text r) :
    ReadsPart (byte '\x7d') (readMember value) m.octets
      ((pieceText? m.name).bind fun name => r.map (name, ·)) := by
  intro b rest hb
  obtain ⟨left, hread, hleft⟩ := h.readsPart (Or.inr rfl) b rest hb
  refine ⟨left, ?_, hleft⟩
  rw [Json.readMember, m.readName_append]
  cases pieceText? m.name with
  | none => rfl
  | some name =>
    simp only [Option.map_some, Option.bind_eq_bind, Option.bind_some, hread]
    cases r <;> rfl

/-- **All texts of a tree are read as the value of the tree.** -/
theorem readValue_spells {t : Tree} {s : Bytes} (h : Spells t s) (depth : Nat) :
    Takes (readValue depth) s (t.value? depth) := by
  -- by induction on how the text came about: items and members are read with one level less
  induction h generalizing depth with
  | null =>
    intro blank tail hblank _
    rw [readValue_append hblank]
    exact readValue_word depth (Or.inl rfl) tail
  | bool b =>
    intro blank tail hblank _
    rw [readValue_append hblank]
    refine readValue_word depth (Or.inr ?_) tail
    cases b with
    | true => exact Or.inl rfl
    | false => exact Or.inr rfl
  | number n =>
    intro blank tail hblank hfollows
    obtain ⟨c, rest, rfl, hends⟩ := hfollows
    obtain ⟨b, body, hb, hbegins⟩ := n.exists_octets_eq
    have hscan := n.scanNumber_append hends rest
    rw [hb, List.cons_append] at hscan
    rw [readValue_append hblank, hb, List.cons_append, readValue_number depth hbegins hscan]
    rfl
  | string ps =>
    intro blank tail hblank _
    rw [readValue_append hblank, quotedPieces_append, readValue_quote, readString_spell]
    show _ = ((pieceText? ps).map Value.string).map _
    cases pieceText? ps <;> rfl
  | emptyArray inner hinner =>
    intro blank tail hblank _
    rw [readValue_append hblank, List.cons_append, List.append_assoc, readValue_bracket]
    cases depth with
    | zero => rfl
    | succ depth =>
      have hseq := sequence_empty (byte ']') (readValue depth) hinner (by decide) tail
      dsimp only [List.singleton_append]
      rw [hseq]
      rfl
  | array items hne h ih =>
    intro blank tail hblank _
    rw [readValue_append hblank, List.cons_append, List.append_assoc, readValue_bracket]
    cases depth with
    | zero => rfl
    | succ depth =>
      have hread : ∀ i ∈ items, ReadsPart (byte ']') (readValue depth) i.octets
          (i.tree.value? depth) := fun i hi => (ih i hi depth).readsPart (Or.inl rfl)
      have hseq := sequence_joined (byte ']') (readValue depth) (by decide) hne hread
        (fun i hi => expect?_item (h i hi) (Or.inl rfl)) tail
      dsimp only [List.singleton_append]
      rw [hseq, Tree.value?, itemValues?_eq_mapM, List.mapM_map, Option.map_map, Option.map_map]
      rfl
  | emptyObject inner hinner =>
    intro blank tail hblank _
    rw [readValue_append hblank, List.cons_append, List.append_assoc, readValue_brace]
    cases depth with
    | zero => rfl
    | succ depth =>
      have hseq := sequence_empty (byte '\x7d') (readMember (readValue depth)) hinner (by decide)
        tail
      dsimp only [List.singleton_append]
      rw [hseq]
      rfl
  | object members hne h ih =>
    intro blank tail hblank _
    rw [readValue_append hblank, List.cons_append, List.append_assoc, readValue_brace]
    cases depth with
    | zero => rfl
    | succ depth =>
      have hread : ∀ m ∈ members, ReadsPart (byte '\x7d') (readMember (readValue depth)) m.octets
          (memberValue? depth m.tokens) := fun m hm => (ih m hm depth).readMember
      have hseq := sequence_joined (byte '\x7d') (readMember (readValue depth)) (by decide) hne
        hread (fun m _ => m.expect?_brace) tail
      dsimp only [List.singleton_append]
      rw [hseq, Tree.value?, memberValues?_eq_mapM, List.mapM_map, Option.map_map, Option.map_map]
      rfl

end RequestSigning.Json
