import RequestSigning.Proofs.Claims
import RequestSigning.Proofs.Json.KnownMembers

/-!
# Claims are read from known members only

The first segment of a token may hold any JSON object.  Of its members those count whose names are
those of claims (`isClaim`), and of these the tokens, not the white space between them nor their
order (`decode_objectText`).  Other members are passed over, however deep their values are, though
the value of the version is read down to a limit only; and a claim that is there twice, in whichever
spelling of its name, leaves no reading at all.
-/

namespace RequestSigning.Claims

open Json

def names : List String := ["alg", "kid", "tl_version", "tl_headers", "jku"]

/-- whether a member has the name of a claim -/
def isClaim (member : String × Tree) : Bool := names.contains member.1

theorem isKnown_fields (member : String × Tree) : isKnown fields member = isClaim member := by
  rw [Bool.eq_iff_iff, isKnown, List.lookup_isSome_iff, isClaim, List.contains_iff_mem]
  simp only [fields, names, List.mem_cons, List.not_mem_nil, or_false, exists_eq_or_imp,
    exists_eq_left, beq_iff_eq]

/-! ## values of claims -/

/-- the value of a claim: nothing for `null`, any value for the version, and a text for the
others -/
def claim? (name : String) : Tree → Option (Option Value)
  | .null => some none
  | t =>
    if name = "tl_version" then (t.value? 126).map some
    else t.text?.map fun s => some (.string s)

theorem claim?_of_ne (name : String) {t : Tree} (hne : t ≠ .null) :
    claim? name t = if name = "tl_version" then (t.value? 126).map some
      else t.text?.map fun s => some (.string s) := by
  cases t with
  | null => exact absurd rfl hne
  | _ => rfl

theorem takes_textClaim {t : Tree} {s : Bytes} (h : Spells t s) :
    Takes (fun s => (readText s).map fun (text, rest) => (Value.string text, rest)) s
      (t.text?.map .string) := by
  intro blank tail hblank htail
  dsimp only
  rw [takes_readText h blank tail hblank htail, Option.map_map, Option.map_map]
  rfl

theorem takesFields : TakesFields fields claim? := by
  intro name reader hlookup t s h
  have hreader : name = "tl_version" ∧ reader = readVersionClaim ∨
      name ≠ "tl_version" ∧ reader = readTextClaim := by
    obtain ⟨before, after, hfields, -⟩ := List.lookup_eq_some_iff.mp hlookup
    have hmem : (name, reader) ∈ fields := by
      rw [hfields]
      exact List.mem_append_right before List.mem_cons_self
    simp only [fields, List.mem_cons, Prod.mk.injEq, List.not_mem_nil, or_false] at hmem
    rcases hmem with ⟨rfl, rfl⟩ | ⟨rfl, rfl⟩ | ⟨rfl, rfl⟩ | ⟨rfl, rfl⟩ | ⟨rfl, rfl⟩
    · exact Or.inr ⟨by decide, rfl⟩
    · exact Or.inr ⟨by decide, rfl⟩
    · exact Or.inl ⟨rfl, rfl⟩
    · exact Or.inr ⟨by decide, rfl⟩
    · exact Or.inr ⟨by decide, rfl⟩
  by_cases hnull : t = .null
  · subst hnull
    cases h
    rcases hreader with ⟨-, rfl⟩ | ⟨-, rfl⟩
    · exact takes_optional_null
    · exact takes_optional_null
  · rw [claim?_of_ne name hnull]
    rcases hreader with ⟨hname, rfl⟩ | ⟨hname, rfl⟩
    · rw [if_pos hname]
      exact (readValue_spells h 126).optional h hnull
    · have htakes := (takes_textClaim h).optional h hnull
      rw [Option.map_map] at htakes
      rw [if_neg hname]
      exact htakes

/-! ## segments -/

theorem ofMembers_congr {known known' : List (String × Option Value)}
    (h : ∀ name, known.lookup name = known'.lookup name) : ofMembers known = ofMembers known' := by
  simp only [ofMembers, lookup?, h]

theorem read?_objectText {members : List (String × Tree)} {json : Bytes}
    (h : ObjectText members json) :
    read? json = (knownMembers? fields claim? members).map ofMembers := by
  rw [read?, document_objectText fields claim? takesFields h]

theorem filter_isKnown_fields (members : List (String × Tree)) :
    members.filter (isKnown fields) = members.filter isClaim :=
  List.filter_congr fun member _ => isKnown_fields member

/-- what is decoded depends on what is read -/
theorem decode_eq {segment : String} {json : Bytes}
    (hjson : Base64.decode? (Bytes.ofText segment) = some json) :
    decode segment = (read? json).elim (.error (.malformedSignature .headerJson)) .ok := by
  simp only [decode, hjson]
  cases read? json <;> rfl

/-- **The claims of an object are read from its known members only.**  A segment with a text of an
object either has claims or is malformed.  Another segment has the same outcome if its object has
the same members with names of claims in any order: other members may come in or go at any place,
with any values, and there may be more or less white space between tokens.  An object with two
members for one claim is malformed. -/
theorem decode_objectText {segment : String} {json : Bytes} {members : List (String × Tree)}
    (hjson : Base64.decode? (Bytes.ofText segment) = some json) (h : ObjectText members json) :
    ((∃ c, decode segment = .ok c) ∨
        decode segment = .error (.malformedSignature .headerJson)) ∧
      (∀ segment' json' members', Base64.decode? (Bytes.ofText segment') = some json' →
        ObjectText members' json' → (members.filter isClaim).Perm (members'.filter isClaim) →
          decode segment' = decode segment) ∧
      (¬ ((members.filter isClaim).map (·.1)).Nodup →
        decode segment = .error (.malformedSignature .headerJson)) := by
  have hread := read?_objectText h
  refine ⟨?_, ?_, ?_⟩
  · rw [decode_eq hjson]
    cases read? json with
    | none => exact Or.inr rfl
    | some c => exact Or.inl ⟨c, rfl⟩
  · intro segment' json' members' hjson' h' hperm
    rw [← filter_isKnown_fields, ← filter_isKnown_fields] at hperm
    have hsame := knownMembers?_perm fields claim? hperm fun _ _ => ofMembers_congr
    rw [decode_eq hjson, decode_eq hjson', hread, read?_objectText h', hsame]
  · intro htwice
    rw [← filter_isKnown_fields] at htwice
    have hnone : knownMembers? fields claim? members = none := if_neg htwice
    rw [decode_eq hjson, hread, hnone]
    rfl

/-! The claims of a signer as they are written; the same with white space here and there, the first
two members exchanged, a letter of `kid` by its number and an unknown member in front, in which a
surrogate stands alone; and the first one with a second algorithm. -/

/-- the spelling of a text without escapes, as far as it has one -/
def plainPieces (s : String) : List Piece := (Bytes.ofText s).filterMap fun b =>
  if h : b ≠ byte '"' ∧ b ≠ byte '\\' ∧ ¬ b < 0x20 then some (.plain b h) else none

/-- a member without white space -/
def compactMember (name : List Piece) (t : Tree) (text : Bytes) : Member :=
  ⟨[], name, [], ⟨t, [], text, [], by decide, by decide⟩, by decide, by decide⟩

def textEntry (name value : String) : String × Member :=
  (name, compactMember (plainPieces name) (.string (plainPieces value))
    (quotedPieces (plainPieces value)))

def writtenEntries : List (String × Member) :=
  [textEntry "alg" "ES512", textEntry "kid" "k", textEntry "tl_version" "2",
    textEntry "tl_headers" "X-a"]

def escapedKid : List Piece :=
  .unit (byte '0') (byte '0') (byte '6') (byte 'B') 0x6B (by decide) :: plainPieces "id"

def loneSurrogate : List Piece :=
  [.unit (byte 'd') (byte '8') (byte '0') (byte '0') 0xD800 (by decide)]

def spacedEntries : List (String × Member) :=
  [("x", compactMember (plainPieces "x") (.array [.array [.string loneSurrogate]])
      (Bytes.ofText "[[ \"\\ud800\"]]")),
    ("kid", ⟨[0x20], escapedKid, [0x09], ⟨.string (plainPieces "k"), [0x20],
      quotedPieces (plainPieces "k"), [0x0A], by decide, by decide⟩, by decide, by decide⟩),
    textEntry "alg" "ES512", textEntry "tl_version" "2", textEntry "tl_headers" "X-a"]

def twiceEntries : List (String × Member) :=
  writtenEntries ++ [("alg", compactMember (plainPieces "alg") .null (Bytes.ofText "null"))]

/-- the segment with an object of the given members -/
def segmentOf (blank : Bytes) (entries : List (String × Member)) : String :=
  Base64.encode (objectOctets blank (entries.map (·.2)) blank)

theorem spells_nested :
    Spells (.array [.array [.string loneSurrogate]]) (Bytes.ofText "[[ \"\\ud800\"]]") := by
  have hstring : Spells (.array [.string loneSurrogate]) (Bytes.ofText "[ \"\\ud800\"]") :=
    Spells.array [⟨.string loneSurrogate, [0x20], quotedPieces loneSurrogate, [], by decide,
      by decide⟩] (List.cons_ne_nil _ _) (List.forall_mem_singleton.mpr (.string loneSurrogate))
  exact Spells.array [⟨.array [.string loneSurrogate], [], Bytes.ofText "[ \"\\ud800\"]", [],
    by decide, by decide⟩] (List.cons_ne_nil _ _) (List.forall_mem_singleton.mpr hstring)

theorem decode_objectText_written :
    decode (segmentOf [] writtenEntries) = .ok (ofSigner "k" ["X-a"] none) ∧
      decode (segmentOf [0x20] spacedEntries) = .ok (ofSigner "k" ["X-a"] none) ∧
      decode (segmentOf [] twiceEntries) = .error (.malformedSignature .headerJson) := by
  have hok : decode (segmentOf [] writtenEntries) = .ok (ofSigner "k" ["X-a"] none) := by
    have htext : segmentOf [] writtenEntries = (ofSigner "k" ["X-a"] none).encode := by
      decide +kernel
    rw [htext]
    exact decode_encode_ofSigner "k" ["X-a"] none
  have htext : ∀ name value, Spells (textEntry name value).2.item.tree
      (textEntry name value).2.item.text := fun name value => .string (plainPieces value)
  have hwritten : ∀ e ∈ writtenEntries, Spells e.2.item.tree e.2.item.text := by
    simp only [writtenEntries, List.forall_mem_cons, htext, true_and, List.not_mem_nil,
      false_implies, implies_true]
  have hspaced : ∀ e ∈ spacedEntries, Spells e.2.item.tree e.2.item.text := by
    simp only [spacedEntries, List.forall_mem_cons, htext, List.not_mem_nil, false_implies,
      implies_true, and_true]
    exact ⟨spells_nested, .string (plainPieces "k")⟩
  have htwice : ∀ e ∈ twiceEntries, Spells e.2.item.tree e.2.item.text := by
    rw [twiceEntries, List.forall_mem_append]
    exact ⟨hwritten, List.forall_mem_singleton.mpr .null⟩
  have hnil : IsBlanks [] := by decide
  have hspace : IsBlanks [0x20] := by decide
  have hobject := objectText_octets hnil hnil (List.cons_ne_nil _ _) hwritten (by decide +kernel)
  have hobject' := objectText_octets hspace hspace (List.cons_ne_nil _ _) hspaced
    (by decide +kernel)
  have hobject'' := objectText_octets hnil hnil (List.cons_ne_nil _ _) htwice (by decide +kernel)
  have hsame := (decode_objectText (Base64.decode?_encode _) hobject).2.1
    (segmentOf [0x20] spacedEntries) _ _ (Base64.decode?_encode _) hobject'
    (List.Perm.swap _ _ _)
  refine ⟨hok, hsame.trans hok, ?_⟩
  exact (decode_objectText (Base64.decode?_encode _) hobject'').2.2 (by decide +kernel)

end RequestSigning.Claims
