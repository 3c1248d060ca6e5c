import Mathlib.Data.List.Perm.Basic
import RequestSigning.Proofs.Json.Skipping

/-!
# What a record knows of an object

`ObjectText` relates a list of members, names with trees, to the texts of objects that have them: a
name may be spelt in any way, and white space may stand anywhere, around the object too.  A record
is read off such a text from the members with known names alone (`document_objectText`), and is
refused if two of them have one name; `knownMembers?` is what it gets.  The order of the known
members does not matter for what is looked up among them (`knownMembers?_perm`).
-/

namespace RequestSigning.Json

/-! ## lists in another order -/

section
variable {α β : Type}

theorem mapM_perm {f : α → Option β} {l l' : List α} (h : l.Perm l') {results : List β}
    (hresults : l.mapM f = some results) :
    ∃ results', l'.mapM f = some results' ∧ results.Perm results' := by
  induction h generalizing results with
  | nil => exact ⟨results, hresults, List.Perm.refl _⟩
  | cons a _ ih =>
    rw [List.mapM_cons] at hresults
    obtain ⟨b, hb, hresults⟩ := Option.bind_eq_some_iff.mp hresults
    obtain ⟨rest, hrest, hresults⟩ := Option.bind_eq_some_iff.mp hresults
    obtain rfl := Option.some.inj hresults
    obtain ⟨rest', hrest', hperm⟩ := ih hrest
    refine ⟨b :: rest', ?_, hperm.cons b⟩
    rw [List.mapM_cons, hb, hrest']
    rfl
  | swap a c l =>
    rw [List.mapM_cons, List.mapM_cons] at hresults
    obtain ⟨b, hb, hresults⟩ := Option.bind_eq_some_iff.mp hresults
    obtain ⟨more, hmore, hresults⟩ := Option.bind_eq_some_iff.mp hresults
    obtain ⟨d, hd, hmore⟩ := Option.bind_eq_some_iff.mp hmore
    obtain ⟨rest, hrest, hmore⟩ := Option.bind_eq_some_iff.mp hmore
    obtain rfl := Option.some.inj hresults
    obtain rfl := Option.some.inj hmore
    refine ⟨d :: b :: rest, ?_, List.Perm.swap d b rest⟩
    rw [List.mapM_cons, List.mapM_cons, hb, hd, hrest]
    rfl
  | trans _ _ ih ih' =>
    obtain ⟨results', hresults', hperm⟩ := ih hresults
    obtain ⟨results'', hresults'', hperm'⟩ := ih' hresults'
    exact ⟨results'', hresults'', hperm.trans hperm'⟩

/-- where names are different, their order does not matter -/
theorem lookup_perm {l l' : List (String × β)} (h : l.Perm l') (hnodup : (l.map (·.1)).Nodup)
    (name : String) : l.lookup name = l'.lookup name := by
  induction h with
  | nil => rfl
  | cons m _ ih =>
    rw [List.lookup_cons, List.lookup_cons, ih (List.nodup_cons.mp hnodup).2]
  | swap m k l =>
    rw [List.map_cons, List.map_cons] at hnodup
    have hne : k.1 ≠ m.1 := fun he => (List.nodup_cons.mp hnodup).1 (he ▸ List.mem_cons_self)
    rw [List.lookup_cons, List.lookup_cons, List.lookup_cons, List.lookup_cons]
    cases hk : name == k.1 with
    | false => rfl
    | true =>
      have hm : (name == m.1) = false := by
        rw [eq_of_beq hk]
        exact beq_eq_false_iff_ne.mpr hne
      rw [hm]
  | trans h _ ih ih' => exact (ih hnodup).trans (ih' ((h.map _).nodup_iff.mp hnodup))

end

/-! ## texts of objects -/

/-- a member with its name as the text that the spelling stands for -/
def named (member : List Piece × Tree) : Option String × Tree := (pieceText? member.1, member.2)

/-- a text of an object with the given members, in their order -/
structure ObjectText (members : List (String × Tree)) (json : Bytes) : Prop where
  exists_spells : ∃ before text after tokens, json = before ++ (text ++ after) ∧
    IsBlanks before ∧ IsBlanks after ∧ Spells (.object tokens) text ∧
    tokens.map named = members.map fun m => (some m.1, m.2)

/-- an object with its members as they are written, and white space on both sides of it -/
def objectOctets (before : Bytes) (members : List Member) (after : Bytes) : Bytes :=
  before ++ (byte '\x7b' :: (joined (members.map Member.octets) ++ [byte '\x7d']) ++ after)

theorem objectText_octets {before after : Bytes} (hbefore : IsBlanks before)
    (hafter : IsBlanks after) {entries : List (String × Member)} (hne : entries ≠ [])
    (hspells : ∀ e ∈ entries, Spells e.2.item.tree e.2.item.text)
    (hnames : ∀ e ∈ entries, pieceText? e.2.name = some e.1) :
    ObjectText (entries.map fun e => (e.1, e.2.item.tree))
      (objectOctets before (entries.map (·.2)) after) := by
  refine ⟨before, _, after, (entries.map (·.2)).map Member.tokens, rfl, hbefore, hafter, ?_, ?_⟩
  · exact .object _ (fun hnil => hne (List.map_eq_nil_iff.mp hnil)) (List.forall_mem_map.mpr hspells)
  · rw [List.map_map, List.map_map, List.map_map]
    exact List.map_congr_left fun e he => congrArg (·, e.2.item.tree) (hnames e he)

/-! ## records -/

section
variable {α : Type} (fields : Fields α) (value? : String → Tree → Option α)

/-- whether a member has a known name -/
def isKnown (member : String × Tree) : Bool := (fields.lookup member.1).isSome

/-- the value of a member with its name -/
def namedValue? (member : String × Tree) : Option (String × α) :=
  (value? member.1 member.2).map (member.1, ·)

/-- the known members of an object with their values, if each one has a value and a name of its
own -/
def knownMembers? (members : List (String × Tree)) : Option (List (String × α)) :=
  let known := members.filter (isKnown fields)
  if (known.map (·.1)).Nodup then known.mapM (namedValue? value?) else none

/-- each known value is read off all its texts -/
def TakesFields : Prop :=
  ∀ name reader, fields.lookup name = some reader → ∀ t s, Spells t s →
    Takes reader s (value? name t)

/-- what a record makes of one member, which is nothing for a member that it skips -/
def memberOf? (member : String × Tree) : Option (Option (String × α)) :=
  if isKnown fields member then (namedValue? value? member).map some else some none

/-- the same for a member whose name may stand for no text -/
def memberOfNamed? (member : Option String × Tree) : Option (Option (String × α)) :=
  member.1.bind fun name => memberOf? fields value? (name, member.2)

theorem readsPart_readKnown (htakes : TakesFields fields value?) {m : Member}
    (h : Spells m.item.tree m.item.text) :
    ReadsPart (byte '\x7d') (readKnown fields) m.octets
      (memberOfNamed? fields value? (named m.tokens)) := by
  intro b rest hb
  have hfollows : Follows (b :: rest) := follows_cons (hb.imp_right Or.inr) rest
  have hblank : isBlank b = false := by rcases hb with rfl | rfl <;> decide
  refine ⟨m.item.after ++ b :: rest, ?_, m.item.skipBlank_after hblank rest⟩
  rw [readKnown, m.readName_append]
  show _ = ((pieceText? m.name).bind _).map _
  cases pieceText? m.name with
  | none => rfl
  | some name =>
    simp only [Option.map_some, Option.bind_eq_bind, Option.bind_some]
    rw [memberOf?, isKnown]
    cases hlookup : fields.lookup name with
    | none =>
      have hskip := skip_spells h m.item.isBlanks_before
        (follows_append m.item.isBlanks_after hfollows)
      rw [m.item.octets_append, hskip]
      rfl
    | some reader =>
      have hread := (htakes name reader hlookup _ _ h).item hfollows
      simp only [hread, Option.map_map, namedValue?, Option.isSome_some, if_true]
      rfl

/-- the members that are not skipped are the known ones -/
theorem filterMap_memberOf? (members : List (String × Tree)) :
    (members.mapM (memberOf? fields value?)).map (List.filterMap id)
      = (members.filter (isKnown fields)).mapM (namedValue? value?) := by
  induction members with
  | nil => rfl
  | cons member members ih =>
    rw [List.mapM_cons, List.filter_cons, memberOf?]
    by_cases hknown : isKnown fields member = true
    · rw [if_pos hknown, if_pos hknown, List.mapM_cons, ← ih]
      cases namedValue? value? member with
      | none => rfl
      | some named => cases members.mapM (memberOf? fields value?) <;> rfl
    · rw [if_neg hknown, if_neg hknown, ← ih]
      cases members.mapM (memberOf? fields value?) <;> rfl

theorem names_of_mapM {members : List (String × Tree)} {known : List (String × α)}
    (h : members.mapM (namedValue? value?) = some known) :
    known.map (·.1) = members.map (·.1) := by
  induction members generalizing known with
  | nil =>
    obtain rfl := Option.some.inj h
    rfl
  | cons member members ih =>
    rw [List.mapM_cons] at h
    obtain ⟨named, hnamed, h⟩ := Option.bind_eq_some_iff.mp h
    obtain ⟨rest, hrest, h⟩ := Option.bind_eq_some_iff.mp h
    obtain rfl := Option.some.inj h
    obtain ⟨v, -, rfl⟩ := Option.map_eq_some_iff.mp hnamed
    rw [List.map_cons, List.map_cons, ih hrest]

/-- the members of an object are read one by one, whatever their names are spelt like -/
theorem sequence_tokens (htakes : TakesFields fields value?) {tokens : List (List Piece × Tree)}
    {text : Bytes} (h : Spells (.object tokens) text) :
    ∃ inner, text = byte '\x7b' :: inner ∧ ∀ tail,
      sequence (byte '\x7d') (readKnown fields) (inner ++ tail)
        = ((tokens.map named).mapM (memberOfNamed? fields value?)).map (·, tail) := by
  cases h with
  | emptyObject blank hblank =>
    refine ⟨_, rfl, fun tail => ?_⟩
    rw [List.append_assoc, List.singleton_append]
    exact sequence_empty (byte '\x7d') (readKnown fields) hblank (by decide) tail
  | object members hne h =>
    refine ⟨_, rfl, fun tail => ?_⟩
    rw [List.append_assoc, List.singleton_append, List.map_map, List.mapM_map]
    exact sequence_joined (byte '\x7d') (readKnown fields) (by decide) hne
      (fun m hm => readsPart_readKnown fields value? htakes (h m hm)) (fun m _ => m.expect?_brace)
      tail

/-- the members that a record keeps of those that were read one by one -/
theorem keep_members (members : List (String × Tree)) (tail : Bytes) :
    ((members.mapM (memberOf? fields value?)).bind fun found =>
        if ((found.filterMap id).map (·.1)).Nodup then some (found.filterMap id, tail) else none)
      = (knownMembers? fields value? members).map (·, tail) := by
  have hfilter := filterMap_memberOf? fields value? members
  rw [knownMembers?, ← hfilter]
  cases hread : members.mapM (memberOf? fields value?) with
  | none =>
    rw [Option.map_none, ite_self]
    rfl
  | some found =>
    rw [hread] at hfilter
    rw [Option.bind_some, Option.map_some, names_of_mapM value? hfilter.symm]
    by_cases hnodup : ((members.filter (isKnown fields)).map (·.1)).Nodup
    · rw [if_pos hnodup, if_pos hnodup]
      rfl
    · rw [if_neg hnodup, if_neg hnodup]
      rfl

theorem record_spells (htakes : TakesFields fields value?) {tokens : List (List Piece × Tree)}
    {text : Bytes} (h : Spells (.object tokens) text) {members : List (String × Tree)}
    (hnames : tokens.map named = members.map fun m => (some m.1, m.2)) {blank : Bytes}
    (hblank : IsBlanks blank) (tail : Bytes) :
    record fields (blank ++ (text ++ tail))
      = (knownMembers? fields value? members).map (·, tail) := by
  obtain ⟨inner, rfl, hseq⟩ := sequence_tokens fields value? htakes h
  have hmembers := hseq tail
  rw [hnames, List.mapM_map] at hmembers
  rw [record, skipBlank_append hblank, List.cons_append, skipBlank_cons _ _ (by decide)]
  show (sequence (byte '\x7d') (readKnown fields) (inner ++ tail)).bind _ = _
  rw [hmembers, ← keep_members, Option.bind_map]
  rfl

/-- **A record is read off all texts of an object from the known members alone.** -/
theorem document_objectText (htakes : TakesFields fields value?) {members : List (String × Tree)}
    {json : Bytes} (h : ObjectText members json) :
    document (record fields) json = knownMembers? fields value? members := by
  obtain ⟨before, text, after, tokens, rfl, hbefore, hafter, hspells, hnames⟩ := h.exists_spells
  have hend : skipBlank after = [] := by
    have happend := skipBlank_append hafter []
    rwa [List.append_nil] at happend
  rw [document, record_spells fields value? htakes hspells hnames hbefore]
  cases knownMembers? fields value? members with
  | none => rfl
  | some known =>
    simp only [Option.map_some, Option.bind_eq_bind, Option.bind_some]
    exact if_pos hend

/-- what is looked up among known members does not depend on their order -/
theorem knownMembers?_perm {β : Type} {members members' : List (String × Tree)}
    (h : (members.filter (isKnown fields)).Perm (members'.filter (isKnown fields)))
    {result : List (String × α) → β}
    (hresult : ∀ known known', (∀ name, known.lookup name = known'.lookup name) →
      result known = result known') :
    (knownMembers? fields value? members).map result
      = (knownMembers? fields value? members').map result := by
  have hnodup := (h.map (·.1)).nodup_iff
  rw [knownMembers?, knownMembers?]
  by_cases hdistinct : ((members.filter (isKnown fields)).map (·.1)).Nodup
  · rw [if_pos hdistinct, if_pos (hnodup.mp hdistinct)]
    cases hread : (members.filter (isKnown fields)).mapM (namedValue? value?) with
    | some known =>
      obtain ⟨known', hread', hperm⟩ := mapM_perm h hread
      have hnames := names_of_mapM value? hread
      rw [hread', Option.map_some, Option.map_some]
      exact congrArg some (hresult known known' (lookup_perm hperm (hnames ▸ hdistinct)))
    | none =>
      cases hread' : (members'.filter (isKnown fields)).mapM (namedValue? value?) with
      | none => rfl
      | some known' =>
        obtain ⟨known, hsome, -⟩ := mapM_perm h.symm hread'
        rw [hread] at hsome
        cases hsome
  · rw [if_neg hdistinct, if_neg fun h' => hdistinct (hnodup.mpr h')]

end

end RequestSigning.Json
