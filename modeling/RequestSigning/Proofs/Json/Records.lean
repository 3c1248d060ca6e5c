import RequestSigning.Proofs.Json.Strings

/-!
# JSON arrays and objects: reading undoes writing

A sequence is read as its parts are read, in front of a comma or of the closing octet, and refused
if one of them is (`sequence_joined`, and for what is written `sequence_commas_eq`); it is read back
if each of its items is (`sequence_commas`), and with it an array (`readsTo_readArray`).  A written
object is read back as a record if its names are known and different and each value is read back by
the reader of its name (`record_object`).
-/

namespace RequestSigning.Json

/-- a reader that gives `x` for the written part `part`, whatever follows a comma or `close` -/
def ReadsTo {α : Type} (close : UInt8) (item : Reader α) (part : List Char) (x : α) : Prop :=
  ∀ (b : UInt8) (rest : Bytes), b = byte ',' ∨ b = close →
    item (Bytes.ofChars part ++ b :: rest) = some (x, b :: rest)

/-- a reader that makes `r` of the written part `part`, whatever follows a comma or `close` -/
def ReadsAs {α : Type} (close : UInt8) (item : Reader α) (part : List Char) (r : Option α) : Prop :=
  ∀ (b : UInt8) (rest : Bytes), b = byte ',' ∨ b = close →
    item (Bytes.ofChars part ++ b :: rest) = r.map (·, b :: rest)

theorem ReadsTo.readsAs {α : Type} {close : UInt8} {item : Reader α} {part : List Char} {x : α}
    (h : ReadsTo close item part x) : ReadsAs close item part (some x) := h

/-! ## sequences -/

/-- parts with commas between them -/
def joined : List Bytes → Bytes
  | [] => []
  | [part] => part
  | part :: parts => part ++ byte ',' :: joined parts

theorem joined_cons_cons (part next : Bytes) (parts : List Bytes) (rest : Bytes) :
    joined (part :: next :: parts) ++ rest
      = part ++ byte ',' :: (joined (next :: parts) ++ rest) := by
  rw [joined, List.append_assoc]
  · rfl
  · exact List.cons_ne_nil next parts

theorem length_le_joined (parts : List Bytes) : parts.length ≤ (joined parts).length + 1 := by
  induction parts with
  | nil => exact Nat.zero_le _
  | cons part parts ih =>
    cases parts with
    | nil => exact Nat.le_add_left 1 _
    | cons next parts =>
      have h := congrArg List.length (joined_cons_cons part next parts [])
      simp only [List.append_nil, List.length_append, List.length_cons] at h ih ⊢
      omega

/-- a reader that makes `r` of a part, whatever follows a comma or `close`; it may leave white space
that the part ends with -/
def ReadsPart {α : Type} (close : UInt8) (item : Reader α) (part : Bytes) (r : Option α) : Prop :=
  ∀ (b : UInt8) (rest : Bytes), b = byte ',' ∨ b = close →
    ∃ left, item (part ++ b :: rest) = r.map (·, left) ∧ skipBlank left = b :: rest

section
variable {α γ : Type} (close : UInt8) (item : Reader α)

theorem items_joined (hcomma : close ≠ byte ',') {l : List γ} (hne : l ≠ []) {octets : γ → Bytes}
    {r : γ → Option α} (h : ∀ a ∈ l, ReadsPart close item (octets a) (r a)) (fuel : Nat)
    (hfuel : l.length ≤ fuel) (rest : Bytes) :
    items close item fuel (joined (l.map octets) ++ close :: rest) = (l.mapM r).map (·, rest) := by
  -- by induction on the parts, the last of which stands in front of the closing octet and not of a
  -- comma
  induction l generalizing fuel with
  | nil => exact absurd rfl hne
  | cons a l ih =>
    have ha := h a List.mem_cons_self
    cases fuel with
    | zero => exact absurd hfuel (Nat.not_succ_le_zero _)
    | succ fuel =>
      cases l with
      | nil =>
        obtain ⟨left, hread, hleft⟩ := ha close rest (Or.inr rfl)
        show items close item (fuel + 1) (octets a ++ close :: rest) = _
        rw [List.mapM_cons, List.mapM_nil]
        cases hx : r a with
        | none =>
          rw [hx] at hread
          simp only [items, hread, Option.map_none, Option.bind_eq_bind, Option.bind_none]
        | some x =>
          rw [hx] at hread
          simp only [items, hread, Option.map_some, Option.bind_eq_bind, Option.bind_some, hleft,
            if_neg hcomma, if_true]
          rfl
      | cons next l =>
        have ih' := ih (List.cons_ne_nil next l) (fun b hb => h b (List.mem_cons_of_mem a hb)) fuel
          (Nat.le_of_succ_le_succ hfuel)
        rw [List.map_cons, List.map_cons, joined_cons_cons, List.mapM_cons]
        rw [List.map_cons] at ih'
        generalize joined (octets next :: l.map octets) ++ close :: rest = tail at ih' ⊢
        obtain ⟨left, hread, hleft⟩ := ha (byte ',') tail (Or.inl rfl)
        cases hx : r a with
        | none =>
          rw [hx] at hread
          simp only [items, hread, Option.map_none, Option.bind_eq_bind, Option.bind_none]
        | some x =>
          rw [hx] at hread
          simp only [items, hread, Option.map_some, Option.bind_eq_bind, Option.bind_some, hleft,
            if_true, ih']
          cases (next :: l).mapM r <;> rfl

theorem sequence_empty {blank : Bytes} (hblank : IsBlanks blank) (hclose : isBlank close = false)
    (rest : Bytes) : sequence close item (blank ++ close :: rest) = some ([], rest) := by
  rw [sequence, expect?_append hblank, expect?_cons close rest hclose]

theorem expect?_joined {l : List γ} (hne : l ≠ []) {octets : γ → Bytes}
    (hfirst : ∀ a ∈ l, ∀ tail, expect? close (octets a ++ tail) = none) (tail : Bytes) :
    expect? close (joined (l.map octets) ++ tail) = none := by
  cases l with
  | nil => exact absurd rfl hne
  | cons a l =>
    cases l with
    | nil => exact hfirst a List.mem_cons_self tail
    | cons next l =>
      rw [List.map_cons, List.map_cons, joined_cons_cons]
      exact hfirst a List.mem_cons_self _

/-- a sequence of parts is read as these are, if none of them begins like its end -/
theorem sequence_joined (hcomma : close ≠ byte ',') {l : List γ} (hne : l ≠ [])
    {octets : γ → Bytes} {r : γ → Option α} (h : ∀ a ∈ l, ReadsPart close item (octets a) (r a))
    (hfirst : ∀ a ∈ l, ∀ tail, expect? close (octets a ++ tail) = none) (rest : Bytes) :
    sequence close item (joined (l.map octets) ++ close :: rest) = (l.mapM r).map (·, rest) := by
  have hlength := length_le_joined (l.map octets)
  rw [List.length_map] at hlength
  rw [sequence, expect?_joined close hne hfirst]
  refine items_joined close item hcomma hne h _ ?_ rest
  rw [List.length_append, List.length_cons]
  omega

end

/-! ### written sequences -/

section
variable {α : Type} (close : UInt8) (item : Reader α)

theorem ofChars_commas (parts : List (List Char)) :
    Bytes.ofChars (commas parts) = joined (parts.map Bytes.ofChars) := by
  induction parts with
  | nil => rfl
  | cons part parts ih =>
    cases parts with
    | nil => rfl
    | cons next parts =>
      show Bytes.ofChars (part ++ ',' :: commas (next :: parts)) = _
      rw [Bytes.ofChars_append, Bytes.ofChars_cons, ih]
      rfl

theorem ReadsAs.readsPart {part : List Char} {r : Option α} (hclose : isBlank close = false)
    (h : ReadsAs close item part r) : ReadsPart close item (Bytes.ofChars part) r := by
  intro b rest hb
  refine ⟨b :: rest, h b rest hb, skipBlank_cons b rest ?_⟩
  rcases hb with rfl | rfl
  · decide
  · exact hclose

/-- a written sequence is read as its items are, if they do not begin like its end -/
theorem sequence_commas_eq (hclose : isBlank close = false) (hcomma : close ≠ byte ',')
    (parts : List (List Char × Option α)) (h : ∀ part ∈ parts, ReadsAs close item part.1 part.2)
    (hfirst : ∀ part ∈ parts, ∃ b body, Bytes.ofChars part.1 = b :: body ∧ isBlank b = false ∧
      b ≠ close) (rest : Bytes) :
    sequence close item (Bytes.ofChars (commas (parts.map (·.1))) ++ close :: rest)
      = (parts.mapM Prod.snd).map (·, rest) := by
  by_cases hne : parts = []
  · subst hne
    exact sequence_empty close item (fun b hb => absurd hb List.not_mem_nil) hclose rest
  · have hread : ∀ part ∈ parts, ReadsPart close item (Bytes.ofChars part.1) part.2 :=
      fun part hp => (h part hp).readsPart close item hclose
    have hbegins : ∀ part ∈ parts, ∀ tail, expect? close (Bytes.ofChars part.1 ++ tail) = none := by
      intro part hp tail
      obtain ⟨b, body, hb, hblank, hne⟩ := hfirst part hp
      rw [hb]
      exact expect?_cons_ne close b (body ++ tail) hblank hne
    rw [ofChars_commas, List.map_map]
    exact sequence_joined close item hcomma hne hread hbegins rest

/-- a written sequence is read back, if its items do not begin like its end -/
theorem sequence_commas (hclose : isBlank close = false) (hcomma : close ≠ byte ',')
    (parts : List (List Char × α)) (h : ∀ part ∈ parts, ReadsTo close item part.1 part.2)
    (hfirst : ∀ part ∈ parts, ∃ b body, Bytes.ofChars part.1 = b :: body ∧ isBlank b = false ∧
      b ≠ close) (rest : Bytes) :
    sequence close item (Bytes.ofChars (commas (parts.map (·.1))) ++ close :: rest)
      = some (parts.map (·.2), rest) := by
  have hmapM : (parts.map fun part => (part.1, some part.2)).mapM Prod.snd
      = some (parts.map (·.2)) := by
    rw [List.mapM_map]
    exact List.mapM_pure
  have hseq := sequence_commas_eq close item hclose hcomma
    (parts.map fun part => (part.1, some part.2)) (List.forall_mem_map.mpr fun part hp =>
      (h part hp).readsAs) (List.forall_mem_map.mpr hfirst) rest
  rwa [hmapM, List.map_map] at hseq

end

/-! ## members that may be left out -/

section
variable {β : Type}

/-- the members of a table whose values are there -/
def present (table : List (String × Option β)) : List (String × β) :=
  table.filterMap fun entry => entry.2.map (entry.1, ·)

theorem present_cons_none (name : String) (table : List (String × Option β)) :
    present ((name, none) :: table) = present table := rfl
theorem present_cons_some (name : String) (v : β) (table : List (String × Option β)) :
    present ((name, some v) :: table) = (name, v) :: present table := rfl

theorem mem_of_mem_present (table : List (String × Option β)) (m : String × β)
    (h : m ∈ present table) : (m.1, some m.2) ∈ table := by
  obtain ⟨⟨name, value⟩, hmem, he⟩ := List.mem_filterMap.mp h
  obtain ⟨v, rfl, rfl⟩ := Option.map_eq_some_iff.mp he
  exact hmem

theorem present_names_sublist (table : List (String × Option β)) :
    ((present table).map (·.1)).Sublist (table.map (·.1)) := by
  induction table with
  | nil => exact List.Sublist.refl []
  | cons entry table ih =>
    obtain ⟨name, value⟩ := entry
    cases value with
    | none => rw [present_cons_none]; exact ih.cons name
    | some v => rw [present_cons_some]; exact ih.cons_cons name

theorem lookup_eq_none (l : List (String × β)) (name : String) (h : name ∉ l.map (·.1)) :
    l.lookup name = none := by
  rw [List.lookup_eq_none_iff]
  intro m hm
  apply bne_iff_ne.mpr
  rintro rfl
  exact h (List.mem_map_of_mem hm)

/-- a name of the table is found with its value, if that is there -/
theorem lookup_present (table : List (String × Option β)) (hnodup : (table.map (·.1)).Nodup)
    (name : String) : (present table).lookup name = (table.lookup name).join := by
  induction table with
  | nil => rfl
  | cons entry table ih =>
    obtain ⟨key, value⟩ := entry
    obtain ⟨hkey, hrest⟩ := List.nodup_cons.mp hnodup
    have hnot : key ∉ (present table).map (·.1) := fun h =>
      hkey ((present_names_sublist table).subset h)
    by_cases h : name = key
    · subst h
      cases value with
      | none => rw [present_cons_none, List.lookup_cons_self, lookup_eq_none _ _ hnot]; rfl
      | some v => rw [present_cons_some, List.lookup_cons_self, List.lookup_cons_self]; rfl
    · have hb : (name == key) = false := beq_eq_false_iff_ne.mpr h
      cases value with
      | none => rw [present_cons_none, ih hrest, List.lookup_cons, hb]
      | some v => rw [present_cons_some, List.lookup_cons, List.lookup_cons, hb]; exact ih hrest

theorem lookup_map {γ : Type} (g : β → γ) (l : List (String × β)) (name : String) :
    (l.map fun m => (m.1, g m.2)).lookup name = (l.lookup name).map g := by
  induction l with
  | nil => rfl
  | cons m l ih =>
    rw [List.map_cons, List.lookup_cons, List.lookup_cons, ih]
    cases name == m.1 <;> rfl

end

/-! ## texts and arrays -/

theorem exists_stringChars_eq (s : String) :
    ∃ body, Bytes.ofChars (stringChars s) = byte '"' :: body := by
  obtain ⟨body, hbody, -⟩ := stringChars_eq s []
  exact ⟨body, by rw [← hbody, List.append_nil]⟩

section
variable {α : Type} {close : UInt8}

theorem readsTo_readText (s : String) : ReadsTo close readText (Value.string s).chars s := by
  intro b rest _
  rw [Value.chars]
  exact readText_stringChars s (b :: rest)

theorem optional_cons (value : Reader α) (b : UInt8) (rest : Bytes) (hb : isBlank b = false)
    (hn : b ≠ byte 'n') :
    Json.optional value (b :: rest)
      = (value (b :: rest)).map fun (v, rest) => (some v, rest) := by
  simp only [Json.optional, skipBlank_cons b rest hb, if_neg hn]

/-- a text is never taken for `null` -/
theorem ReadsTo.optional_string {value : Reader α} {s : String} {x : α}
    (h : ReadsTo close value (Value.string s).chars x) :
    ReadsTo close (Json.optional value) (Value.string s).chars (some x) := by
  intro b rest hb
  obtain ⟨body, hbody⟩ := exists_stringChars_eq s
  have hread := h b rest hb
  rw [Value.chars, hbody, List.cons_append] at hread ⊢
  rw [optional_cons value _ _ isBlank_quote (by decide), hread]
  rfl

theorem itemChars_eq_map (items : List Value) : itemChars items = items.map Value.chars := by
  induction items with
  | nil => rfl
  | cons v items ih => rw [itemChars, ih]; rfl

theorem ofChars_array (items : List Value) (rest : Bytes) :
    Bytes.ofChars (Value.array items).chars ++ rest
      = byte '[' :: (Bytes.ofChars (commas (itemChars items)) ++ byte ']' :: rest) := by
  rw [Value.chars, Bytes.ofChars_cons, Bytes.ofChars_append, List.append_assoc, List.append_assoc]
  rfl

/-- a written array is read back, if its items do not begin like its end -/
theorem readsTo_readArray (item : Reader α) (written : α → Value) (l : List α)
    (h : ∀ a ∈ l, ReadsTo (byte ']') item (written a).chars a)
    (hfirst : ∀ a ∈ l, ∃ b body, Bytes.ofChars (written a).chars = b :: body ∧ isBlank b = false ∧
      b ≠ byte ']') :
    ReadsTo close (readArray item) (Value.array (l.map written)).chars l := by
  intro b rest _
  let parts := l.map fun a => ((written a).chars, a)
  have hseq := sequence_commas (byte ']') item (by decide) (by decide) parts
    (List.forall_mem_map.mpr h) (List.forall_mem_map.mpr hfirst) (b :: rest)
  have hchars : parts.map (·.1) = itemChars (l.map written) := by
    rw [itemChars_eq_map, List.map_map, List.map_map]
    rfl
  have hitems : parts.map (·.2) = l := by
    rw [List.map_map]
    exact List.map_id l
  rw [hchars, hitems] at hseq
  rw [ofChars_array, readArray, expect?_cons _ _ (by decide)]
  exact hseq

end

/-! ## records -/

/-! ### members -/

theorem memberChars_eq_map (members : List (String × Value)) :
    memberChars members = members.map fun m => stringChars m.1 ++ ':' :: m.2.chars := by
  induction members with
  | nil => rfl
  | cons m members ih => rw [memberChars, ih]; rfl

theorem ofChars_member (name : String) (v : Value) (rest : Bytes) :
    Bytes.ofChars (stringChars name ++ ':' :: v.chars) ++ rest
      = Bytes.ofChars (stringChars name) ++ byte ':' :: (Bytes.ofChars v.chars ++ rest) := by
  rw [Bytes.ofChars_append, Bytes.ofChars_cons, List.append_assoc]
  rfl

theorem ofChars_object (members : List (String × Value)) (rest : Bytes) :
    Bytes.ofChars (Value.object members).chars ++ rest
      = byte '\x7b' :: (Bytes.ofChars (commas (memberChars members)) ++ byte '\x7d' :: rest) := by
  rw [Value.chars, Bytes.ofChars_cons, Bytes.ofChars_append, List.append_assoc, List.append_assoc]
  rfl

theorem exists_object_eq (members : List (String × Value)) :
    ∃ body, Bytes.ofChars (Value.object members).chars = byte '\x7b' :: body := by
  have h := ofChars_object members []
  rw [List.append_nil] at h
  exact ⟨_, h⟩

/-- the members of a written object are read as each of them is -/
theorem sequence_memberChars {β : Type} (item : Reader β) (members : List (String × Value))
    (r : String × Value → Option β)
    (h : ∀ m ∈ members, ReadsAs (byte '\x7d') item (stringChars m.1 ++ ':' :: m.2.chars) (r m))
    (rest : Bytes) :
    sequence (byte '\x7d') item
        (Bytes.ofChars (commas (memberChars members)) ++ byte '\x7d' :: rest)
      = (members.mapM r).map (·, rest) := by
  let parts := members.map fun m => (stringChars m.1 ++ ':' :: m.2.chars, r m)
  have hfirst : ∀ part ∈ parts, ∃ b body, Bytes.ofChars part.1 = b :: body ∧ isBlank b = false ∧
      b ≠ byte '\x7d' := by
    refine List.forall_mem_map.mpr fun m _ => ?_
    obtain ⟨body, hbody⟩ := exists_stringChars_eq m.1
    refine ⟨byte '"', body ++ Bytes.ofChars (':' :: m.2.chars), ?_, isBlank_quote, by decide⟩
    rw [Bytes.ofChars_append, hbody]
    rfl
  have hseq := sequence_commas_eq (byte '\x7d') item (by decide) (by decide) parts
    (List.forall_mem_map.mpr h) hfirst rest
  have hchars : parts.map (·.1) = memberChars members := by
    rw [memberChars_eq_map, List.map_map]
    rfl
  have hmapM : parts.mapM Prod.snd = members.mapM r := by
    rw [List.mapM_map]
    rfl
  rwa [hchars, hmapM] at hseq

theorem readsAs_readKnown {α : Type} (fields : Fields α) (name : String) (v : Value) (r : Option α)
    (value : Reader α) (hlookup : fields.lookup name = some value)
    (h : ReadsAs (byte '\x7d') value v.chars r) :
    ReadsAs (byte '\x7d') (readKnown fields) (stringChars name ++ ':' :: v.chars)
      (r.map fun x => some (name, x)) := by
  intro b rest hb
  have hname := readName_stringChars name (Bytes.ofChars v.chars ++ b :: rest)
  rw [ofChars_member]
  simp only [readKnown, hname, Option.bind_eq_bind, Option.bind_some, hlookup, h b rest hb,
    Option.map_map]
  rfl

/-! ### objects -/

theorem mapM_eq_none_of_mem {α β : Type} {f : α → Option β} {l : List α} {a : α} (ha : a ∈ l)
    (h : f a = none) : l.mapM f = none := by
  induction l with
  | nil => exact absurd ha List.not_mem_nil
  | cons b l ih =>
    rw [List.mapM_cons]
    rcases List.mem_cons.mp ha with rfl | ha
    · rw [h]
      rfl
    · rw [ih ha]
      cases f b <;> rfl

section
variable {α : Type} (fields : Fields α) (members : List (String × Value))

/-- a written object is read as a record if its members are known -/
theorem record_object_eq (r : String × Value → Option α)
    (h : ∀ m ∈ members, ∃ value, fields.lookup m.1 = some value ∧
      ReadsAs (byte '\x7d') value m.2.chars (r m)) (rest : Bytes) :
    record fields (Bytes.ofChars (Value.object members).chars ++ rest)
      = (members.mapM fun m => (r m).map fun x => some (m.1, x)).bind fun known =>
          if ((known.filterMap id).map (·.1)).Nodup then some (known.filterMap id, rest)
          else none := by
  have hseq := sequence_memberChars (readKnown fields) members
    (fun m => (r m).map fun x => some (m.1, x)) (fun m hm => by
      obtain ⟨value, hlookup, hvalue⟩ := h m hm
      exact readsAs_readKnown fields m.1 m.2 (r m) value hlookup hvalue) rest
  rw [ofChars_object]
  simp only [record, skipBlank_cons (byte '\x7b') _ (show isBlank (byte '\x7b') = false by decide),
    if_true, hseq, Option.bind_eq_bind, Option.bind_map]
  rfl

/-- **A written object is read back as a record.** -/
theorem record_object (f : String × Value → α) (hnodup : (members.map (·.1)).Nodup)
    (h : ∀ m ∈ members, ∃ value, fields.lookup m.1 = some value ∧
      ReadsTo (byte '\x7d') value m.2.chars (f m)) (rest : Bytes) :
    record fields (Bytes.ofChars (Value.object members).chars ++ rest)
      = some (members.map fun m => (m.1, f m), rest) := by
  have hmapM : (members.mapM fun m => (some (f m)).map fun x => some (m.1, x))
      = some (members.map fun m => some (m.1, f m)) := List.mapM_pure
  have hknown : (members.map fun m => some (m.1, f m)).filterMap id
      = members.map fun m => (m.1, f m) := by
    rw [List.filterMap_map]
    exact congrFun List.filterMap_eq_map members
  have hnames : ((members.map fun m => (m.1, f m)).map (·.1)).Nodup := by
    rw [List.map_map]; exact hnodup
  rw [record_object_eq fields members (fun m => some (f m)) h rest, hmapM, Option.bind_some, hknown,
    if_pos hnames]

theorem document_object (f : String × Value → α) (hnodup : (members.map (·.1)).Nodup)
    (h : ∀ m ∈ members, ∃ value, fields.lookup m.1 = some value ∧
      ReadsTo (byte '\x7d') value m.2.chars (f m)) :
    document (record fields) (Bytes.ofText (Value.object members).render)
      = some (members.map fun m => (m.1, f m)) := by
  have hread := record_object fields members f hnodup h []
  rw [List.append_nil] at hread
  rw [Value.render, Bytes.ofText_ofList]
  simp only [document, hread, Option.bind_eq_bind, Option.bind_some]
  rfl

/-- a written object is refused as a record if one of its values is -/
theorem document_object_eq_none (r : String × Value → Option α)
    (h : ∀ m ∈ members, ∃ value, fields.lookup m.1 = some value ∧
      ReadsAs (byte '\x7d') value m.2.chars (r m)) {m : String × Value} (hm : m ∈ members)
    (hnone : r m = none) :
    document (record fields) (Bytes.ofText (Value.object members).render) = none := by
  have hread := record_object_eq fields members r h []
  have hmapM : (members.mapM fun m => (r m).map fun x => some (m.1, x)) = none :=
    mapM_eq_none_of_mem hm (by rw [hnone]; rfl)
  rw [List.append_nil, hmapM, Option.bind_none] at hread
  rw [Value.render, Bytes.ofText_ofList]
  simp only [document, hread, Option.bind_eq_bind, Option.bind_none]

end

end RequestSigning.Json
