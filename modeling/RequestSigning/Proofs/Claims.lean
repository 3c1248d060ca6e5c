import RequestSigning.Claims
import RequestSigning.Proofs.Base64
import RequestSigning.Proofs.Json.Values

/-!
# Claims: reading undoes writing

`decode_encode` reads back the claims that were written, whatever texts they hold.  It asks of a
version that it is read back as a value, which a text is (`readsTo_versionClaim_string`); so the
claims of a signer are read back without any condition (`decode_encode_ofSigner`).  Of all versions
that a text keeps (`Kept`) those are read back that nest to the depth of the reader (`Shallow`), and
deeper ones are refused (`decode_encode_of_not_shallow`).

`decode_eq_ok_iff` says what claims come from, whoever wrote them, and `decode_eq_error_iff` what
holds none.
-/

namespace RequestSigning.Claims

open Json

/-! ## the readers of single claims -/

theorem readsTo_textClaim (s : String) (close : UInt8) :
    ReadsTo close readTextClaim (Value.string s).chars (some (.string s)) := by
  refine ReadsTo.optional_string fun b rest hb => ?_
  rw [readsTo_readText s b rest hb]
  rfl

theorem readsAs_versionClaim {v : Value} (hkept : v.Kept) (hne : v ≠ .null) :
    ReadsAs (byte '\x7d') readVersionClaim v.chars
      (if v.depth ≤ 126 then some (some v) else none) := by
  intro b rest hb
  obtain ⟨c, body, hc, ⟨hblank, -, -⟩, hn⟩ := hkept.exists_chars_eq
  have hread := readsAs_readValue hkept (Or.inr rfl) 126 b rest hb
  rw [hc, List.cons_append] at hread ⊢
  rw [readVersionClaim, optional_cons _ _ _ hblank (hn hne), hread]
  by_cases hdepth : v.depth ≤ 126
  · rw [if_pos hdepth, if_pos hdepth]
    rfl
  · rw [if_neg hdepth, if_neg hdepth]
    rfl

theorem readsTo_versionClaim_string (s : String) :
    ReadsTo (byte '\x7d') readVersionClaim (Value.string s).chars (some (.string s)) :=
  readsAs_versionClaim (.string s) fun h => by cases h

/-! ## members -/

/-- the claims by name -/
def table (c : Claims) : List (String × Option Value) :=
  [("alg", c.algorithm.map .string), ("kid", c.kid.map .string), ("tl_version", c.version),
    ("tl_headers", c.headers.map .string), ("jku", c.jku.map .string)]

theorem textMember_eq (name : String) (text : Option String) :
    textMember name text = (text.map Value.string).map fun v => (name, v) := by
  rw [textMember, Option.map_map]
  rfl

theorem members_eq_present (c : Claims) : c.members = present c.table := by
  have h : present c.table
      = (c.table.map fun entry => entry.2.map fun v => (entry.1, v)).filterMap id := by
    rw [List.filterMap_map]
    rfl
  rw [h, members, textMember_eq, textMember_eq, textMember_eq, textMember_eq]
  rfl

theorem table_names_nodup (c : Claims) : (c.table.map (·.1)).Nodup := by
  show ["alg", "kid", "tl_version", "tl_headers", "jku"].Nodup
  decide

theorem members_nodup (c : Claims) : (c.members.map (·.1)).Nodup := by
  rw [members_eq_present]
  exact (table_names_nodup c).sublist (present_names_sublist c.table)

/-- the values of members are found again under their names -/
theorem ofMembers_members (c : Claims) :
    ofMembers (c.members.map fun m => (m.1, some m.2)) = c := by
  have hlookup : ∀ name, lookup? (c.members.map fun m => (m.1, some m.2)) name
      = (c.table.lookup name).join := by
    intro name
    rw [lookup?, lookup_map, members_eq_present, lookup_present _ (table_names_nodup c)]
    cases (c.table.lookup name).join <;> rfl
  have htext : ∀ o : Option String, (o.map Value.string).bind Value.text? = o := by
    intro o
    cases o <;> rfl
  obtain ⟨algorithm, kid, version, headers, jku⟩ := c
  rw [ofMembers, hlookup, hlookup, hlookup, hlookup, hlookup]
  show Claims.mk ((algorithm.map .string).bind Value.text?) ((kid.map .string).bind Value.text?)
    version ((headers.map .string).bind Value.text?) ((jku.map .string).bind Value.text?) = _
  rw [htext, htext, htext, htext]

/-- each member has a reader, and this reads it back unless it is the version -/
theorem exists_reader (c : Claims) (r : Value → Option (Option Value))
    (hversion : ∀ v, c.version = some v → ReadsAs (byte '\x7d') readVersionClaim v.chars (r v))
    (m : String × Value) (hm : m ∈ c.members) :
    ∃ value, fields.lookup m.1 = some value ∧ ReadsAs (byte '\x7d') value m.2.chars
      (if m.1 = "tl_version" then r m.2 else some (some m.2)) := by
  have htext : ∀ (text : Option String) (v : Value), some v = text.map Value.string →
      ReadsTo (byte '\x7d') readTextClaim v.chars (some v) := by
    intro text v h
    obtain ⟨s, -, rfl⟩ := Option.map_eq_some_iff.mp h.symm
    exact readsTo_textClaim s _
  obtain ⟨name, v⟩ := m
  rw [members_eq_present] at hm
  have htable := mem_of_mem_present c.table (name, v) hm
  simp only [table, List.mem_cons, Prod.mk.injEq, List.not_mem_nil, or_false] at htable
  rcases htable with ⟨rfl, h⟩ | ⟨rfl, h⟩ | ⟨rfl, h⟩ | ⟨rfl, h⟩ | ⟨rfl, h⟩
  · exact ⟨readTextClaim, rfl, htext c.algorithm v h⟩
  · exact ⟨readTextClaim, rfl, htext c.kid v h⟩
  · exact ⟨readVersionClaim, rfl, hversion v h.symm⟩
  · exact ⟨readTextClaim, rfl, htext c.headers v h⟩
  · exact ⟨readTextClaim, rfl, htext c.jku v h⟩

/-! ## segments -/

theorem read?_render (c : Claims)
    (hversion : ∀ v, c.version = some v → ReadsTo (byte '\x7d') readVersionClaim v.chars (some v)) :
    read? (Bytes.ofText c.toValue.render) = some c := by
  have hreaders : ∀ m ∈ c.members, ∃ value, fields.lookup m.1 = some value ∧
      ReadsTo (byte '\x7d') value m.2.chars (some m.2) := by
    intro m hm
    obtain ⟨value, hlookup, hreads⟩ := exists_reader c (fun v => some (some v)) hversion m hm
    rw [ite_self] at hreads
    exact ⟨value, hlookup, hreads⟩
  rw [read?, toValue, document_object fields c.members (fun m => some m.2) (members_nodup c)
    hreaders, Option.map_some, ofMembers_members]

/-- **Claims that were written are read back.** -/
theorem decode_encode (c : Claims)
    (hversion : ∀ v, c.version = some v → ReadsTo (byte '\x7d') readVersionClaim v.chars (some v)) :
    decode c.encode = .ok c := by
  simp only [decode, encode, Base64.decode?_encode, read?_render c hversion]

theorem decode_encode_ofSigner (kid : String) (names : List String) (jku : Option String) :
    decode (ofSigner kid names jku).encode = .ok (ofSigner kid names jku) := by
  apply decode_encode
  intro v hv
  obtain rfl := Option.some.inj hv
  exact readsTo_versionClaim_string currentVersion

/-- claims whose version, if they have one, is determined by its text -/
def Kept (c : Claims) : Prop := ∀ v, c.version = some v → v ≠ .null ∧ v.Kept

/-- claims whose version is no deeper than a reader goes, which is one level less than it goes for
the claims as a whole -/
def Shallow (c : Claims) : Prop := ∀ v, c.version = some v → v.depth ≤ 126

theorem decode_encode_of_shallow {c : Claims} (hkept : c.Kept) (hshallow : c.Shallow) :
    decode c.encode = .ok c := by
  apply decode_encode
  intro v hv
  have hread := readsAs_versionClaim (hkept v hv).2 (hkept v hv).1
  rwa [if_pos (hshallow v hv)] at hread

theorem decode_encode_of_not_shallow {c : Claims} (hkept : c.Kept) (hdeep : ¬ c.Shallow) :
    decode c.encode = .error (.malformedSignature .headerJson) := by
  obtain ⟨v, hnot⟩ := Classical.not_forall.mp hdeep
  obtain ⟨hv, hdepth⟩ := Classical.not_imp.mp hnot
  have hmem : ("tl_version", v) ∈ c.members := by
    have htable : ("tl_version", some v) ∈ c.table := by
      rw [← hv, table]
      simp
    rw [members_eq_present]
    exact List.mem_filterMap.mpr ⟨_, htable, rfl⟩
  have hnone : read? (Bytes.ofText c.toValue.render) = none := by
    rw [read?, toValue, document_object_eq_none fields c.members _
      (exists_reader c (fun v => if v.depth ≤ 126 then some (some v) else none) fun v hv =>
        readsAs_versionClaim (hkept v hv).2 (hkept v hv).1) hmem
      ((if_pos rfl).trans (if_neg hdepth))]
    rfl
  simp only [decode, encode, Base64.decode?_encode, hnone]

theorem decode_eq_ok_iff (segment : String) (c : Claims) :
    decode segment = .ok c ↔
      ∃ json, Base64.decode? (Bytes.ofText segment) = some json ∧ read? json = some c := by
  unfold decode
  cases Base64.decode? (Bytes.ofText segment) with
  | none => exact iff_of_false (fun h => by cases h) fun ⟨_, h, _⟩ => by cases h
  | some json =>
    constructor
    · intro h
      refine ⟨json, rfl, ?_⟩
      dsimp only at h
      cases hread : read? json with
      | none =>
        rw [hread] at h
        cases h
      | some claims =>
        rw [hread] at h
        rw [Except.ok.inj h]
    · rintro ⟨json', hjson, hread⟩
      obtain rfl := Option.some.inj hjson
      dsimp only
      rw [hread]

theorem decode_eq_error_iff (segment : String) (e : Error) :
    decode segment = .error e ↔
      Base64.decode? (Bytes.ofText segment) = none ∧ e = .malformedSignature .headerEncoding ∨
      ∃ json, Base64.decode? (Bytes.ofText segment) = some json ∧ read? json = none ∧
        e = .malformedSignature .headerJson := by
  unfold decode
  cases Base64.decode? (Bytes.ofText segment) with
  | none => simp [eq_comm]
  | some json =>
    cases hread : read? json with
    | none => simp [hread, eq_comm]
    | some claims => simp [hread]

end RequestSigning.Claims
