import RequestSigning.KeySet
import RequestSigning.Proofs.Json.Records
import RequestSigning.Proofs.Key.Public

/-!
# Key sets: publishing and looking up

`WebKey.readsTo_read` reads back a web key, whatever texts stand in its parameters, and
`KeySet.ofDocument_render` a whole set.  So whoever looks a name up in a document finds what was
published under it: `FirstNamed` says which key that is, and `KeySet.resolve_published` what becomes
of it.  A key that was written with `PublicKey.toWebKey` is imported as the key that it was.
-/

namespace RequestSigning

open Json

/-! ## web keys -/

namespace WebKey

/-- the parameters by name -/
def table (k : WebKey) : List (String × Option String) :=
  [("kty", some k.kty), ("kid", k.kid), ("crv", k.crv), ("x", k.x), ("y", k.y), ("d", k.d),
    ("alg", k.algorithm), ("use", k.use)]

theorem members_eq_map (k : WebKey) :
    k.members = (present k.table).map fun m => (m.1, .string m.2) := by
  have h : ∀ entry : String × Option String,
      ((entry.2.map (entry.1, ·)).map fun m : String × String => (m.1, Value.string m.2))
        = entry.2.map fun s => (entry.1, Value.string s) := by
    intro entry
    rw [Option.map_map]
    rfl
  rw [present, List.map_filterMap]
  simp only [h]
  rfl

theorem table_names_nodup (k : WebKey) : (k.table.map (·.1)).Nodup := by
  show ["kty", "kid", "crv", "x", "y", "d", "alg", "use"].Nodup
  decide

theorem members_nodup (k : WebKey) : (k.members.map (·.1)).Nodup := by
  rw [members_eq_map, List.map_map]
  exact (table_names_nodup k).sublist (present_names_sublist k.table)

/-- the texts of members are found again under their names -/
theorem ofMembers?_members (k : WebKey) :
    ofMembers? (k.members.map fun m => (m.1, m.2.text?)) = some k := by
  have hlookup : ∀ name, lookup? (k.members.map fun m => (m.1, m.2.text?)) name
      = (k.table.lookup name).join := by
    intro name
    rw [lookup?, lookup_map, members_eq_map, lookup_map, lookup_present _ (table_names_nodup k)]
    cases (k.table.lookup name).join <;> rfl
  rw [ofMembers?, hlookup, hlookup, hlookup, hlookup, hlookup, hlookup, hlookup, hlookup]
  rfl

theorem readsTo_readRequired (s : String) (close : UInt8) :
    ReadsTo close readRequired (Value.string s).chars (some s) := by
  intro b rest hb
  rw [readRequired, readsTo_readText s b rest hb]
  rfl

/-- each member has a reader, and this reads it back -/
theorem exists_reader (k : WebKey) (m : String × Value) (hm : m ∈ k.members) :
    ∃ value, fields.lookup m.1 = some value ∧
      ReadsTo (byte '\x7d') value m.2.chars m.2.text? := by
  rw [members_eq_map] at hm
  obtain ⟨⟨name, s⟩, hmem, rfl⟩ := List.mem_map.mp hm
  have hoptional : ReadsTo (byte '\x7d') readOptional (Value.string s).chars (some s) :=
    (readsTo_readText s).optional_string
  have htable := mem_of_mem_present k.table (name, s) hmem
  simp only [table, List.mem_cons, Prod.mk.injEq, List.not_mem_nil, or_false] at htable
  rcases htable with ⟨rfl, -⟩ | ⟨rfl, -⟩ | ⟨rfl, -⟩ | ⟨rfl, -⟩ | ⟨rfl, -⟩ | ⟨rfl, -⟩ | ⟨rfl, -⟩ |
    ⟨rfl, -⟩
  · exact ⟨readRequired, rfl, readsTo_readRequired s _⟩
  all_goals exact ⟨readOptional, rfl, hoptional⟩

/-- **A written web key is read back.** -/
theorem readsTo_read (k : WebKey) (close : UInt8) : ReadsTo close read k.toValue.chars k := by
  intro b rest _
  have hread := record_object fields k.members (fun m => m.2.text?) (members_nodup k)
    (exists_reader k) (b :: rest)
  simp only [read, toValue, hread, ofMembers?_members, Option.bind_eq_bind, Option.bind_some]

end WebKey

/-- the first of some keys that have a name -/
def FirstNamed (keys : List WebKey) (kid : String) (key : WebKey) : Prop :=
  ∃ before after, keys = before ++ key :: after ∧ key.kid = some kid ∧
    ∀ other ∈ before, other.kid ≠ some kid

namespace KeySet

/-! ## documents -/

theorem read?_render (keys : KeySet) : read? (Bytes.ofText keys.toValue.render) = some keys := by
  have hkeys : ReadsTo (byte '\x7d') (readArray WebKey.read)
      (Value.array (keys.keys.map WebKey.toValue)).chars keys.keys := by
    refine readsTo_readArray WebKey.read WebKey.toValue keys.keys
      (fun key _ => key.readsTo_read _) fun key _ => ?_
    obtain ⟨body, hbody⟩ := exists_object_eq key.members
    exact ⟨byte '\x7b', body, hbody, by decide, by decide⟩
  have hnames : ["keys"].Nodup := by decide
  have hdocument : document (record fields) (Bytes.ofText keys.toValue.render)
      = some [("keys", keys.keys)] :=
    document_object fields [("keys", .array (keys.keys.map WebKey.toValue))] (fun _ => keys.keys)
      hnames (List.forall_mem_singleton.mpr ⟨_, rfl, hkeys⟩)
  rw [read?, hdocument]
  rfl

/-- **A written key set is read back.** -/
theorem ofDocument_render (keys : KeySet) :
    ofDocument (Bytes.ofText keys.toValue.render) = .ok keys := by
  rw [ofDocument, read?_render]

/-! ## looking up -/

theorem find_eq_ok_iff (keys : KeySet) (kid : String) (key : WebKey) :
    keys.find kid = .ok key ↔ FirstNamed keys.keys kid key := by
  have hfirst : keys.keys.find? (fun k => k.kid = some kid) = some key
      ↔ FirstNamed keys.keys kid key := by
    rw [List.find?_eq_some_iff_append]
    simp only [decide_eq_true_eq, Bool.not_eq_true', decide_eq_false_iff_not]
    constructor
    · rintro ⟨hkid, before, after, hkeys, hbefore⟩
      exact ⟨before, after, hkeys, hkid, hbefore⟩
    · rintro ⟨before, after, hkeys, hkid, hbefore⟩
      exact ⟨hkid, before, after, hkeys, hbefore⟩
  rw [← hfirst, find]
  cases keys.keys.find? fun k => k.kid = some kid with
  | none => exact iff_of_false (fun h => by cases h) fun h => by cases h
  | some key' =>
    constructor
    · intro h
      exact congrArg some (Except.ok.inj h)
    · intro h
      exact congrArg Except.ok (Option.some.inj h)

theorem find_eq_error_iff (keys : KeySet) (kid : String) (e : Error) :
    keys.find kid = .error e ↔
      e = .noMatchingKey kid ∧ ∀ key ∈ keys.keys, key.kid ≠ some kid := by
  have hnone : keys.keys.find? (fun k => k.kid = some kid) = none
      ↔ ∀ key ∈ keys.keys, key.kid ≠ some kid := by
    rw [List.find?_eq_none]
    simp only [decide_eq_true_eq, ne_eq]
  rw [← hnone, find]
  cases keys.keys.find? fun k => k.kid = some kid with
  | none => exact ⟨fun h => ⟨(Except.error.inj h).symm, rfl⟩, fun h => by rw [h.1]⟩
  | some key => exact iff_of_false (fun h => by cases h) fun h => by cases h.2

/-! ## resolving -/

theorem resolve_of_firstNamed {κ : Type} [VerifyingKey κ] {keys : KeySet} {kid : String}
    {key : WebKey} (h : FirstNamed keys.keys kid key) :
    (keys.resolve kid : Except Error κ) = if key.isP521 then VerifyingKey.ofWebKey key
      else .error (.unsupportedKey kid key.kty (key.crv.getD "")) := by
  rw [resolve, (find_eq_ok_iff keys kid key).mpr h, ok_bind]

theorem isP521_eq_false {key : WebKey} (h : ¬ (key.kty = "EC" ∧ key.crv = some "P-521")) :
    key.isP521 = false := by
  rw [WebKey.isP521, ← Bool.not_eq_true, Bool.and_eq_true, decide_eq_true_eq, decide_eq_true_eq]
  exact h

/-- a key that has the name is found, and what is wrong with it is another error -/
theorem resolve_eq_noMatchingKey_iff (keys : KeySet) (kid : String) :
    (keys.resolve kid : Except Error PublicKey) = .error (.noMatchingKey kid) ↔
      ∀ key ∈ keys.keys, key.kid ≠ some kid := by
  constructor
  · intro h
    rcases (bind_eq_error_iff _ _ _).mp h with hfind | ⟨key, -, hkey⟩
    · exact ((find_eq_error_iff keys kid _).mp hfind).2
    · split at hkey
      · obtain ⟨fault, hfault⟩ := PublicKey.failsOnKey_ofWebKey key _ hkey
        cases hfault
      · cases hkey
  · intro h
    exact (bind_eq_error_iff _ _ _).mpr
      (Or.inl ((find_eq_error_iff keys kid _).mpr ⟨rfl, h⟩))

/-- **What is published is found.**  The document of a key set is read as the same key set.  In what
has been read, a name finds the first key that was published under it; a public key that was
exported under the name is resolved as this key, and a key of another type or curve is refused with
both.  A name is without a match exactly if no key was published under it. -/
theorem resolve_published (keys : KeySet) :
    ∃ served, ofDocument (Bytes.ofText keys.toValue.render) = .ok served ∧ served = keys ∧
      ∀ kid,
        (∀ key, served.find kid = .ok key ↔ FirstNamed keys.keys kid key) ∧
        (∀ key, FirstNamed keys.keys kid key →
          (∀ (k : PublicKey) (name : String), key = k.toWebKey name → served.resolve kid = .ok k) ∧
          (¬ (key.kty = "EC" ∧ key.crv = some "P-521") →
            (served.resolve kid : Except Error PublicKey)
              = .error (.unsupportedKey kid key.kty (key.crv.getD "")))) ∧
        (served.find kid = .error (.noMatchingKey kid) ↔
          ∀ key ∈ keys.keys, key.kid ≠ some kid) ∧
        ((served.resolve kid : Except Error PublicKey) = .error (.noMatchingKey kid) ↔
          ∀ key ∈ keys.keys, key.kid ≠ some kid) := by
  refine ⟨keys, ofDocument_render keys, rfl, fun kid => ⟨find_eq_ok_iff keys kid, ?_, ?_,
    resolve_eq_noMatchingKey_iff keys kid⟩⟩
  · intro key hfirst
    refine ⟨?_, ?_⟩
    · rintro k name rfl
      rw [resolve_of_firstNamed hfirst]
      exact PublicKey.ofWebKey_toWebKey k name
    · intro hforeign
      rw [resolve_of_firstNamed hfirst, isP521_eq_false hforeign]
      rfl
  · rw [find_eq_error_iff]
    exact and_iff_right rfl

/-! A key of another type under a name with signs that are escaped, a key without a name, a key of
another curve, and a name that is published twice. -/

/-- a key of another type or curve, or one without coordinates -/
def bareKey (kty : String) (crv kid : Option String) : WebKey where
  kty := kty
  kid := kid
  crv := crv
  x := none
  y := some ""
  d := none
  algorithm := some "\x00\"\\😀"
  use := none

def publishedKeys : KeySet :=
  ⟨[bareKey "RSA" none (some "\n\"é😀\\"), bareKey "EC" (some "P-521") none,
    bareKey "EC" (some "P-256") (some ""), (PublicKey.mk Curve.generator).toWebKey "k",
    bareKey "RSA" none (some "k")]⟩

theorem resolve_publishedKeys :
    ∃ served, ofDocument (Bytes.ofText publishedKeys.toValue.render) = .ok served ∧
      served.resolve "k" = .ok (PublicKey.mk Curve.generator) ∧
      (served.resolve "\n\"é😀\\" : Except Error PublicKey)
        = .error (.unsupportedKey "\n\"é😀\\" "RSA" "") ∧
      (served.resolve "" : Except Error PublicKey) = .error (.unsupportedKey "" "EC" "P-256") ∧
      (served.resolve "K" : Except Error PublicKey) = .error (.noMatchingKey "K") := by
  obtain ⟨served, hserved, -, h⟩ := resolve_published publishedKeys
  have hk : FirstNamed publishedKeys.keys "k" ((PublicKey.mk Curve.generator).toWebKey "k") :=
    ⟨publishedKeys.keys.take 3, publishedKeys.keys.drop 4, rfl, rfl, by decide⟩
  have hrsa : FirstNamed publishedKeys.keys "\n\"é😀\\"
      (bareKey "RSA" none (some "\n\"é😀\\")) :=
    ⟨[], publishedKeys.keys.drop 1, rfl, rfl, by decide⟩
  have hempty : FirstNamed publishedKeys.keys "" (bareKey "EC" (some "P-256") (some "")) :=
    ⟨publishedKeys.keys.take 2, publishedKeys.keys.drop 3, rfl, rfl, by decide⟩
  obtain ⟨hexported, -⟩ := (h "k").2.1 _ hk
  obtain ⟨-, htype⟩ := (h "\n\"é😀\\").2.1 _ hrsa
  obtain ⟨-, hcurve⟩ := (h "").2.1 _ hempty
  obtain ⟨-, -, -, hnone⟩ := h "K"
  exact ⟨served, hserved, hexported _ "k" rfl, htype (by decide), hcurve (by decide),
    hnone.mpr (by decide)⟩

end KeySet

end RequestSigning
