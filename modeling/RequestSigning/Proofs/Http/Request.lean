import RequestSigning.Http.Request
import RequestSigning.Proofs.HeaderTable
import RequestSigning.Proofs.Payload

/-!
# HTTP requests: the values of a name

A name may occur many times in a request.  `values` lists what is there under a name, in order; the
two views that others have of it are

* `get?_eq_head?`         the first of them, where a single value is asked for;
* `lastValue?_headers`    the last of them, where all fields go into a table.

Setting a field leaves one value under its name and does not touch other names (`values_set_self`,
`values_set_of_ne`); setting it again replaces that value (`set_set`).  Neither a path nor a value
of a request holds a line feed.
-/

namespace RequestSigning.Http

/-! ## names -/

theorem isTokenChar_lt (c : Char) (h : isTokenChar c = true) : c.toNat < 128 := by
  rw [isTokenChar, Bool.or_eq_true] at h
  rcases h with h | h
  · change (decide (c.val ≥ 'A'.val ∧ c.val ≤ 'Z'.val) ||
      (decide (c.val ≥ 'a'.val) && decide (c.val ≤ 'z'.val)) ||
      (decide (c.val ≥ '0'.val) && decide (c.val ≤ '9'.val))) = true at h
    simp only [Bool.or_eq_true, Bool.and_eq_true, decide_eq_true_eq] at h
    have hbound : c.val ≤ 'z'.val := by
      rcases h with (⟨-, h⟩ | ⟨-, h⟩) | ⟨-, h⟩
      · exact UInt32.le_trans h (by decide)
      · exact h
      · exact UInt32.le_trans h (by decide)
    exact Nat.lt_of_le_of_lt (UInt32.le_iff_toNat_le.mp hbound) (by decide)
  · have hall : ("!#$%&'*+-.^_\x60|~".toList.all fun d => d.toNat < 128) = true := by decide
    exact of_decide_eq_true (List.all_eq_true.mp hall c (List.contains_iff_mem.mp h))

theorem isBlank_of_isTokenChar (c : Char) (h : isTokenChar c = true) : Text.isBlank c = false :=
  Text.forall_ascii (fun c => isTokenChar c = true → Text.isBlank c = false) (by decide) c
    (isTokenChar_lt c h) h

theorem isTokenChar_toLower (c : Char) (h : isTokenChar c.toLower = true) :
    isTokenChar c = true := by
  by_cases hc : c.toNat < 128
  · exact Text.forall_ascii (fun c => isTokenChar c.toLower = true → isTokenChar c = true)
      (by decide) c hc h
  · rwa [Text.toLower_of_not_ascii c (Nat.not_lt.mp hc)] at h

theorem isToken_iff (s : String) :
    isToken s = true ↔ s.toList ≠ [] ∧ ∀ c ∈ s.toList, isTokenChar c = true := by
  rw [isToken, Bool.and_eq_true, List.all_eq_true, Bool.not_eq_true', List.isEmpty_eq_false_iff]

theorem trim_of_isToken (s : String) (h : isToken s = true) : Text.trim s = s := by
  obtain ⟨-, hall⟩ := (isToken_iff s).mp h
  rw [Text.trim, Text.trimChars_eq_self _ fun c hc => isBlank_of_isTokenChar c (hall c hc),
    String.ofList_toList]

theorem FieldName.isToken (name : FieldName) : Http.isToken name.text = true := by
  have h := name.valid
  rw [isFieldName, Bool.and_eq_true, Bool.and_eq_true] at h
  exact h.1.1

theorem FieldName.fold_text (name : FieldName) : Text.fold name.text = name.text := by
  have h := name.valid
  rw [isFieldName, Bool.and_eq_true, Bool.and_eq_true, List.all_eq_true] at h
  have hid : ∀ c ∈ name.text.toList, c.toLower = id c := fun c hc => of_decide_eq_true (h.1.2 c hc)
  rw [Text.fold, List.map_congr_left hid, List.map_id, String.ofList_toList]

theorem FieldName.key_text (name : FieldName) : HeaderTable.key name.text = name.text := by
  rw [HeaderTable.key, trim_of_isToken name.text name.isToken, name.fold_text]

theorem FieldName.ext_text {a b : FieldName} (h : a.text = b.text) : a = b := by
  cases a
  cases b
  obtain rfl : _ = _ := h
  rfl

theorem FieldName.ofText?_eq_some (s : String) (name : FieldName)
    (h : FieldName.ofText? s = some name) : Text.fold s = name.text := by
  unfold FieldName.ofText? at h
  by_cases hs : isFieldName (Text.fold s) = true
  · rw [dif_pos hs] at h
    rw [← Option.some.inj h]
  · rw [dif_neg hs] at h
    cases h

theorem FieldName.isToken_of_ofText? (s : String) (name : FieldName)
    (h : FieldName.ofText? s = some name) : Http.isToken s = true := by
  have hname := name.isToken
  rw [← FieldName.ofText?_eq_some s name h] at hname
  obtain ⟨hne, hall⟩ := (isToken_iff _).mp hname
  rw [Text.toList_fold] at hne hall
  refine (isToken_iff s).mpr ⟨fun hnil => hne (congrArg (List.map Char.toLower) hnil), ?_⟩
  exact fun c hc => isTokenChar_toLower c (hall _ (List.mem_map_of_mem hc))

/-- a text that is the name of a field has this name as its key -/
theorem FieldName.key_of_ofText? (s : String) (name : FieldName)
    (h : FieldName.ofText? s = some name) : HeaderTable.key s = name.text := by
  rw [HeaderTable.key, trim_of_isToken s (isToken_of_ofText? s name h),
    FieldName.ofText?_eq_some s name h]

/-! ## values of a name -/

def isNamed (name : FieldName) (field : Field) : Bool := field.1 = name

theorem isNamed_iff (name : FieldName) (field : Field) :
    isNamed name field = true ↔ field.1 = name := decide_eq_true_iff

namespace Request

def values (r : Request) (name : FieldName) : List FieldValue :=
  (r.fields.filter (isNamed name)).map (·.2)

theorem get?_eq_head? (r : Request) (name : FieldName) : r.get? name = (r.values name).head? := by
  rw [values, List.head?_map, List.head?_filter]
  rfl

theorem lastValue?_headers (r : Request) (s : String) (name : FieldName)
    (hs : HeaderTable.key s = name.text) :
    HeaderTable.lastValue? r.headers s = (r.values name).getLast?.map FieldValue.octets := by
  unfold headers values
  induction r.fields with
  | nil => rfl
  | cons field fields ih =>
    rw [List.map_cons, HeaderTable.lastValue?_cons, ih, FieldName.key_text, hs]
    by_cases h : field.1 = name
    · rw [if_pos (congrArg FieldName.text h), List.filter_cons_of_pos ((isNamed_iff _ _).mpr h),
        List.map_cons, List.getLast?_cons]
      cases (List.map (·.2) (fields.filter (isNamed name))).getLast? <;> rfl
    · have hnot : ¬ isNamed name field = true := fun e => h ((isNamed_iff _ _).mp e)
      rw [if_neg fun e => h (FieldName.ext_text e), Option.or_none, List.filter_cons_of_neg hnot]

theorem filter_setField_of_ne (name other : FieldName) (value : FieldValue) (h : other ≠ name)
    (fields : List Field) :
    (setField name value fields).filter (isNamed other) = fields.filter (isNamed other) := by
  have hname : ∀ field : Field, field.1 = name → ¬ isNamed other field = true := by
    intro field hf e
    exact h (((isNamed_iff _ _).mp e).symm.trans hf)
  induction fields with
  | nil => exact List.filter_cons_of_neg (hname (name, value) rfl)
  | cons field fields ih =>
    unfold setField
    by_cases hf : field.1 = name
    · rw [if_pos hf, List.filter_cons_of_neg (hname (name, value) rfl),
        List.filter_cons_of_neg (hname field hf), List.filter_filter]
      apply List.filter_congr
      intro f _
      by_cases hnamed : isNamed other f = true
      · have hne : f.1 ≠ name := fun e => hname f e hnamed
        rw [hnamed, decide_eq_true hne, Bool.and_self]
      · rw [Bool.not_eq_true] at hnamed
        rw [hnamed, Bool.false_and]
    · rw [if_neg hf, List.filter_cons, List.filter_cons, ih]

theorem values_set_of_ne (r : Request) (name other : FieldName) (value : FieldValue)
    (h : other ≠ name) : (r.set name value).values other = r.values other := by
  rw [values, values, set, filter_setField_of_ne name other value h]

theorem filter_setField_self (name : FieldName) (value : FieldValue) (fields : List Field) :
    (setField name value fields).filter (isNamed name) = [(name, value)] := by
  have hname : isNamed name (name, value) = true := (isNamed_iff _ _).mpr rfl
  induction fields with
  | nil => exact List.filter_cons_of_pos hname
  | cons field fields ih =>
    unfold setField
    by_cases hf : field.1 = name
    · rw [if_pos hf, List.filter_cons_of_pos hname, List.filter_filter]
      refine congrArg _ (List.filter_eq_nil_iff.mpr ?_)
      intro f _ hboth
      rw [Bool.and_eq_true] at hboth
      exact of_decide_eq_true hboth.2 ((isNamed_iff _ _).mp hboth.1)
    · have hnot : ¬ isNamed name field = true := fun e => hf ((isNamed_iff _ _).mp e)
      rw [if_neg hf, List.filter_cons_of_neg hnot, ih]

/-- the one value of a field that has been set -/
theorem values_set_self (r : Request) (name : FieldName) (value : FieldValue) :
    (r.set name value).values name = [value] := by
  rw [values, set, filter_setField_self]
  rfl

/-- of two values set under one name the second stays -/
theorem setField_setField (name : FieldName) (value other : FieldValue) (fields : List Field) :
    setField name other (setField name value fields) = setField name other fields := by
  induction fields with
  | nil => exact if_pos rfl
  | cons field fields ih =>
    simp only [setField]
    by_cases hf : field.1 = name
    · rw [if_pos hf, if_pos hf, setField, if_pos rfl, List.filter_filter]
      simp only [Bool.and_self]
    · rw [if_neg hf, if_neg hf, setField, if_neg hf, ih]

theorem set_set (r : Request) (name : FieldName) (value other : FieldValue) :
    (r.set name value).set name other = r.set name other := by
  simp only [set, setField_setField]

end Request

theorem FieldValue.ext_octets {a b : FieldValue} (h : a.octets = b.octets) : a = b := by
  cases a
  cases b
  obtain rfl : _ = _ := h
  rfl

/-! ## line feeds -/

theorem FieldValue.newline_not_mem (value : FieldValue) : Payload.newline ∉ value.octets := by
  intro h
  exact absurd (List.all_eq_true.mp value.valid _ h) (by decide)

namespace Target

theorem newline_not_mem_splitPath {cs : List Char} {path : String} {query : Option String}
    (h : splitPath cs = some (path, query)) : '\n' ∉ path.toList := by
  have hall : path.toList.all isPathChar = true := by
    unfold splitPath at h
    dsimp only at h
    split at h
    · rename_i hall
      split at h
      · split at h
        · obtain ⟨rfl, -⟩ := Prod.mk.inj (Option.some.inj h)
          rw [String.toList_ofList]
          exact hall
        · cases h
      · obtain ⟨rfl, -⟩ := Prod.mk.inj (Option.some.inj h)
        rw [String.toList_ofList]
        exact hall
    · cases h
  intro hm
  exact absurd (List.all_eq_true.mp hall '\n' hm) (by decide)

theorem newline_not_mem_ofAuthority? {cs : List Char} {t : Target} (h : ofAuthority? cs = some t) :
    '\n' ∉ t.path.toList := by
  unfold ofAuthority? at h
  split at h
  · dsimp only at h
    split at h
    · obtain ⟨⟨path, query⟩, hsplit, h⟩ := Option.bind_eq_some_iff.mp h
      obtain rfl := Option.some.inj h
      show '\n' ∉ (if path = "" then "/" else path).toList
      by_cases hempty : path = ""
      · rw [if_pos hempty]
        decide
      · rw [if_neg hempty]
        exact newline_not_mem_splitPath hsplit
    · cases h
  · split at h
    · obtain rfl := Option.some.inj h
      exact List.not_mem_nil
    · cases h

/-- the path of a target that has been read holds no line feed -/
theorem newline_not_mem_path {s : String} {t : Target} (h : ofText? s = some t) :
    '\n' ∉ t.path.toList := by
  unfold ofText? at h
  split at h
  · cases h
  · split at h
    · cases h
    · obtain rfl := Option.some.inj h
      show '\n' ∉ "*".toList
      decide
    · obtain ⟨⟨path, query⟩, hsplit, rfl⟩ := Option.map_eq_some_iff.mp h
      exact newline_not_mem_splitPath hsplit
    · exact newline_not_mem_ofAuthority? h

end Target

theorem Request.newline_not_mem_path {method target : String} {fields : List (String × Bytes)}
    {body : Bytes} {r : Request} (h : Request.build? method target fields body = some r) :
    '\n' ∉ r.target.path.toList := by
  obtain ⟨m, -, h⟩ := Option.bind_eq_some_iff.mp h
  obtain ⟨t, htarget, h⟩ := Option.bind_eq_some_iff.mp h
  obtain ⟨fields, -, hlast⟩ := Option.bind_eq_some_iff.mp h
  obtain rfl := Option.some.inj hlast
  exact Target.newline_not_mem_path htarget

end RequestSigning.Http
