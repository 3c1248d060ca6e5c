import RequestSigning.HeaderTable
import RequestSigning.Proofs.Except
import RequestSigning.Proofs.Text.Names

/-!
# Header tables: what a look-up finds

A table is `Indexed` when its index gives the position of each key and of no other.  The empty
table is, and inserting keeps it so (`indexed_insert`); then

* `get?_insert`     a look-up finds the value that was inserted last under the name;
* `get?_ofList`     in the table of a list it finds the last value of the name (`lastValue?`);
* `select_eq_ok_iff`  a selection succeeds exactly if all its names are found, and gives them
                    with their values.

`toList_insertNew` is for tables without overwriting: a new name comes at the end.
-/

namespace RequestSigning.HeaderTable

/-! ## keys -/

theorem key_trim (name : String) : key (Text.trim name) = key name := by
  rw [key, Text.trim_trim]
  rfl

theorem key_eq_iff (a b : String) :
    key a = key b ↔ Text.EqIgnoringCase (Text.trim a) (Text.trim b) := Iff.rfl

theorem get?_congr (t : HeaderTable) {a b : String} (h : key a = key b) : t.get? a = t.get? b := by
  rw [get?, get?, h]

theorem get?_trim (t : HeaderTable) (name : String) : t.get? (Text.trim name) = t.get? name :=
  get?_congr t (key_trim name)

/-- the index gives the position of each key -/
def Indexed (t : HeaderTable) : Prop :=
  ∀ k i, t.index[k]? = some i ↔ ∃ e, t.entries[i]? = some e ∧ key e.1 = k

theorem indexed_empty : Indexed empty := by
  intro k i
  show (∅ : Std.TreeMap String Nat)[k]? = some i ↔ ∃ e, (#[] : Array (String × Bytes))[i]? = _ ∧ _
  rw [Std.TreeMap.getElem?_emptyc, Array.getElem?_empty]
  constructor
  · intro h
    cases h
  · rintro ⟨e, h, -⟩
    cases h

/-! ## inserting -/

theorem insert_of_some (t : HeaderTable) (name : String) (value : Bytes) (i : Nat)
    (h : t.index[key name]? = some i) :
    t.insert name value
      = { t with entries := t.entries.setIfInBounds i (Text.trim name, value) } := by
  rw [insert, exchange, h]

theorem insert_of_none (t : HeaderTable) (name : String) (value : Bytes)
    (h : t.index[key name]? = none) :
    t.insert name value
      = { entries := t.entries.push (Text.trim name, value)
          index := t.index.insert (key name) t.entries.size } := by
  rw [insert, exchange, h]

theorem getElem?_index_insert (index : Std.TreeMap String Nat) (k other : String) (i : Nat) :
    (index.insert k i)[other]? = if k = other then some i else index[other]? := by
  rw [Std.TreeMap.getElem?_insert]
  by_cases h : k = other
  · rw [if_pos h, if_pos (Std.compare_eq_iff_eq.mpr h)]
  · rw [if_neg h, if_neg fun e => h (Std.compare_eq_iff_eq.mp e)]

section
variable {t : HeaderTable} (ht : Indexed t)
include ht

theorem Indexed.lt_size {k : String} {i : Nat} (h : t.index[k]? = some i) : i < t.entries.size := by
  obtain ⟨e, he, -⟩ := (ht k i).mp h
  exact (Array.getElem?_eq_some_iff.mp he).1

theorem Indexed.ne_of_ne {j k : String} (hne : j ≠ k) {m i : Nat} (hm : t.index[j]? = some m)
    (hi : t.index[k]? = some i) : m ≠ i := by
  rintro rfl
  obtain ⟨e, he, hj⟩ := (ht j m).mp hm
  obtain ⟨e', he', hk⟩ := (ht k m).mp hi
  obtain rfl := Option.some.inj (he.symm.trans he')
  exact hne (hj.symm.trans hk)

theorem Indexed.contains_iff (name : String) :
    t.contains name = true ↔ ∃ e ∈ t.toList, key e.1 = key name := by
  rw [contains, Std.TreeMap.contains_eq_isSome_getElem?, Option.isSome_iff_exists]
  constructor
  · rintro ⟨i, hi⟩
    obtain ⟨e, he, hkey⟩ := (ht (key name) i).mp hi
    exact ⟨e, (Array.mem_of_getElem? he).val, hkey⟩
  · rintro ⟨e, he, hkey⟩
    obtain ⟨i, hi⟩ := List.mem_iff_getElem?.mp he
    exact ⟨i, (ht (key name) i).mpr ⟨e, Array.getElem?_toList.symm.trans hi, hkey⟩⟩

/-- **Inserting keeps the index in step with the entries.** -/
theorem indexed_insert (name : String) (value : Bytes) : Indexed (t.insert name value) := by
  intro k i
  cases hname : t.index[key name]? with
  | some m =>
    have hm := ht.lt_size hname
    rw [insert_of_some t name value m hname]
    show t.index[k]? = some i ↔ _
    simp only [Array.getElem?_setIfInBounds]
    by_cases hi : m = i
    · -- the entry that is replaced keeps its key
      subst hi
      rw [if_pos rfl, if_pos hm, ht k m]
      obtain ⟨e, he, hkey⟩ := (ht (key name) m).mp hname
      constructor
      · rintro ⟨e', he', rfl⟩
        obtain rfl := Option.some.inj (he.symm.trans he')
        exact ⟨_, rfl, (key_trim name).trans hkey.symm⟩
      · rintro ⟨e', he', rfl⟩
        obtain rfl := Option.some.inj he'
        exact ⟨e, he, hkey.trans (key_trim name).symm⟩
    · rw [if_neg hi]
      exact ht k i
  | none =>
    rw [insert_of_none t name value hname]
    show (t.index.insert (key name) t.entries.size)[k]? = some i ↔ _
    rw [getElem?_index_insert, Array.getElem?_push]
    by_cases hi : i = t.entries.size
    · subst hi
      rw [if_pos rfl]
      constructor
      · intro h
        by_cases hk : key name = k
        · exact ⟨_, rfl, (key_trim name).trans hk⟩
        · rw [if_neg hk] at h
          exact absurd (ht.lt_size h) (Nat.lt_irrefl _)
      · rintro ⟨e, he, rfl⟩
        obtain rfl := Option.some.inj he
        exact if_pos (key_trim name).symm
    · rw [if_neg hi]
      by_cases hk : key name = k
      · -- the new key has one position only
        rw [if_pos hk]
        constructor
        · intro h
          exact absurd (Option.some.inj h).symm hi
        · rintro ⟨e, he, rfl⟩
          have hfound := (ht (key e.1) i).mpr ⟨e, he, rfl⟩
          rw [← hk, hname] at hfound
          cases hfound
      · rw [if_neg hk]
        exact ht k i

/-- **A look-up finds what was inserted last under the name.** -/
theorem get?_insert (name : String) (value : Bytes) (other : String) :
    (t.insert name value).get? other
      = if key name = key other then some value else t.get? other := by
  cases hname : t.index[key name]? with
  | some m =>
    have hm := ht.lt_size hname
    rw [insert_of_some t name value m hname, get?, get?]
    simp only [Array.getElem?_setIfInBounds]
    by_cases hk : key name = key other
    · rw [if_pos hk, ← hk, hname, Option.bind_some, if_pos rfl, if_pos hm]
      rfl
    · rw [if_neg hk]
      cases hother : t.index[key other]? with
      | none => rfl
      | some i => rw [Option.bind_some, Option.bind_some, if_neg (ht.ne_of_ne hk hname hother)]
  | none =>
    rw [insert_of_none t name value hname, get?, get?, getElem?_index_insert]
    by_cases hk : key name = key other
    · rw [if_pos hk, if_pos hk, Option.bind_some, Array.getElem?_push, if_pos rfl]
      rfl
    · rw [if_neg hk, if_neg hk]
      cases hother : t.index[key other]? with
      | none => rfl
      | some i =>
        have hi := ht.lt_size hother
        rw [Option.bind_some, Option.bind_some, Array.getElem?_push, if_neg (Nat.ne_of_lt hi)]

end

theorem toList_insertNew (t s : HeaderTable) (name : String) (value : Bytes)
    (h : t.insertNew name value = .ok s) : s.toList = t.toList ++ [(Text.trim name, value)] := by
  unfold insertNew at h
  by_cases hc : t.contains name = true
  · rw [if_pos hc] at h
    cases h
  · rw [if_neg hc] at h
    obtain rfl := Except.ok.inj h
    have hnone : t.index[key name]? = none := by
      rw [← Option.not_isSome_iff_eq_none, ← Std.TreeMap.contains_eq_isSome_getElem?]
      exact hc
    rw [insert_of_none t name value hnone]
    exact Array.toList_push

/-! ## the last value of a name -/

/-- the value of the last header with a name, blanks at its ends and case aside -/
def lastValue? (headers : List (String × Bytes)) (name : String) : Option Bytes :=
  (headers.reverse.find? fun h =>
    decide (Text.EqIgnoringCase (Text.trim h.1) (Text.trim name))).map (·.2)

theorem lastValue?_nil (name : String) : lastValue? [] name = none := rfl

theorem lastValue?_cons (header : String × Bytes) (headers : List (String × Bytes))
    (name : String) :
    lastValue? (header :: headers) name
      = (lastValue? headers name).or
          (if key header.1 = key name then some header.2 else none) := by
  rw [lastValue?, List.reverse_cons, List.find?_append, Option.map_or, ← lastValue?]
  refine congrArg _ ?_
  by_cases h : key header.1 = key name
  · have hd := decide_eq_true ((key_eq_iff _ _).mp h)
    simp only [if_pos h, List.find?_cons, hd, Option.map_some]
  · have hd := decide_eq_false fun e => h ((key_eq_iff _ _).mpr e)
    simp only [if_neg h, List.find?_cons, hd, List.find?_nil, Option.map_none]

theorem lastValue?_append (headers more : List (String × Bytes)) (name : String) :
    lastValue? (headers ++ more) name = (lastValue? more name).or (lastValue? headers name) := by
  induction headers with
  | nil => rw [List.nil_append, lastValue?_nil, Option.or_none]
  | cons header headers ih =>
    rw [List.cons_append, lastValue?_cons, lastValue?_cons, ih, Option.or_assoc]

theorem lastValue?_eq_none {headers : List (String × Bytes)} {name : String}
    (h : ∀ header ∈ headers, key header.1 ≠ key name) : lastValue? headers name = none := by
  induction headers with
  | nil => rfl
  | cons header headers ih =>
    rw [lastValue?_cons, ih fun other hother => h other (List.mem_cons_of_mem header hother),
      if_neg (h header List.mem_cons_self), Option.or_none]

theorem mem_of_lastValue? {headers : List (String × Bytes)} {name : String} {value : Bytes}
    (h : lastValue? headers name = some value) : value ∈ headers.map (·.2) := by
  obtain ⟨header, hfound, rfl⟩ := Option.map_eq_some_iff.mp h
  exact List.mem_map_of_mem (List.mem_reverse.mp (List.mem_of_find?_eq_some hfound))

/-- in a table with more headers a look-up finds their last value, or what was there before -/
theorem get?_insertAll (t : HeaderTable) (ht : Indexed t) (headers : List (String × Bytes))
    (name : String) :
    (t.insertAll headers).get? name = (lastValue? headers name).or (t.get? name) := by
  induction headers generalizing t with
  | nil => rw [insertAll_nil, lastValue?_nil, Option.none_or]
  | cons header headers ih =>
    rw [insertAll_cons, ih _ (indexed_insert ht header.1 header.2),
      get?_insert ht header.1 header.2 name, lastValue?_cons, Option.or_assoc]
    refine congrArg _ ?_
    by_cases h : key header.1 = key name
    · rw [if_pos h, if_pos h, Option.some_or]
    · rw [if_neg h, if_neg h, Option.none_or]

theorem get?_empty (name : String) : empty.get? name = none := by
  show ((∅ : Std.TreeMap String Nat)[key name]?).bind _ = none
  rw [Std.TreeMap.getElem?_emptyc, Option.bind_none]

/-- **The table of a list holds the last value of each name.** -/
theorem get?_ofList (headers : List (String × Bytes)) (name : String) :
    (ofList headers).get? name = lastValue? headers name := by
  rw [ofList, get?_insertAll empty indexed_empty, get?_empty, Option.or_none]

/-! ## selecting -/

theorem getSigned_eq_ok_iff (t : HeaderTable) (name : String) (header : String × Bytes) :
    t.getSigned name = .ok header ↔ header.1 = name ∧ t.get? header.1 = some header.2 := by
  unfold getSigned
  constructor
  · intro h
    cases hv : t.get? name with
    | none =>
      rw [hv] at h
      cases h
    | some value =>
      rw [hv] at h
      obtain rfl := Except.ok.inj h
      exact ⟨rfl, hv⟩
  · rintro ⟨rfl, hv⟩
    rw [hv]

/-- **A selection gives the names with their values, if all of them are there.** -/
theorem select_eq_ok_iff (t : HeaderTable) (names : List String)
    (headers : List (String × Bytes)) :
    t.select names = .ok headers ↔
      headers.map (·.1) = names ∧ ∀ h ∈ headers, t.get? h.1 = some h.2 := by
  rw [select, mapM_eq_ok_iff]
  induction headers generalizing names with
  | nil =>
    cases names with
    | nil => exact iff_of_true rfl ⟨rfl, fun h hm => absurd hm List.not_mem_nil⟩
    | cons name names =>
      exact iff_of_false (List.cons_ne_nil _ _) fun h => List.cons_ne_nil _ _ h.1.symm
  | cons header headers ih =>
    cases names with
    | nil =>
      exact iff_of_false (fun h => List.cons_ne_nil _ _ h.symm) fun h => List.cons_ne_nil _ _ h.1
    | cons name names =>
      rw [List.map_cons, List.map_cons, List.map_cons, List.cons_eq_cons, List.cons_eq_cons, ih,
        getSigned_eq_ok_iff, List.forall_mem_cons]
      constructor
      · rintro ⟨⟨hname, hv⟩, hnames, hall⟩
        exact ⟨⟨hname, hnames⟩, hv, hall⟩
      · rintro ⟨⟨hname, hnames⟩, hv, hall⟩
        exact ⟨⟨hname, hv⟩, hnames, hall⟩

theorem getSigned_congr {t s : HeaderTable} {name : String} (h : t.get? name = s.get? name) :
    t.getSigned name = s.getSigned name := by
  rw [getSigned, getSigned, h]

theorem select_congr {t s : HeaderTable} (names : List String)
    (h : ∀ name ∈ names, t.get? name = s.get? name) : t.select names = s.select names :=
  mapM_congr _ _ names fun name hname => getSigned_congr (h name hname)

theorem exists_select (t : HeaderTable) (names : List String)
    (h : ∀ name ∈ names, ∃ value, t.get? name = some value) :
    ∃ headers, t.select names = .ok headers := by
  refine exists_mapM_eq_ok fun name hname => ?_
  obtain ⟨value, hvalue⟩ := h name hname
  exact ⟨(name, value), (getSigned_eq_ok_iff t name (name, value)).mpr ⟨rfl, hvalue⟩⟩

end RequestSigning.HeaderTable
