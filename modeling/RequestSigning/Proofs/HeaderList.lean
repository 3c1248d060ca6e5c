import RequestSigning.Proofs.HeaderTable

/-!
# Header tables and plain lists of headers

The index of a header table is there for speed alone.  `HeaderList` does what a table does on a
plain list of headers, by searching it from the front, and knows no index.

* `HeaderTable.InStep`     the index has one position for each header, and it is the right one;
* `HeaderTable.ReadsAs`    every look-up in a table gives what it gives in a list.

Both hold after any sequence of operations, and table and list answer each operation alike
(`edits_eq`).  One operation keeps a table `Coherent` and does to its headers what it does to a list
(`edit_eq`); the rest is an induction over the sequence (`runEdits_related`).
-/

namespace RequestSigning

/-! ## operations -/

/-- an operation that changes a collection of headers -/
inductive Edit where
  | new
  | insert (name : String) (value : Bytes)
  | insertNew (name : String) (value : Bytes)
  | ofList (headers : List (String × Bytes))

/-- what an operation answers: the value that it has replaced, if any, or why it is refused -/
abbrev Reply := Except Error (Option Bytes)

/-- the answers of a sequence of operations, and what is there behind the last one -/
def runEdits {σ : Type} (edit : σ → Edit → Reply × σ) (s : σ) : List Edit → List Reply × σ
  | [] => ([], s)
  | e :: edits =>
    let (reply, s) := edit s e
    let (replies, s) := runEdits edit s edits
    (reply :: replies, s)

/-- related states stay related, and give the same answers, if each operation sees to it -/
theorem runEdits_related {σ τ : Type} (R : σ → τ → Prop) {edit : σ → Edit → Reply × σ}
    {edit' : τ → Edit → Reply × τ}
    (hstep : ∀ s u, R s u → ∀ e, (edit s e).1 = (edit' u e).1 ∧ R (edit s e).2 (edit' u e).2)
    (edits : List Edit) {s : σ} {u : τ} (h : R s u) :
    (runEdits edit s edits).1 = (runEdits edit' u edits).1 ∧
      R (runEdits edit s edits).2 (runEdits edit' u edits).2 := by
  induction edits generalizing s u with
  | nil => exact ⟨rfl, h⟩
  | cons e edits ih =>
    obtain ⟨hreply, hnext⟩ := hstep s u h e
    obtain ⟨hreplies, hlast⟩ := ih hnext
    exact ⟨List.cons_eq_cons.mpr ⟨hreply, hreplies⟩, hlast⟩

/-! ## plain lists -/

namespace HeaderList

/-- a header has a name, blanks around both and case aside -/
def Named (name : String) (header : String × Bytes) : Prop :=
  Text.EqIgnoringCase (Text.trim header.1) (Text.trim name)

instance (name : String) (header : String × Bytes) : Decidable (Named name header) :=
  inferInstanceAs (Decidable (Text.EqIgnoringCase _ _))

/-- the value of the first header with a name -/
def get? (l : List (String × Bytes)) (name : String) : Option Bytes :=
  (l.find? fun header => Named name header).map (·.2)

/-- the list with a value for a name: in place of the first header with the name, or at the end -/
def insert : List (String × Bytes) → String → Bytes → List (String × Bytes)
  | [], name, value => [(Text.trim name, value)]
  | header :: rest, name, value =>
    if Named name header then (Text.trim name, value) :: rest
    else header :: insert rest name value

/-- the given names with their values; the first name that is not there is the error -/
def select (l : List (String × Bytes)) (names : List String) :
    Except Error (List (String × Bytes)) :=
  match names.find? fun name => (get? l name).isNone with
  | some name => .error (.missingSignedHeader name)
  | none => .ok (names.map fun name => (name, (get? l name).getD []))

def edit (l : List (String × Bytes)) : Edit → Reply × List (String × Bytes)
  | .new => (.ok none, [])
  | .insert name value => (.ok (get? l name), insert l name value)
  | .insertNew name value =>
    if (get? l name).isSome then
      (.error (.invalidArgument (.duplicateHeader (Text.trim name))), l)
    else (.ok none, l ++ [(Text.trim name, value)])
  | .ofList headers => (.ok none, headers.foldl (fun l header => insert l header.1 header.2) [])

def edits (edits : List Edit) : List Reply × List (String × Bytes) := runEdits edit [] edits

section
variable {l : List (String × Bytes)} {name : String}

theorem get?_eq_none (h : ∀ header ∈ l, ¬ Named name header) : get? l name = none := by
  rw [get?, List.find?_eq_none.mpr fun header hm => by simpa using h header hm, Option.map_none]

theorem insert_eq_append (h : ∀ header ∈ l, ¬ Named name header) (value : Bytes) :
    insert l name value = l ++ [(Text.trim name, value)] := by
  induction l with
  | nil => rfl
  | cons header rest ih =>
    rw [insert, if_neg (h header List.mem_cons_self),
      ih fun other hm => h other (List.mem_cons_of_mem header hm), List.cons_append]

/-! ### the position of the first header with a name -/

variable {i : Nat} {found : String × Bytes} (hi : l[i]? = some found) (hnamed : Named name found)
  (hfirst : ∀ j < i, ∀ header, l[j]? = some header → ¬ Named name header)
include hi hnamed hfirst

theorem get?_eq_some : get? l name = some found.2 := by
  induction l generalizing i with
  | nil => cases hi
  | cons header rest ih =>
    cases i with
    | zero =>
      obtain rfl : header = found := Option.some.inj hi
      simp only [get?, List.find?_cons, decide_eq_true hnamed, Option.map_some]
    | succ i =>
      have hhead : ¬ Named name header := hfirst 0 (Nat.succ_pos i) header rfl
      simp only [get?, List.find?_cons, decide_eq_false hhead]
      exact ih hi fun j hj other hother => hfirst (j + 1) (Nat.succ_lt_succ hj) other hother

theorem insert_eq_set (value : Bytes) : insert l name value = l.set i (Text.trim name, value) := by
  induction l generalizing i with
  | nil => cases hi
  | cons header rest ih =>
    cases i with
    | zero =>
      obtain rfl : header = found := Option.some.inj hi
      rw [insert, if_pos hnamed, List.set_cons_zero]
    | succ i =>
      have hhead : ¬ Named name header := hfirst 0 (Nat.succ_pos i) header rfl
      rw [insert, if_neg hhead, List.set_cons_succ,
        ih hi fun j hj other hother => hfirst (j + 1) (Nat.succ_lt_succ hj) other hother]

end

end HeaderList

/-! ## tables -/

namespace HeaderTable

/-- an operation that is refused leaves the table as it was -/
def edit (t : HeaderTable) : Edit → Reply × HeaderTable
  | .new => (.ok none, empty)
  | .insert name value => (.ok (t.exchange name value).1, (t.exchange name value).2)
  | .insertNew name value =>
    match t.insertNew name value with
    | .error e => (.error e, t)
    | .ok t => (.ok none, t)
  | .ofList headers => (.ok none, ofList headers)

/-- a sequence of operations on a new table -/
def edits (edits : List Edit) : List Reply × HeaderTable := runEdits edit empty edits

/-- the index is in step with the headers, so that a position in it is always there -/
structure InStep (t : HeaderTable) : Prop where
  size_index : t.index.size = t.entries.size
  lt_size : ∀ (k : String) (i : Nat), t.index[k]? = some i → i < t.entries.size
  index_name : ∀ (i : Nat) (header : String × Bytes), t.entries[i]? = some header →
    t.index[Text.fold header.1]? = some i
  name_index : ∀ (k : String) (i : Nat) (header : String × Bytes), t.index[k]? = some i →
    t.entries[i]? = some header → Text.fold header.1 = k
  trimmed : ∀ header ∈ t.toList, Text.trim header.1 = header.1
  distinct : t.toList.Pairwise fun a b => ¬ Text.EqIgnoringCase a.1 b.1

/-- a table reads like a list -/
structure ReadsAs (t : HeaderTable) (l : List (String × Bytes)) : Prop where
  toList_eq : t.toList = l
  names_eq : t.names = l.map (·.1)
  size_eq : t.size = l.length
  isEmpty_eq : t.isEmpty = l.isEmpty
  get?_eq : ∀ name, t.get? name = HeaderList.get? l name
  contains_eq : ∀ name, t.contains name = (HeaderList.get? l name).isSome
  select_eq : ∀ names, t.select names = HeaderList.select l names

/-! ### what each operation keeps -/

/-- the index gives the position of each key, the names are trimmed, and there are as many keys as
headers -/
structure Coherent (t : HeaderTable) : Prop where
  indexed : Indexed t
  trimmed : ∀ header ∈ t.toList, Text.trim header.1 = header.1
  size_index : t.index.size = t.entries.size

theorem coherent_empty : Coherent empty where
  indexed := indexed_empty
  trimmed := fun _ h => absurd h List.not_mem_nil
  size_index := Std.TreeMap.size_emptyc

section
variable {t : HeaderTable} (ht : Coherent t)
include ht

theorem Coherent.insert (name : String) (value : Bytes) : Coherent (t.insert name value) where
  indexed := indexed_insert ht.indexed name value
  trimmed := by
    intro header hm
    cases hname : t.index[key name]? with
    | some i =>
      rw [insert_of_some t name value i hname, toList, Array.toList_setIfInBounds] at hm
      rcases List.mem_or_eq_of_mem_set hm with hm | rfl
      · exact ht.trimmed header hm
      · exact Text.trim_trim name
    | none =>
      rw [insert_of_none t name value hname, toList, Array.toList_push, List.mem_append,
        List.mem_singleton] at hm
      rcases hm with hm | rfl
      · exact ht.trimmed header hm
      · exact Text.trim_trim name
  size_index := by
    cases hname : t.index[key name]? with
    | some i =>
      rw [insert_of_some t name value i hname]
      exact ht.size_index.trans (Array.size_setIfInBounds).symm
    | none =>
      have hnew : ¬ t.index.contains (key name) = true := by
        rw [Std.TreeMap.contains_eq_isSome_getElem?, hname]
        exact Bool.false_ne_true
      rw [insert_of_none t name value hname]
      show (t.index.insert (key name) t.entries.size).size = (t.entries.push _).size
      rw [Std.TreeMap.size_insert, if_neg hnew, ht.size_index, Array.size_push]

/-- the only header with the name that the index knows at a position -/
theorem Coherent.exists_first {name : String} {i : Nat} (h : t.index[key name]? = some i) :
    ∃ found, t.toList[i]? = some found ∧ HeaderList.Named name found ∧
      ∀ j < i, ∀ header, t.toList[j]? = some header → ¬ HeaderList.Named name header := by
  obtain ⟨found, hfound, hkey⟩ := (ht.indexed _ i).mp h
  refine ⟨found, by rw [toList, Array.getElem?_toList, hfound], hkey, ?_⟩
  intro j hj header hheader hnamed
  rw [toList, Array.getElem?_toList] at hheader
  have hindex := (ht.indexed (key name) j).mpr ⟨header, hheader, hnamed⟩
  exact Nat.ne_of_lt hj (Option.some.inj (hindex.symm.trans h))

theorem Coherent.not_named {name : String} (h : t.index[key name]? = none) :
    ∀ header ∈ t.toList, ¬ HeaderList.Named name header := by
  intro header hm hnamed
  obtain ⟨i, hi⟩ := List.mem_iff_getElem?.mp hm
  rw [toList, Array.getElem?_toList] at hi
  have hindex := (ht.indexed (key name) i).mpr ⟨header, hi, hnamed⟩
  rw [h] at hindex
  cases hindex

theorem Coherent.get?_eq (name : String) : t.get? name = HeaderList.get? t.toList name := by
  cases hname : t.index[key name]? with
  | some i =>
    obtain ⟨found, hi, hnamed, hfirst⟩ := ht.exists_first hname
    rw [HeaderList.get?_eq_some hi hnamed hfirst, get?, hname, Option.bind_some,
      ← Array.getElem?_toList, ← toList, hi, Option.map_some]
  | none =>
    rw [HeaderList.get?_eq_none (ht.not_named hname), get?, hname, Option.bind_none]

theorem Coherent.contains_eq (name : String) :
    t.contains name = (HeaderList.get? t.toList name).isSome := by
  rw [contains, Std.TreeMap.contains_eq_isSome_getElem?]
  cases hname : t.index[key name]? with
  | some i =>
    obtain ⟨found, hi, hnamed, hfirst⟩ := ht.exists_first hname
    rw [HeaderList.get?_eq_some hi hnamed hfirst]
    rfl
  | none =>
    rw [HeaderList.get?_eq_none (ht.not_named hname)]
    rfl

theorem Coherent.toList_insert (name : String) (value : Bytes) :
    (t.insert name value).toList = HeaderList.insert t.toList name value := by
  cases hname : t.index[key name]? with
  | some i =>
    obtain ⟨found, hi, hnamed, hfirst⟩ := ht.exists_first hname
    rw [HeaderList.insert_eq_set hi hnamed hfirst, insert_of_some t name value i hname, toList,
      Array.toList_setIfInBounds]
    rfl
  | none =>
    rw [HeaderList.insert_eq_append (ht.not_named hname), insert_of_none t name value hname, toList,
      Array.toList_push]
    rfl

omit ht in
/-- the value that an insertion replaces is the one that a look-up finds -/
theorem exchange_fst (name : String) (value : Bytes) :
    (t.exchange name value).1 = t.get? name := by
  rw [exchange, get?]
  cases t.index[key name]? <;> rfl

theorem Coherent.insertAll (headers : List (String × Bytes)) :
    Coherent (t.insertAll headers) ∧ (t.insertAll headers).toList
      = headers.foldl (fun l header => HeaderList.insert l header.1 header.2) t.toList := by
  induction headers generalizing t with
  | nil => exact ⟨ht, rfl⟩
  | cons header headers ih =>
    obtain ⟨hcoherent, htoList⟩ := ih (ht.insert header.1 header.2)
    rw [insertAll_cons, List.foldl_cons, ← ht.toList_insert]
    exact ⟨hcoherent, htoList⟩

theorem Coherent.select_eq (names : List String) :
    t.select names = HeaderList.select t.toList names := by
  unfold HeaderList.select
  induction names with
  | nil => rfl
  | cons name names ih =>
    rw [select, List.mapM_cons, ← select, ih, getSigned, ht.get?_eq]
    cases hname : HeaderList.get? t.toList name with
    | none =>
      rw [List.find?_cons_of_pos (by rw [hname]; rfl)]
      rfl
    | some value =>
      rw [List.find?_cons_of_neg (by rw [hname]; exact Bool.false_ne_true), List.map_cons, hname]
      cases names.find? fun name => (HeaderList.get? t.toList name).isNone <;> rfl

/-- **An operation does to a table what it does to the list of its headers.** -/
theorem Coherent.edit_eq (e : Edit) :
    (t.edit e).1 = (HeaderList.edit t.toList e).1 ∧ Coherent (t.edit e).2 ∧
      (t.edit e).2.toList = (HeaderList.edit t.toList e).2 := by
  cases e with
  | new => exact ⟨rfl, coherent_empty, rfl⟩
  | insert name value =>
    refine ⟨?_, ht.insert name value, ht.toList_insert name value⟩
    exact congrArg Except.ok ((exchange_fst name value).trans (ht.get?_eq name))
  | insertNew name value =>
    unfold edit HeaderList.edit insertNew
    simp only [ht.contains_eq]
    by_cases hname : (HeaderList.get? t.toList name).isSome = true
    · rw [if_pos hname, if_pos hname]
      exact ⟨rfl, ht, rfl⟩
    · rw [if_neg hname, if_neg hname]
      have hnew : ∀ header ∈ t.toList, ¬ HeaderList.Named name header := by
        apply ht.not_named
        rw [← Option.not_isSome_iff_eq_none, ← Std.TreeMap.contains_eq_isSome_getElem?]
        show ¬ t.contains name = true
        rwa [ht.contains_eq]
      exact ⟨rfl, ht.insert name value,
        (ht.toList_insert name value).trans (HeaderList.insert_eq_append hnew value)⟩
  | ofList headers =>
    obtain ⟨hcoherent, htoList⟩ := coherent_empty.insertAll headers
    exact ⟨rfl, hcoherent, htoList⟩

theorem Coherent.trimmed_of_getElem? {i : Nat} {header : String × Bytes}
    (h : t.entries[i]? = some header) : Text.trim header.1 = header.1 :=
  ht.trimmed header (List.mem_of_getElem? (Array.getElem?_toList.trans h))

theorem Coherent.index_name {i : Nat} {header : String × Bytes}
    (h : t.entries[i]? = some header) : t.index[Text.fold header.1]? = some i :=
  (ht.indexed _ i).mpr ⟨header, h, congrArg Text.fold (ht.trimmed_of_getElem? h)⟩

theorem Coherent.inStep : t.InStep where
  size_index := ht.size_index
  lt_size := fun _ _ h => ht.indexed.lt_size h
  index_name := fun _ _ h => ht.index_name h
  name_index := by
    intro k i header hk h
    obtain ⟨other, hother, hkey⟩ := (ht.indexed k i).mp hk
    obtain rfl := Option.some.inj (h.symm.trans hother)
    rw [← hkey, key, ht.trimmed_of_getElem? h]
  trimmed := ht.trimmed
  distinct := by
    rw [List.pairwise_iff_getElem]
    intro i j hi hj hlt heq
    have hposition : ∀ k (hk : k < t.toList.length), t.index[Text.fold t.toList[k].1]? = some k :=
      fun k hk => ht.index_name (Array.getElem?_toList.symm.trans (List.getElem?_eq_getElem hk))
    have hsame := hposition j hj
    rw [← heq, hposition i hi] at hsame
    exact Nat.ne_of_lt hlt (Option.some.inj hsame)

theorem Coherent.readsAs : t.ReadsAs t.toList where
  toList_eq := rfl
  names_eq := rfl
  size_eq := Array.length_toList.symm
  isEmpty_eq := Array.isEmpty_toList.symm
  get?_eq := ht.get?_eq
  contains_eq := ht.contains_eq
  select_eq := ht.select_eq

end

/-! ### sequences of operations -/

/-- **Header tables are lists of headers with an index.**  Take any sequence of operations, from a
new table on.  Behind it the index gives each header its position under its small-letter name and
holds nothing else, and names are trimmed and differ by more than case.  The answers of all
operations, and all that can be read from the table, are those of a plain list, in which a new name
comes at the end and a known one is replaced where it stands. -/
theorem edits_eq (edits : List Edit) :
    (HeaderTable.edits edits).2.InStep ∧
      (HeaderTable.edits edits).1 = (HeaderList.edits edits).1 ∧
      (HeaderTable.edits edits).2.ReadsAs (HeaderList.edits edits).2 := by
  have hstep : ∀ t l, Coherent t ∧ t.toList = l → ∀ e, (t.edit e).1 = (HeaderList.edit l e).1 ∧
      Coherent (t.edit e).2 ∧ (t.edit e).2.toList = (HeaderList.edit l e).2 := by
    rintro t l ⟨ht, rfl⟩ e
    exact ht.edit_eq e
  obtain ⟨hreplies, hcoherent, htoList⟩ :=
    runEdits_related (fun t l => Coherent t ∧ t.toList = l) hstep edits ⟨coherent_empty, rfl⟩
  exact ⟨hcoherent.inStep, hreplies, htoList ▸ hcoherent.readsAs⟩

end HeaderTable

end RequestSigning
