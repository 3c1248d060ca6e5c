import RequestSigning.Proofs.Text.Utf8
import RequestSigning.SignedNames
import RequestSigning.Text.AsciiCase

/-!
# Names: parts, blanks and case

What happens to a name on its way into a token and out of it:

* `splitOn_append_cons`              a text is cut at every separator, part by part;
* `length_splitOn`                   there is one part more than there are separators;
* `trimChars_trimChars`              a trimmed text has nothing left to trim;
* `map_upperByte_eq_iff`             octets in capitals are equal exactly if the texts are equal up
                                     to case;
* `Listable`                         the names that a list of signed names can hold.  Reading a
                                     list gives such names only (`listable_of_mem_split`) and
                                     gives back those that were joined (`split_join`); a list of
                                     any texts is read text by text (`split_join_eq_flatMap`).
-/

namespace RequestSigning

namespace Text

/-! ## parts -/

theorem splitOn_of_not_mem (sep : Char) (cs : List Char) (h : sep ∉ cs) :
    splitOn sep cs = [cs] := by
  induction cs with
  | nil => rfl
  | cons c cs ih =>
    have hc : c ≠ sep := fun e => h (e ▸ List.mem_cons_self)
    rw [splitOn_cons_ne sep c cs hc, ih fun hs => h (List.mem_cons_of_mem c hs)]
    rfl

/-- every separator cuts, whatever stands before it -/
theorem splitOn_append_cons (sep : Char) (a b : List Char) :
    splitOn sep (a ++ sep :: b) = splitOn sep a ++ splitOn sep b := by
  induction a with
  | nil => exact splitOn_cons_self sep b
  | cons c a ih =>
    by_cases h : c = sep
    · rw [h, List.cons_append, splitOn_cons_self, splitOn_cons_self, ih, List.cons_append]
    · rw [List.cons_append, splitOn_cons_ne sep c _ h, splitOn_cons_ne sep c _ h, ih]
      cases hp : splitOn sep a with
      | nil => exact absurd hp (splitOn_ne_nil sep a)
      | cons part parts => rfl

theorem splitOn_append (sep : Char) (a b : List Char) (h : sep ∉ a) :
    splitOn sep (a ++ sep :: b) = a :: splitOn sep b := by
  rw [splitOn_append_cons, splitOn_of_not_mem sep a h, List.singleton_append]

theorem length_splitOn (sep : Char) (cs : List Char) :
    (splitOn sep cs).length = cs.count sep + 1 := by
  induction cs with
  | nil => rfl
  | cons c cs ih =>
    by_cases h : c = sep
    · subst h
      rw [splitOn_cons_self, List.length_cons, ih, List.count_cons_self]
    · rw [splitOn_cons_ne sep c cs h, List.length_modifyHead, ih, List.count_cons_of_ne h]

theorem not_mem_of_mem_splitOn (sep : Char) (cs part : List Char) (h : part ∈ splitOn sep cs) :
    sep ∉ part := by
  induction cs generalizing part with
  | nil =>
    rw [splitOn_nil, List.mem_singleton] at h
    exact h ▸ List.not_mem_nil
  | cons c cs ih =>
    by_cases hc : c = sep
    · rw [hc, splitOn_cons_self, List.mem_cons] at h
      rcases h with rfl | h
      · exact List.not_mem_nil
      · exact ih part h
    · rw [splitOn_cons_ne sep c cs hc] at h
      cases hp : splitOn sep cs with
      | nil => exact absurd hp (splitOn_ne_nil sep cs)
      | cons first parts =>
        rw [hp] at h ih
        rw [List.modifyHead_cons, List.mem_cons] at h
        rcases h with rfl | h
        · intro hm
          rcases List.mem_cons.mp hm with e | hm
          · exact hc e.symm
          · exact ih first List.mem_cons_self hm
        · exact ih part (List.mem_cons_of_mem first h)

/-- cutting brings in no characters -/
theorem mem_of_mem_splitOn (sep : Char) (cs part : List Char) (h : part ∈ splitOn sep cs) (c : Char)
    (hc : c ∈ part) : c ∈ cs := by
  induction cs generalizing part with
  | nil =>
    rw [splitOn_nil, List.mem_singleton] at h
    exact h ▸ hc
  | cons d cs ih =>
    by_cases hd : d = sep
    · rw [hd, splitOn_cons_self, List.mem_cons] at h
      rcases h with rfl | h
      · exact absurd hc List.not_mem_nil
      · exact List.mem_cons_of_mem d (ih part h hc)
    · rw [splitOn_cons_ne sep d cs hd] at h
      cases hp : splitOn sep cs with
      | nil => exact absurd hp (splitOn_ne_nil sep cs)
      | cons first parts =>
        rw [hp] at h ih
        rw [List.modifyHead_cons, List.mem_cons] at h
        rcases h with rfl | h
        · rcases List.mem_cons.mp hc with rfl | hc
          · exact List.mem_cons_self
          · exact List.mem_cons_of_mem d (ih first List.mem_cons_self hc)
        · exact List.mem_cons_of_mem d (ih part (List.mem_cons_of_mem first h) hc)

/-! ## blanks -/

theorem isBlank_head?_dropWhile (cs : List Char) (c : Char)
    (h : (cs.dropWhile isBlank).head? = some c) : isBlank c = false := by
  have hm := List.head?_dropWhile_not isBlank cs
  rw [h] at hm
  exact hm

theorem dropWhile_isBlank_eq_self (cs : List Char)
    (h : ∀ c, cs.head? = some c → isBlank c = false) : cs.dropWhile isBlank = cs := by
  cases cs with
  | nil => rfl
  | cons c cs => exact List.dropWhile_cons_of_neg (by rw [h c rfl]; exact Bool.false_ne_true)

theorem trimEnd_isPrefix (cs : List Char) : trimEnd cs <+: cs := by
  rw [← List.reverse_suffix, trimEnd, List.reverse_reverse]
  exact List.dropWhile_suffix isBlank

theorem mem_of_mem_trimChars (cs : List Char) (c : Char) (h : c ∈ trimChars cs) : c ∈ cs :=
  List.dropWhile_subset isBlank ((trimEnd_isPrefix _).subset h)

theorem trimChars_trimChars (cs : List Char) : trimChars (trimChars cs) = trimChars cs := by
  have hstart : (trimChars cs).dropWhile isBlank = trimChars cs := by
    apply dropWhile_isBlank_eq_self
    intro c hc
    obtain ⟨rest, hr⟩ := trimEnd_isPrefix (cs.dropWhile isBlank)
    apply isBlank_head?_dropWhile cs c
    rw [← hr, List.head?_append, show trimEnd _ = trimChars cs from rfl, hc]
    rfl
  have hend : (trimChars cs).reverse.dropWhile isBlank = (trimChars cs).reverse := by
    apply dropWhile_isBlank_eq_self
    intro c hc
    apply isBlank_head?_dropWhile (cs.dropWhile isBlank).reverse c
    rwa [trimChars, trimEnd, List.reverse_reverse] at hc
  show ((List.dropWhile isBlank (trimChars cs)).reverse.dropWhile isBlank).reverse = _
  rw [hstart, hend, List.reverse_reverse]

theorem trimChars_eq_self (cs : List Char) (h : ∀ c ∈ cs, isBlank c = false) :
    trimChars cs = cs := by
  have hstart : cs.dropWhile isBlank = cs := by
    apply dropWhile_isBlank_eq_self
    intro c hc
    exact h c (List.mem_of_mem_head? hc)
  have hend : cs.reverse.dropWhile isBlank = cs.reverse := by
    apply dropWhile_isBlank_eq_self
    intro c hc
    exact h c (List.mem_reverse.mp (List.mem_of_mem_head? hc))
  rw [trimChars, trimEnd, hstart, hend, List.reverse_reverse]

theorem trim_trim (s : String) : trim (trim s) = trim s := by
  rw [trim, toList_trim, trimChars_trimChars]
  rfl

/-! ## case -/

/-- a statement on ASCII characters is checked for each of their numbers -/
theorem forall_ascii (P : Char → Prop) (h : ∀ n < 128, P (Char.ofNat n)) (c : Char)
    (hc : c.toNat < 128) : P c := Char.ofNat_toNat c ▸ h c.toNat hc

theorem toLower_of_not_ascii (c : Char) (h : 128 ≤ c.toNat) : c.toLower = c := by
  have hz : ¬ (c.val ≥ 'A'.val ∧ c.val ≤ 'Z'.val) := by
    rintro ⟨-, hle⟩
    have : c.toNat ≤ 90 := UInt32.le_iff_toNat_le.mp hle
    omega
  exact dif_neg hz

theorem toUpper_of_not_ascii (c : Char) (h : 128 ≤ c.toNat) : c.toUpper = c := by
  have hz : ¬ ('a'.val ≤ c.val ∧ c.val ≤ 'z'.val) := by
    rintro ⟨-, hle⟩
    have : c.toNat ≤ 122 := UInt32.le_iff_toNat_le.mp hle
    omega
  exact dif_neg hz

theorem toUpper_toLower (c : Char) : c.toLower.toUpper = c.toUpper := by
  by_cases h : c.toNat < 128
  · exact forall_ascii (fun c => c.toLower.toUpper = c.toUpper) (by decide) c h
  · rw [toLower_of_not_ascii c (Nat.not_lt.mp h)]

theorem toLower_toUpper (c : Char) : c.toUpper.toLower = c.toLower := by
  by_cases h : c.toNat < 128
  · exact forall_ascii (fun c => c.toUpper.toLower = c.toLower) (by decide) c h
  · rw [toUpper_of_not_ascii c (Nat.not_lt.mp h)]

theorem upperByte_of_le (b : UInt8) (h : 128 ≤ b.toNat) : upperByte b = b := by
  apply if_neg
  rintro ⟨-, hle⟩
  have : b.toNat ≤ 122 := UInt8.le_iff_toNat_le.mp hle
  omega

/-- capitals of octets are the octets of capitals -/
theorem map_upperByte (cs : List Char) :
    (Bytes.ofChars cs).map upperByte = Bytes.ofChars (cs.map Char.toUpper) := by
  induction cs with
  | nil => rfl
  | cons c cs ih =>
    rw [Bytes.ofChars_cons, List.map_append, ih, List.map_cons, Bytes.ofChars_cons]
    congr 1
    by_cases h : c.toNat < 128
    · exact forall_ascii (fun c => (String.utf8EncodeChar c).map upperByte
        = String.utf8EncodeChar c.toUpper) (by decide) c h
    · have hc := Nat.not_lt.mp h
      rw [toUpper_of_not_ascii c hc]
      have hid : ∀ b ∈ String.utf8EncodeChar c, upperByte b = id b := fun b hb =>
        upperByte_of_le b (le_of_mem_utf8EncodeChar c hc b hb)
      rw [List.map_congr_left hid, List.map_id]

theorem map_toUpper_eq_iff (a b : List Char) :
    a.map Char.toUpper = b.map Char.toUpper ↔ a.map Char.toLower = b.map Char.toLower := by
  constructor
  · intro h
    have := congrArg (List.map Char.toLower) h
    simpa only [List.map_map, Function.comp_def, toLower_toUpper] using this
  · intro h
    have := congrArg (List.map Char.toUpper) h
    simpa only [List.map_map, Function.comp_def, toUpper_toLower] using this

/-- two texts are equal up to case exactly if they have the same octets in capitals -/
theorem map_upperByte_eq_iff (a b : String) :
    (Bytes.ofText a).map upperByte = (Bytes.ofText b).map upperByte ↔ EqIgnoringCase a b := by
  rw [Bytes.ofText, Bytes.ofText, map_upperByte, map_upperByte]
  constructor
  · intro h
    exact congrArg String.ofList ((map_toUpper_eq_iff _ _).mp (Bytes.ofChars_inj h))
  · intro h
    have e := congrArg String.toList h
    rw [toList_fold, toList_fold] at e
    rw [(map_toUpper_eq_iff _ _).mpr e]

end Text

/-! ## signed names -/

namespace SignedNames

/-- a name that a list of signed names can hold: trimmed, not empty, without a comma -/
structure Listable (name : String) : Prop where
  trimmed : Text.trimChars name.toList = name.toList
  ne_nil : name.toList ≠ []
  no_comma : ',' ∉ name.toList

theorem Listable.trim_eq {name : String} (h : Listable name) : Text.trim name = name := by
  rw [Text.trim, h.trimmed, String.ofList_toList]

theorem listable_of_mem_split (value name : String) (h : name ∈ split value) : Listable name := by
  obtain ⟨cs, hcs, rfl⟩ := List.mem_map.mp h
  obtain ⟨hmem, hne⟩ := List.mem_filter.mp hcs
  obtain ⟨part, hpart, rfl⟩ := List.mem_map.mp hmem
  refine ⟨?_, ?_, ?_⟩
  · rw [String.toList_ofList, Text.trimChars_trimChars]
  · rw [String.toList_ofList]
    exact of_decide_eq_true hne
  · rw [String.toList_ofList]
    intro hc
    exact Text.not_mem_of_mem_splitOn ',' _ part hpart (Text.mem_of_mem_trimChars part ',' hc)

theorem mem_of_mem_split (value name : String) (h : name ∈ split value) (c : Char)
    (hc : c ∈ name.toList) : c ∈ value.toList := by
  obtain ⟨cs, hcs, rfl⟩ := List.mem_map.mp h
  obtain ⟨part, hpart, rfl⟩ := List.mem_map.mp (List.mem_filter.mp hcs).1
  rw [String.toList_ofList] at hc
  exact Text.mem_of_mem_splitOn ',' _ part hpart c (Text.mem_of_mem_trimChars part c hc)

theorem join_singleton (name : String) : join [name] = name := String.ofList_toList

theorem join_cons_cons (name next : String) (names : List String) :
    join (name :: next :: names) = name ++ "," ++ join (next :: names) := by
  apply String.toList_inj.mp
  rw [String.toList_append, String.toList_append, List.append_assoc]
  simp only [join, String.toList_ofList]
  rfl

theorem split_append (a b : String) : split (a ++ "," ++ b) = split a ++ split b := by
  have hchars : (a ++ "," ++ b).toList = a.toList ++ ',' :: b.toList := by
    rw [String.toList_append, String.toList_append, List.append_assoc]
    rfl
  rw [split, hchars, Text.splitOn_append_cons, List.map_append, List.filter_append,
    List.map_append]
  rfl

/-- a list of any texts is read text by text -/
theorem split_join_eq_flatMap (names : List String) : split (join names) = names.flatMap split := by
  induction names with
  | nil => rfl
  | cons name names ih =>
    cases names with
    | nil => rw [join_singleton, List.flatMap_singleton]
    | cons next names => rw [join_cons_cons, split_append, ih, ← List.flatMap_cons]

theorem Listable.split_eq {name : String} (h : Listable name) : split name = [name] := by
  have hkept : [name.toList].filter (· ≠ []) = [name.toList] :=
    List.filter_eq_self.mpr (List.forall_mem_singleton.mpr (decide_eq_true h.ne_nil))
  rw [split, Text.splitOn_of_not_mem ',' _ h.no_comma, List.map_singleton, h.trimmed, hkept,
    List.map_singleton, String.ofList_toList]

/-- the names that were joined are read back -/
theorem split_join (names : List String) (h : ∀ name ∈ names, Listable name) :
    split (join names) = names := by
  rw [split_join_eq_flatMap, List.flatMap_def,
    List.map_congr_left fun name hname => (h name hname).split_eq, ← List.flatMap_def,
    List.flatMap_singleton']

end SignedNames

end RequestSigning
