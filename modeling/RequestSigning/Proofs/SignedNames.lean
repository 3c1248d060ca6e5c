import RequestSigning.Proofs.Signer

/-!
# Signed names: what is written is what is read

The list of signed names is a text with commas between them (`join_eq_intercalate`).  Nothing in it
is escaped, and a reader trims the names and drops the empty ones.  So some lists of names are not
read back; `split_join_eq_iff` says that the others are those of `Listable` names.

* `signable_iff`          a signer refuses just the names that no list could hold;
* `fault?_eq_none_iff`    it takes the headers of its calls if their names are such and differ;
* `split_inverse_join`    then its list is read as their names, and whatever has been read from a
                          text is read again from its join.
-/

namespace RequestSigning

namespace Text

theorem mem_dropWhile_isBlank {cs : List Char} {c : Char} (h : c ∈ cs) (hc : isBlank c = false) :
    c ∈ cs.dropWhile isBlank := by
  rw [← List.takeWhile_append_dropWhile (p := isBlank) (l := cs)] at h
  rcases List.mem_append.mp h with hm | hm
  · have hblank := List.all_eq_true.mp List.all_takeWhile c hm
    exact absurd (hc.symm.trans hblank) Bool.false_ne_true
  · exact hm

/-- trimming takes away blank characters only -/
theorem mem_trimChars {cs : List Char} {c : Char} (h : c ∈ cs) (hc : isBlank c = false) :
    c ∈ trimChars cs := by
  have hstart := mem_dropWhile_isBlank h hc
  exact List.mem_reverse.mpr (mem_dropWhile_isBlank (List.mem_reverse.mpr hstart) hc)

end Text

/-! ## lists of names -/

namespace SignedNames

theorem join_eq_intercalate (names : List String) : join names = ",".intercalate names := by
  induction names with
  | nil => rw [join_nil, String.intercalate_nil]
  | cons name names ih =>
    cases names with
    | nil => rw [join_singleton, String.intercalate_singleton]
    | cons next names => rw [join_cons_cons, String.intercalate_cons_cons, ih]

/-- **Those lists are read back whose names are trimmed, not empty and without a comma.** -/
theorem split_join_eq_iff (names : List String) :
    split (join names) = names ↔ ∀ name ∈ names, Listable name := by
  constructor
  · intro h name hname
    rw [← h] at hname
    exact listable_of_mem_split _ name hname
  · exact split_join names

/-- what has been read is read again from its join -/
theorem split_join_split (value : String) : split (join (split value)) = split value :=
  (split_join_eq_iff _).mpr (listable_of_mem_split value)

end SignedNames

/-! ## the names of a signer -/

namespace Signer

/-- **A name can be signed exactly if a list can hold it, trimmed.** -/
theorem signable_iff (name : String) : Signable name ↔ SignedNames.Listable (Text.trim name) := by
  constructor
  · exact Signable.listable
  · rintro ⟨-, hne, hcomma⟩
    rw [Text.toList_trim] at hne hcomma
    exact ⟨hne, fun hm => hcomma (Text.mem_trimChars hm (by decide))⟩

section
variable (kid : String) (calls : List Call)

/-- a signer has no fault exactly if the headers of its calls can be signed together -/
theorem fault?_eq_none_iff :
    ((new kid).applyAll calls).fault? = none ↔ Admissible (added calls) := by
  cases latched_applyAll_new kid calls with
  | clean hfault hadmissible => exact iff_of_true hfault hadmissible
  | faulty fault hfault hfirst =>
    refine iff_of_false ?_ hfirst.not_admissible
    rw [hfault]
    exact Option.some_ne_none _

theorem names_of_no_fault (hfault : ((new kid).applyAll calls).fault? = none) :
    ((new kid).applyAll calls).headers.names = (added calls).map fun h => Text.trim h.1 :=
  names_of_trimmed (collected_applyAll_new kid calls hfault).toList_eq

end

end Signer

namespace SignedNames

/-- **Joining and splitting signed names are inverse.**  If a signer takes all headers of its calls,
the list in its claims is made of their trimmed names with commas between them, and it is read as
these names, in the order of the calls and in their spelling.  In general just those lists of names
are read back that hold `Listable` names only.  Any text is read as such a list, and so what has
been read is read again from its join. -/
theorem split_inverse_join :
    (∀ (kid : String) (calls : List Signer.Call),
      ((Signer.new kid).applyAll calls).fault? = none →
      ∃ text, ((Signer.new kid).applyAll calls).claims.headers = some text ∧
        text = ",".intercalate ((Signer.added calls).map fun h => Text.trim h.1) ∧
        split text = (Signer.added calls).map fun h => Text.trim h.1) ∧
    (∀ names, split (",".intercalate names) = names ↔ ∀ name ∈ names, Listable name) ∧
    ∀ value, (∀ name ∈ split value, Listable name) ∧
      split (",".intercalate (split value)) = split value := by
  refine ⟨fun kid calls hfault => ?_, fun names => ?_, fun value => ⟨?_, ?_⟩⟩
  · have hnames := Signer.names_of_no_fault kid calls hfault
    have hsplit := (Signer.collected_applyAll_new kid calls hfault).split_join
    rw [hnames, Signer.trimmed, List.map_map] at hsplit
    refine ⟨_, rfl, ?_, ?_⟩
    · rw [hnames, join_eq_intercalate]
    · rw [hnames]
      exact hsplit
  · rw [← join_eq_intercalate]
    exact split_join_eq_iff names
  · exact listable_of_mem_split value
  · rw [← join_eq_intercalate]
    exact split_join_split value

/-- calls that add names with blanks at their ends, two of which differ in the case of a letter
outside ASCII -/
def spelledCalls : List Signer.Call :=
  [.header "\tIdempotency-Key " [], .path "/a", .headers [("\u00a0X-Ü", []), ("x-ü\u3000", [])]]

theorem split_spelledCalls :
    ((Signer.new "k").applyAll spelledCalls).claims.headers = some "Idempotency-Key,X-Ü,x-ü" ∧
    split "Idempotency-Key,X-Ü,x-ü" = ["Idempotency-Key", "X-Ü", "x-ü"] ∧
    split (",".intercalate ["x,y"]) ≠ ["x,y"] ∧
    Listable "X-Custom" ∧
    split "Idempotency-Key,X-Custom" = split " Idempotency-Key, ,X-Custom ," := by
  obtain ⟨hsigner, hnames, hvalue⟩ := split_inverse_join
  have hadmissible : Signer.Admissible (Signer.added spelledCalls) := ⟨by decide, by decide⟩
  obtain ⟨text, htext, hjoin, hsplit⟩ :=
    hsigner "k" spelledCalls ((Signer.fault?_eq_none_iff "k" spelledCalls).mpr hadmissible)
  obtain rfl : text = "Idempotency-Key,X-Ü,x-ü" := hjoin.trans (by decide)
  obtain ⟨hlistable, hagain⟩ := hvalue " Idempotency-Key, ,X-Custom ,"
  refine ⟨htext, hsplit.trans (by decide), fun h => ?_, hlistable "X-Custom" (by decide), ?_⟩
  · exact ((hnames ["x,y"]).mp h "x,y" List.mem_cons_self).no_comma (by decide)
  · have hjoined : ",".intercalate (split " Idempotency-Key, ,X-Custom ,")
        = "Idempotency-Key,X-Custom" := by decide
    rwa [hjoined] at hagain

end SignedNames

end RequestSigning
