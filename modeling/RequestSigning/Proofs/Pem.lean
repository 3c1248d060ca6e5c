import RequestSigning.Pem
import RequestSigning.Proofs.Base64.Texts

/-!
# PEM files: reading undoes writing

Writing cuts the base64 text into lines, reading puts the lines together again.  The two meet in
`Laid`, which says how a text stands in the lines of a body: what is written is laid out
(`exists_laid`), and the lines of what is laid out are found again (`Laid.lines_eq`).

`Block.decode?_encode` reads back any block with a label that a mark can hold and some content.
-/

namespace RequestSigning.Pem

/-! ## ends of texts -/

theorem before?_append (s stop : Bytes) : before? stop (s ++ stop) = some s := by
  rw [before?, if_pos (List.isSuffixOf_iff_suffix.mpr (List.suffix_append s stop)),
    List.length_append, Nat.add_sub_cancel, List.take_left]

theorem before?_eq_none {stop s : Bytes} (h : ¬ stop <:+ s) : before? stop s = none :=
  if_neg fun hsuffix => h (List.isSuffixOf_iff_suffix.mp hsuffix)

theorem after?_append (start s : Bytes) : after? start (start ++ s) = some s := by
  rw [after?, if_pos (List.isPrefixOf_iff_prefix.mpr (List.prefix_append start s)),
    List.drop_left]

theorem afterLineEnd?_lineFeed (s : Bytes) : afterLineEnd? (lineFeed :: s) = some s := by
  cases s <;> rfl

theorem not_suffix_of_ne {x y : UInt8} (h : y ≠ x) (stop init : Bytes) :
    ¬ stop ++ [y] <:+ init ++ [x] := by
  rintro ⟨front, hfront⟩
  rw [← List.append_assoc] at hfront
  exact h (List.cons.inj (List.append_inj' hfront rfl).2).1

theorem beforeLineEnd?_lineFeed {x : UInt8} (hx : x ≠ carriageReturn) (init : Bytes) :
    beforeLineEnd? (init ++ [x] ++ [lineFeed]) = some (init ++ [x]) := by
  have hboth : ¬ [carriageReturn, lineFeed] <:+ init ++ [x] ++ [lineFeed] := by
    rintro ⟨front, hfront⟩
    have hcancel : front ++ [carriageReturn] ++ [lineFeed] = init ++ [x] ++ [lineFeed] := by
      rw [← hfront, List.append_assoc]
      rfl
    exact not_suffix_of_ne hx.symm [] init ⟨front, List.append_cancel_right hcancel⟩
  rw [beforeLineEnd?, before?_eq_none hboth, Option.none_or, before?_append, Option.some_or]

/-- an octet that stands within a line -/
def IsInner (x : UInt8) : Prop := x ≠ lineFeed ∧ x ≠ carriageReturn

theorem dropLineEnd_of_isInner {x : UInt8} (hx : IsInner x) (init : Bytes) :
    dropLineEnd (init ++ [x]) = init ++ [x] := by
  have hboth : ¬ [carriageReturn, lineFeed] <:+ init ++ [x] :=
    not_suffix_of_ne hx.1.symm [carriageReturn] init
  have hfeed : ¬ [lineFeed] <:+ init ++ [x] := not_suffix_of_ne hx.1.symm [] init
  have hreturn : ¬ [carriageReturn] <:+ init ++ [x] := not_suffix_of_ne hx.2.symm [] init
  have hnone : beforeLineEnd? (init ++ [x]) = none := by
    rw [beforeLineEnd?, before?_eq_none hboth, before?_eq_none hfeed, before?_eq_none hreturn]
    rfl
  rw [dropLineEnd, hnone, Option.getD_none]

/-! ## lines -/

theorem lines_last (fuel : Nat) {s : Bytes} (hne : s ≠ []) (hlength : s.length ≤ lineLength) :
    lines (fuel + 1) s = some [dropLineEnd s] := by
  unfold lines
  split
  · exact absurd rfl hne
  · rfl
  · rename_i hmore
    exact absurd (List.drop_of_length_le hlength) hmore

theorem lines_full (fuel : Nat) {line : Bytes} (hlength : line.length = lineLength)
    (more : Bytes) :
    lines (fuel + 1) (line ++ lineFeed :: more) = (lines fuel more).map (line :: ·) := by
  have hdrop : (line ++ lineFeed :: more).drop lineLength = lineFeed :: more :=
    List.drop_left' hlength
  have htake : (line ++ lineFeed :: more).take lineLength = line := List.take_left' hlength
  conv =>
    lhs
    unfold lines
  split
  · rename_i hnil
    exact absurd hnil (List.append_ne_nil_of_right_ne_nil line (List.cons_ne_nil _ _))
  · rename_i hend _
    rw [hdrop] at hend
    cases hend
  · rw [hdrop, htake, afterLineEnd?_lineFeed]
    simp only [Option.bind_eq_bind, Option.bind_some]
    cases lines fuel more <;> rfl

/-- a text that stands in a body in lines, with a line feed between them -/
inductive Laid : Bytes → Bytes → List Bytes → Prop where
  | last (line : Bytes) (hne : line ≠ []) (hlength : line.length ≤ lineLength) :
      Laid line line [line]
  | cons (line : Bytes) (hlength : line.length = lineLength) {text body : Bytes}
      {rest : List Bytes} (h : Laid text body rest) :
      Laid (line ++ text) (line ++ lineFeed :: body) (line :: rest)

theorem exists_laid (fuel : Nat) (text : Bytes) (hne : text ≠ []) (hfuel : text.length ≤ fuel) :
    ∃ body rest, Laid text body rest ∧ wrap fuel text = body ++ [lineFeed] := by
  induction fuel generalizing text with
  | zero => exact absurd (List.length_eq_zero_iff.mp (Nat.le_zero.mp hfuel)) hne
  | succ fuel ih =>
    have hwrap : wrap (fuel + 1) text
        = text.take lineLength ++ lineFeed :: wrap fuel (text.drop lineLength) := by
      cases text with
      | nil => exact absurd rfl hne
      | cons b text => rfl
    rw [hwrap]
    by_cases hlength : text.length ≤ lineLength
    · have hnil : wrap fuel [] = [] := by cases fuel <;> rfl
      refine ⟨text, [text], .last text hne hlength, ?_⟩
      rw [List.take_of_length_le hlength, List.drop_of_length_le hlength, hnil]
    · have hlong := Nat.lt_of_not_le hlength
      have hrest : text.drop lineLength ≠ [] := by
        rw [Ne, List.drop_eq_nil_iff]
        exact hlength
      have hshorter : (text.drop lineLength).length ≤ fuel := by
        have hpos : 0 < lineLength := by decide
        rw [List.length_drop]
        omega
      obtain ⟨body, rest, hlaid, hbody⟩ := ih _ hrest hshorter
      have hline : (text.take lineLength).length = lineLength :=
        List.length_take_of_le (Nat.le_of_lt hlong)
      have hall := Laid.cons _ hline hlaid
      rw [List.take_append_drop] at hall
      refine ⟨_, _, hall, ?_⟩
      rw [hbody, List.append_assoc, List.cons_append]

namespace Laid

variable {text body : Bytes} {rest : List Bytes}

theorem flatten_eq (h : Laid text body rest) : rest.flatten = text := by
  induction h with
  | last line => exact List.append_nil line
  | cons line _ _ ih => rw [List.flatten_cons, ih]

theorem exists_eq_concat (h : Laid text body rest) : ∃ init x, body = init ++ [x] ∧ x ∈ text := by
  induction h with
  | last line hne =>
    exact ⟨line.dropLast, line.getLast hne, (List.dropLast_concat_getLast hne).symm,
      List.getLast_mem hne⟩
  | cons line _ _ ih =>
    obtain ⟨init, x, rfl, hx⟩ := ih
    exact ⟨line ++ lineFeed :: init, x, by rw [List.append_assoc, List.cons_append],
      List.mem_append_right line hx⟩

theorem mem_body (h : Laid text body rest) {x : UInt8} (hx : x ∈ body) :
    x = lineFeed ∨ x ∈ text := by
  induction h with
  | last => exact Or.inr hx
  | cons line _ _ ih =>
    rcases List.mem_append.mp hx with hx | hx
    · exact Or.inr (List.mem_append_left _ hx)
    · rcases List.mem_cons.mp hx with rfl | hx
      · exact Or.inl rfl
      · exact (ih hx).imp_right (List.mem_append_right line)

theorem getLast?_ne (h : Laid text body rest) : rest.getLast? ≠ some [] := by
  induction h with
  | last line hne => exact fun h => hne (Option.some.inj h)
  | @cons line _ _ _ rest h ih =>
    cases h with
    | last => exact ih
    | cons => exact ih

/-- **The lines of what is laid out are found again.** -/
theorem lines_eq (h : Laid text body rest) (hinner : ∀ x ∈ text, IsInner x) {fuel : Nat}
    (hfuel : body.length < fuel) : lines fuel body = some rest := by
  induction h generalizing fuel with
  | last line hne hlength =>
    obtain ⟨init, x, rfl⟩ : ∃ init x, line = init ++ [x] :=
      ⟨line.dropLast, line.getLast hne, (List.dropLast_concat_getLast hne).symm⟩
    have hx : IsInner x := hinner x (List.mem_append_right init List.mem_cons_self)
    cases fuel with
    | zero => exact absurd hfuel (Nat.not_lt_zero _)
    | succ fuel => rw [lines_last fuel hne hlength, dropLineEnd_of_isInner hx]
  | @cons line hlength text body rest h ih =>
    cases fuel with
    | zero => exact absurd hfuel (Nat.not_lt_zero _)
    | succ fuel =>
      have hshorter : body.length < fuel := by
        rw [List.length_append, List.length_cons] at hfuel
        omega
      rw [lines_full fuel hlength, ih (fun x hx => hinner x (List.mem_append_right line hx)) hshorter]
      rfl

end Laid

/-! ## bodies -/

/-- the octets that are written for a text in base64 -/
theorem forall_mem_encodePadded {P : UInt8 → Prop} (hpad : P Base64.pad)
    (hdigit : ∀ d < 64, P (byte (Base64.standard.char d))) (content : Bytes) :
    ∀ x ∈ Base64.encodePadded content, P x := by
  intro x hx
  rcases Base64.eq_or_of_mem_encodePadded hx with rfl | ⟨d, hd, rfl⟩
  · exact hpad
  · exact hdigit d hd

instance (x : UInt8) : Decidable (IsInner x) := inferInstanceAs (Decidable (_ ∧ _))

theorem isInner_of_mem_encodePadded (content : Bytes) :
    ∀ x ∈ Base64.encodePadded content, IsInner x :=
  forall_mem_encodePadded (by decide) (by decide) content

/-- what is laid out is read back -/
theorem decodeBody_of_laid {content body : Bytes} {rest : List Bytes} (hne : content ≠ [])
    (h : Laid (Base64.encodePadded content) body rest) : decodeBody body = some content := by
  have hlines := h.lines_eq (isInner_of_mem_encodePadded content) (Nat.lt_succ_self body.length)
  have hgood : ¬ (Base64.encodePadded content = [] ∨
      (rest.getLast? = some [] ∧ Base64.pad ∈ Base64.encodePadded content)) := by
    rintro (hnil | ⟨hlast, -⟩)
    · exact Base64.encodePadded_ne_nil hne hnil
    · exact h.getLast?_ne hlast
  rw [decodeBody, hlines]
  simp only [Option.bind_eq_bind, Option.bind_some, h.flatten_eq]
  rw [if_neg hgood, Base64.decodePadded?_encodePadded]

/-! ## labels -/

theorem takeLabel_append {allowed : Bool} {label : Bytes}
    (h : takeLabel allowed label = some (label, [])) (rest : Bytes) :
    takeLabel allowed (label ++ byte '-' :: rest) = some (label, byte '-' :: rest) := by
  induction label generalizing allowed with
  | nil => rfl
  | cons b label ih =>
    have hstep : ∀ next, (takeLabel next label).map (fun found => (b :: found.1, found.2))
        = some (b :: label, []) →
        (takeLabel next (label ++ byte '-' :: rest)).map (fun found => (b :: found.1, found.2))
          = some (b :: label, byte '-' :: rest) := by
      intro next hnext
      obtain ⟨⟨_, _⟩, htake, hpair⟩ := Option.map_eq_some_iff.mp hnext
      obtain ⟨hcons, rfl⟩ := Prod.mk.inj hpair
      obtain ⟨-, rfl⟩ := List.cons.inj hcons
      rw [ih htake]
      rfl
    rw [takeLabel] at h
    rw [List.cons_append, takeLabel]
    split at h
    · cases h
    split at h
    · rename_i hdash hoctet
      rw [if_neg hdash, if_pos hoctet]
      exact hstep true h
    split at h
    · rename_i hdash hoctet hblank
      rw [if_neg hdash, if_neg hoctet, if_pos hblank]
      exact hstep false h
    · cases h

theorem isAscii_of_isLabelOctet {b : UInt8} (h : isLabelOctet b = true) : b.toNat < 128 := by
  rw [isLabelOctet, Bool.and_eq_true, Bool.and_eq_true, decide_eq_true_eq, decide_eq_true_eq] at h
  exact Nat.lt_of_le_of_lt (UInt8.le_iff_toNat_le.mp h.1.2) (by decide)

theorem isAscii_of_takeLabel {allowed : Bool} {s label rest : Bytes}
    (h : takeLabel allowed s = some (label, rest)) : ∀ x ∈ label, x.toNat < 128 := by
  induction s generalizing allowed label with
  | nil =>
    obtain ⟨rfl, -⟩ := Prod.mk.inj (Option.some.inj h)
    exact fun x hx => absurd hx List.not_mem_nil
  | cons b s ih =>
    have hstep : ∀ next, b.toNat < 128 →
        (takeLabel next s).map (fun found => (b :: found.1, found.2)) = some (label, rest) →
        ∀ x ∈ label, x.toNat < 128 := by
      intro next hb hnext
      obtain ⟨⟨tail, _⟩, htake, hpair⟩ := Option.map_eq_some_iff.mp hnext
      obtain ⟨rfl, rfl⟩ := Prod.mk.inj hpair
      exact List.forall_mem_cons.mpr ⟨hb, ih htake⟩
    rw [takeLabel] at h
    split at h
    · obtain ⟨rfl, -⟩ := Prod.mk.inj (Option.some.inj h)
      exact fun x hx => absurd hx List.not_mem_nil
    split at h
    · rename_i hoctet
      exact hstep true (isAscii_of_isLabelOctet hoctet) h
    split at h
    · rename_i hblank
      rw [Bool.and_eq_true, Bool.or_eq_true, decide_eq_true_eq, decide_eq_true_eq] at hblank
      refine hstep false ?_ h
      rcases hblank.2 with rfl | rfl <;> decide
    · cases h

/-- a label that can stand in a mark -/
def IsLabel (label : String) : Prop :=
  takeLabel false (Bytes.ofText label) = some (Bytes.ofText label, [])

instance (label : String) : Decidable (IsLabel label) := inferInstanceAs (Decidable (_ = _))

theorem IsLabel.isAscii {label : String} (h : IsLabel label) :
    ∀ x ∈ Bytes.ofText label, x.toNat < 128 := isAscii_of_takeLabel h

theorem IsLabel.ofList_eq {label : String} (h : IsLabel label) :
    String.ofList ((Bytes.ofText label).map fun b => Char.ofNat b.toNat) = label := by
  apply Bytes.ofText_inj
  rw [Bytes.ofText_ofList, Bytes.ofChars_map_ofNat _ h.isAscii]

/-! ## files -/

theorem takeLabel_dashes {label : String} (h : IsLabel label) (rest : Bytes) :
    takeLabel false (Bytes.ofText label ++ (dashes ++ rest))
      = some (Bytes.ofText label, dashes ++ rest) := takeLabel_append h _

theorem dropLineEnd_dashes (s : Bytes) : dropLineEnd (s ++ dashes ++ [lineFeed]) = s ++ dashes := by
  have hdashes : dashes = List.replicate 4 (byte '-') ++ [byte '-'] := by decide
  have hreturn : byte '-' ≠ carriageReturn := by decide
  rw [hdashes, ← List.append_assoc, dropLineEnd, beforeLineEnd?_lineFeed hreturn, Option.getD_some]

theorem isAscii_of_all {s : Bytes} (h : (s.all fun x => x.toNat < 128) = true) :
    ∀ x ∈ s, x.toNat < 128 := fun x hx => of_decide_eq_true (List.all_eq_true.mp h x hx)

namespace Block

variable {b : Block}

/-- what is written, with the body for what is between the marks -/
theorem exists_encode_eq (hne : b.content ≠ []) :
    ∃ body rest, Laid (Base64.encodePadded b.content) body rest ∧
      b.encode = beginMark ++ (Bytes.ofText b.label ++ (dashes ++ lineFeed ::
        (body ++ [lineFeed] ++ endMark ++ Bytes.ofText b.label ++ dashes ++ [lineFeed]))) := by
  obtain ⟨body, rest, hlaid, hwrap⟩ :=
    exists_laid _ _ (Base64.encodePadded_ne_nil hne) (Nat.le_refl _)
  refine ⟨body, rest, hlaid, ?_⟩
  simp only [encode, hwrap, List.append_assoc, List.cons_append]

/-- **A block is read back from its file.** -/
theorem decode?_encode (hlabel : IsLabel b.label) (hne : b.content ≠ []) :
    decode? b.encode = some b := by
  obtain ⟨body, rest, hlaid, hfile⟩ := exists_encode_eq hne
  have hstart : skipPreamble b.encode = some b.encode := by
    rw [skipPreamble, if_pos]
    rw [hfile]
    exact List.isPrefixOf_iff_prefix.mpr (List.prefix_append _ _)
  have hbody : beforeLineEnd? (body ++ [lineFeed]) = some body := by
    obtain ⟨init, x, rfl, hx⟩ := hlaid.exists_eq_concat
    exact beforeLineEnd?_lineFeed (isInner_of_mem_encodePadded b.content x hx).2 init
  rw [decode?, hstart, hfile]
  simp only [Option.bind_eq_bind, Option.bind_some, after?_append, takeLabel_dashes hlabel,
    afterLineEnd?_lineFeed, dropLineEnd_dashes, before?_append, hbody,
    decodeBody_of_laid hne hlaid, hlabel.ofList_eq]

theorem isAscii_encode (hlabel : IsLabel b.label) (hne : b.content ≠ []) :
    ∀ x ∈ b.encode, x.toNat < 128 := by
  obtain ⟨body, rest, hlaid, hfile⟩ := exists_encode_eq hne
  have hbegin : ∀ x ∈ beginMark, x.toNat < 128 := isAscii_of_all (by decide)
  have hend : ∀ x ∈ endMark, x.toNat < 128 := isAscii_of_all (by decide)
  have hdashes : ∀ x ∈ dashes, x.toNat < 128 := isAscii_of_all (by decide)
  have hfeed : lineFeed.toNat < 128 := by decide
  have htext : ∀ x ∈ Base64.encodePadded b.content, x.toNat < 128 :=
    forall_mem_encodePadded (by decide) (by decide) b.content
  have hbody : ∀ x ∈ body, x.toNat < 128 := by
    intro x hx
    rcases hlaid.mem_body hx with rfl | hx
    · exact hfeed
    · exact htext x hx
  have hnil : ∀ x ∈ ([] : Bytes), x.toNat < 128 := fun x hx => absurd hx List.not_mem_nil
  rw [hfile]
  simp only [List.forall_mem_append, List.forall_mem_cons]
  exact ⟨hbegin, hlabel.isAscii, hdashes, hfeed,
    ⟨⟨⟨⟨hbody, hfeed, hnil⟩, hend⟩, hlabel.isAscii⟩, hdashes⟩, hfeed, hnil⟩

end Block

end RequestSigning.Pem
