import RequestSigning.Payload
import RequestSigning.RequestLine
import RequestSigning.Proofs.Text.Names

/-!
# Payloads: what can be read off the octets that are signed

Nothing in a payload is escaped, so different requests may have the same payload.  `build_inj` says
when they cannot: if methods are valid, no path and no header value holds a line feed, and the
names of the headers are known to be the same, then the payload determines the method up to case,
the path, the headers and the body, which may hold anything.

`build_congr` is the other direction for the one part that the payload does not keep, the case of
the method.
-/

namespace RequestSigning

/-! ## parts before a separator -/

theorem eq_of_append_separator {α : Type} (sep : α) (a b rest rest' : List α) (ha : sep ∉ a)
    (hb : sep ∉ b) (h : a ++ sep :: rest = b ++ sep :: rest') : a = b ∧ rest = rest' := by
  induction a generalizing b with
  | nil =>
    cases b with
    | nil => exact ⟨rfl, (List.cons.inj h).2⟩
    | cons y b => exact absurd ((List.cons.inj h).1 ▸ List.mem_cons_self) hb
  | cons x a ih =>
    cases b with
    | nil => exact absurd ((List.cons.inj h).1 ▸ List.mem_cons_self) ha
    | cons y b =>
      obtain ⟨rfl, htail⟩ := List.cons.inj h
      obtain ⟨rfl, hrest⟩ := ih b (fun hm => ha (List.mem_cons_of_mem x hm))
        (fun hm => hb (List.mem_cons_of_mem x hm)) htail
      exact ⟨rfl, hrest⟩

/-! ## methods and paths -/

theorem ValidMethod.not_mem {method : String} (h : ValidMethod method) (c : Char)
    (hc : isAsciiBlank c = true) : c ∉ method.toList := by
  intro hm
  exact List.any_eq_false.mp h.2 c hm hc

theorem isAsciiBlank_toLower (c : Char) : isAsciiBlank c.toLower = isAsciiBlank c := by
  by_cases hc : c.toNat < 128
  · exact Text.forall_ascii (fun c => isAsciiBlank c.toLower = isAsciiBlank c) (by decide) c hc
  · rw [Text.toLower_of_not_ascii c (Nat.not_lt.mp hc)]

theorem ValidMethod.congr {a b : String} (h : Text.EqIgnoringCase a b) (ha : ValidMethod a) :
    ValidMethod b := by
  have hlist := congrArg String.toList h
  rw [Text.toList_fold, Text.toList_fold] at hlist
  have hany : ∀ cs : List Char, cs.any isAsciiBlank = (cs.map Char.toLower).any isAsciiBlank := by
    intro cs
    rw [List.any_map]
    exact congrArg cs.any (funext fun c => (isAsciiBlank_toLower c).symm)
  constructor
  · intro hb
    rw [hb, List.map_nil, List.map_eq_nil_iff] at hlist
    exact ha.1 hlist
  · rw [hany, ← hlist, ← hany]
    exact ha.2

theorem checkMethod_eq_ok_iff (method result : String) :
    checkMethod method = .ok result ↔ ValidMethod method ∧ method = result := by
  unfold checkMethod
  by_cases h : ValidMethod method
  · rw [if_pos h]
    constructor
    · intro e
      exact ⟨h, Except.ok.inj e⟩
    · rintro ⟨-, rfl⟩
      rfl
  · rw [if_neg h]
    exact iff_of_false (fun e => by cases e) fun e => h e.1

theorem checkPath_eq_ok_iff (path? : Option String) (path : String) :
    checkPath path? = .ok path ↔ path? = some path ∧ ValidPath path := by
  cases path? with
  | none => exact iff_of_false (fun e => by cases e) fun e => by cases e.1
  | some given =>
    show (if ValidPath given then _ else _) = _ ↔ _
    by_cases h : ValidPath given
    · rw [if_pos h]
      constructor
      · intro e
        obtain rfl := Except.ok.inj e
        exact ⟨rfl, h⟩
      · rintro ⟨e, -⟩
        rw [Option.some.inj e]
    · rw [if_neg h]
      refine iff_of_false (fun e => by cases e) ?_
      rintro ⟨e, hp⟩
      exact h (Option.some.inj e ▸ hp)

theorem toUpper_eq_space (c : Char) (h : c.toUpper = ' ') : c = ' ' := by
  by_cases hc : c.toNat < 128
  · exact Text.forall_ascii (fun c => c.toUpper = ' ' → c = ' ') (by decide) c hc h
  · rwa [Text.toUpper_of_not_ascii c (Nat.not_lt.mp hc)] at h

/-- the other spelling of a path has no character but slashes that the path does not have -/
theorem mem_of_mem_toggleSlash? (path other : String) (h : toggleSlash? path = some other)
    (c : Char) (hc : c ∈ other.toList) : c = '/' ∨ c ∈ path.toList := by
  unfold toggleSlash? at h
  split at h
  · cases h
  · rename_i rest _ hrev
    obtain rfl := Option.some.inj h
    rw [String.toList_ofList, List.mem_reverse] at hc
    right
    rw [← List.mem_reverse, hrev]
    exact List.mem_cons_of_mem '/' hc
  · obtain rfl := Option.some.inj h
    rw [String.toList_push, List.mem_append, List.mem_singleton] at hc
    exact hc.symm

namespace Payload

/-! ## the request line -/

theorem space_not_mem_method {method : String} (h : ValidMethod method) :
    byte ' ' ∉ (Bytes.ofText method).map Text.upperByte := by
  rw [Bytes.ofText, Text.map_upperByte, Bytes.byte_mem_ofChars ' ' (by decide)]
  intro hm
  obtain ⟨c, hc, he⟩ := List.mem_map.mp hm
  exact h.not_mem ' ' (by decide) (toUpper_eq_space c he ▸ hc)

theorem newline_not_mem_ofText {s : String} (h : '\n' ∉ s.toList) : newline ∉ Bytes.ofText s :=
  fun hm => h ((Bytes.byte_mem_ofChars '\n' (by decide) s.toList).mp hm)

theorem requestLine_append (method path : String) (rest : Bytes) :
    requestLine method path ++ rest
      = (Bytes.ofText method).map Text.upperByte
          ++ byte ' ' :: (Bytes.ofText path ++ newline :: rest) := by
  rw [requestLine, List.append_assoc, List.cons_append, List.append_assoc]
  rfl

/-- a request line and what follows it are told apart -/
theorem requestLine_inj {method method' path path' : String} {rest rest' : Bytes}
    (hm : ValidMethod method) (hm' : ValidMethod method') (hp : '\n' ∉ path.toList)
    (hp' : '\n' ∉ path'.toList)
    (h : requestLine method path ++ rest = requestLine method' path' ++ rest') :
    Text.EqIgnoringCase method method' ∧ path = path' ∧ rest = rest' := by
  rw [requestLine_append, requestLine_append] at h
  obtain ⟨hmethod, h⟩ := eq_of_append_separator _ _ _ _ _ (space_not_mem_method hm)
    (space_not_mem_method hm') h
  obtain ⟨hpath, hrest⟩ := eq_of_append_separator _ _ _ _ _ (newline_not_mem_ofText hp)
    (newline_not_mem_ofText hp') h
  exact ⟨(Text.map_upperByte_eq_iff _ _).mp hmethod, Bytes.ofText_inj hpath, hrest⟩

/-! ## header lines -/

theorem headerLine_append (name : String) (value rest : Bytes) :
    headerLine (name, value) ++ rest
      = Bytes.ofText name ++ byte ':' :: byte ' ' :: (value ++ newline :: rest) := by
  rw [headerLine, List.append_assoc, List.cons_append, List.cons_append, List.append_assoc]
  rfl

/-- Header lines and what follows them are told apart once the names are known.  Names may hold
anything: they are the same on both sides and drop out. -/
theorem headerLines_inj {headers headers' : List (String × Bytes)} {body body' : Bytes}
    (hnames : headers.map (·.1) = headers'.map (·.1)) (hv : ∀ h ∈ headers, newline ∉ h.2)
    (hv' : ∀ h ∈ headers', newline ∉ h.2)
    (h : headers.flatMap headerLine ++ body = headers'.flatMap headerLine ++ body') :
    headers = headers' ∧ body = body' := by
  induction headers generalizing headers' with
  | nil =>
    cases headers' with
    | nil => exact ⟨rfl, h⟩
    | cons header' headers' => exact absurd hnames.symm (List.cons_ne_nil _ _)
  | cons header headers ih =>
    cases headers' with
    | nil => exact absurd hnames (List.cons_ne_nil _ _)
    | cons header' headers' =>
      obtain ⟨name, value⟩ := header
      obtain ⟨name', value'⟩ := header'
      rw [List.map_cons, List.map_cons] at hnames
      obtain ⟨hname, hrestNames⟩ := List.cons.inj hnames
      -- the names cancel, so that the value begins at the same place on both sides
      obtain rfl : name = name' := hname
      rw [List.flatMap_cons, List.flatMap_cons, List.append_assoc, List.append_assoc,
        headerLine_append, headerLine_append] at h
      have hline := List.cons.inj (List.cons.inj (List.append_cancel_left h)).2
      obtain ⟨rfl, hrest⟩ := eq_of_append_separator newline value value' _ _
        (hv (name, value) List.mem_cons_self) (hv' (name, value') List.mem_cons_self) hline.2
      obtain ⟨rfl, hbody⟩ := ih hrestNames (fun h hm => hv h (List.mem_cons_of_mem _ hm))
        (fun h hm => hv' h (List.mem_cons_of_mem _ hm)) hrest
      exact ⟨rfl, hbody⟩

/-! ## payloads -/

/-- **A payload determines the request, if no path and no value holds a line feed.** -/
theorem build_inj {method method' path path' : String} {headers headers' : List (String × Bytes)}
    {body body' : Bytes} (hm : ValidMethod method) (hm' : ValidMethod method')
    (hp : '\n' ∉ path.toList) (hp' : '\n' ∉ path'.toList)
    (hnames : headers.map (·.1) = headers'.map (·.1)) (hv : ∀ h ∈ headers, newline ∉ h.2)
    (hv' : ∀ h ∈ headers', newline ∉ h.2)
    (h : build method path headers body = build method' path' headers' body') :
    Text.EqIgnoringCase method method' ∧ path = path' ∧ headers = headers' ∧ body = body' := by
  obtain ⟨hmethod, hpath, hrest⟩ := requestLine_inj hm hm' hp hp' h
  obtain ⟨hheaders, hbody⟩ := headerLines_inj hnames hv hv' hrest
  exact ⟨hmethod, hpath, hheaders, hbody⟩

theorem build_congr {method method' : String} (h : Text.EqIgnoringCase method method')
    (path : String) (headers : List (String × Bytes)) (body : Bytes) :
    build method path headers body = build method' path headers body := by
  rw [build, build, requestLine, requestLine, (Text.map_upperByte_eq_iff method method').mpr h]

end Payload

end RequestSigning
