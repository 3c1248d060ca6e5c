import RequestSigning.Proofs.Payload

/-!
# Request lines: which paths share their payloads

The request line ends with a line feed, and no check keeps a line feed out of a path.  So the
payload of a path may be the payload of a shorter one, whose request line is followed by the rest
of the path as if that were header lines or body.

* `Continues`           a path goes on behind a line feed where another one ends;
* `build_eq_cases`      payloads that are equal have the same method up to case, and paths of which
                        one is the other or continues it;
* `Continues.exists_build_eq`  every payload of the longer path is one of the shorter path.

`requestLine_shared` puts both together.
-/

namespace RequestSigning

/-- a path goes on behind a line feed where another one ends -/
def Continues (longer path : String) : Prop :=
  ∃ rest, longer.toList = path.toList ++ '\n' :: rest

theorem Continues.newline_mem {longer path : String} (h : Continues longer path) :
    '\n' ∈ longer.toList := by
  obtain ⟨rest, hrest⟩ := h
  rw [hrest]
  exact List.mem_append_right _ List.mem_cons_self

/-- the check on paths looks at the first character only -/
theorem Continues.validPath {longer path : String} (h : Continues longer path)
    (hp : ValidPath path) : ValidPath longer := by
  obtain ⟨rest, hrest⟩ := h
  rw [ValidPath, hrest, List.head?_append, show path.toList.head? = some '/' from hp]
  rfl

/-- of two lists with the same separator behind them, one is the other or continues it -/
theorem eq_or_continues_of_append {α : Type} {sep : α} {a b rest rest' : List α}
    (h : a ++ sep :: rest = b ++ sep :: rest') :
    a = b ∨ (∃ more, a = b ++ sep :: more) ∨ ∃ more, b = a ++ sep :: more := by
  rcases List.append_eq_append_iff.mp h with ⟨more, hb, hrest⟩ | ⟨more, ha, hrest⟩
  · cases more with
    | nil =>
      rw [List.append_nil] at hb
      exact Or.inl hb.symm
    | cons x more =>
      obtain ⟨rfl, -⟩ := List.cons.inj hrest
      exact Or.inr (Or.inr ⟨more, hb⟩)
  · cases more with
    | nil =>
      rw [List.append_nil] at ha
      exact Or.inl ha
    | cons x more =>
      obtain ⟨rfl, -⟩ := List.cons.inj hrest
      exact Or.inr (Or.inl ⟨more, ha⟩)

namespace Payload

/-- the octets behind the path may be no text at all, so both sides are read as text first -/
theorem path_cases {path path' : String} {rest rest' : Bytes}
    (h : Bytes.ofText path ++ newline :: rest = Bytes.ofText path' ++ newline :: rest') :
    path = path' ∨ Continues path path' ∨ Continues path' path := by
  have hline : ∀ rest : Bytes, newline :: rest = Bytes.ofText "\n" ++ rest := fun _ => rfl
  rw [hline, hline rest'] at h
  have hread := congrArg (fun b => (Utf8.decodeLossy b).toList) h
  simp only [Utf8.toList_decodeLossy_append] at hread
  rcases eq_or_continues_of_append hread with he | hmore
  · exact Or.inl (String.toList_inj.mp he)
  · exact Or.inr hmore

theorem build_eq_cases {method method' : String} (hm : ValidMethod method)
    (hm' : ValidMethod method') {path path' : String} {headers headers' : List (String × Bytes)}
    {body body' : Bytes}
    (h : build method path headers body = build method' path' headers' body') :
    Text.EqIgnoringCase method method' ∧
      (path = path' ∨ Continues path path' ∨ Continues path' path) := by
  rw [build, build, requestLine_append, requestLine_append] at h
  obtain ⟨hmethod, hrest⟩ := eq_of_append_separator _ _ _ _ _ (space_not_mem_method hm)
    (space_not_mem_method hm') h
  exact ⟨(Text.map_upperByte_eq_iff _ _).mp hmethod, path_cases hrest⟩

/-- the rest of a path moves into the body of the path that it continues -/
theorem build_of_toList_eq {path path' : String} {rest : List Char}
    (h : path.toList = path'.toList ++ '\n' :: rest) (method : String)
    (headers : List (String × Bytes)) (body : Bytes) :
    build method path headers body = build method path' []
      (Bytes.ofChars rest ++ newline :: (headers.flatMap headerLine ++ body)) := by
  have hpath : Bytes.ofText path = Bytes.ofText path' ++ newline :: Bytes.ofChars rest := by
    rw [Bytes.ofText, h, Bytes.ofChars_append]
    rfl
  rw [build, build_nil, requestLine_append, requestLine_append, hpath, List.append_assoc,
    List.cons_append]

theorem exists_build_eq_of_continues {path path' : String} (h : Continues path path')
    {method method' : String} (hmethod : Text.EqIgnoringCase method method')
    (headers : List (String × Bytes)) (body : Bytes) :
    ∃ body', build method path headers body = build method' path' [] body' := by
  obtain ⟨rest, hrest⟩ := h
  exact ⟨_, (build_of_toList_eq hrest method headers body).trans (build_congr hmethod _ _ _)⟩

/-- **Payloads tell methods apart, and paths without line feeds.**  If two requests with valid
methods have the same payload, then their methods are equal up to case, and of their paths one is
the other or continues it behind a line feed; without line feeds the paths are equal.  A path that
continues a valid one is valid, and whatever its headers and its body are, the shorter path has the
same payload with some body. -/
theorem requestLine_shared {method method' : String} (hm : ValidMethod method)
    (hm' : ValidMethod method') (path path' : String) :
    (∀ headers headers' body body',
      build method path headers body = build method' path' headers' body' →
        Text.EqIgnoringCase method method' ∧
          (path = path' ∨ Continues path path' ∨ Continues path' path) ∧
          ('\n' ∉ path.toList → '\n' ∉ path'.toList → path = path')) ∧
      (Text.EqIgnoringCase method method' → Continues path path' →
        (ValidPath path' → ValidPath path) ∧
          ∀ headers body, ∃ body',
            build method path headers body = build method' path' [] body') := by
  constructor
  · intro headers headers' body body' h
    obtain ⟨hmethod, hpath⟩ := build_eq_cases hm hm' h
    refine ⟨hmethod, hpath, fun hn hn' => ?_⟩
    rcases hpath with heq | hmore | hmore
    · exact heq
    · exact absurd hmore.newline_mem hn
    · exact absurd hmore.newline_mem hn'
  · intro hmethod hmore
    exact ⟨hmore.validPath, exists_build_eq_of_continues hmore hmethod⟩

/-- a header line that has moved into the path -/
theorem requestLine_shared_header :
    ValidMethod "get" ∧ ValidPath "/a" ∧ ValidPath "/a\nA: 1" ∧
      build "get" "/a\nA: 1" [] [byte 'x'] = build "GET" "/a" [("A", [byte '1'])] [byte 'x'] ∧
      ∃ body, build "get" "/a\nA: 1" [("B", [])] [byte 'x'] = build "GET" "/a" [] body := by
  have hm : ValidMethod "get" := by decide
  have hm' : ValidMethod "GET" := by decide
  have hmore : Continues "/a\nA: 1" "/a" := ⟨"A: 1".toList, rfl⟩
  obtain ⟨hequal, hshared⟩ := requestLine_shared hm hm' "/a\nA: 1" "/a"
  have hsame : build "get" "/a\nA: 1" [] [byte 'x']
      = build "GET" "/a" [("A", [byte '1'])] [byte 'x'] := by decide
  obtain ⟨hvalid, hbody⟩ := hshared (hequal _ _ _ _ hsame).1 hmore
  have hp : ValidPath "/a" := by decide
  exact ⟨hm, hp, hvalid hp, hsame, hbody [("B", [])] [byte 'x']⟩

end Payload

end RequestSigning
