import RequestSigning.Proofs.SignVerify

/-!
# How far a path may be off

A verifier tries the path that it has and the other spelling of it.  The other spelling of the
other spelling need not be the first one: `/a//` is tried as `/a/`, and `/a/` as `/a`.  So the paths
that pass for a signed one (`Tolerated`) are not the two spellings of it:

* the signed path itself, and the signed path with one more slash;
* the signed path without the slash at its end, unless there is still a slash at the end.

`verify_iff_tolerated` says this of whole runs.  The retry forgives nothing but the slash: spellings
of one path are told apart in the octets that are signed (`Payload.build_inj_of_spellings`), so that
method and lines behind the request line are compared as if the signed path had been received
(`SameButPath`).  The lines are one string of octets.  A line feed in a signed value lets the end of
the value pass for a part of the body, with the retry and without it (`rest_not_determined`).
-/

namespace RequestSigning

open HeaderTable (lastValue?)

/-! ## paths -/

def EndsInSlash (path : String) : Prop := path.toList.getLast? = some '/'

instance (path : String) : Decidable (EndsInSlash path) := inferInstanceAs (Decidable (_ = _))

theorem toList_append_slash (path : String) : (path ++ "/").toList = path.toList ++ ['/'] :=
  String.toList_append

theorem endsInSlash_iff (path : String) : EndsInSlash path ↔ ∃ base, path = base ++ "/" := by
  rw [EndsInSlash, List.getLast?_eq_some_iff]
  constructor
  · rintro ⟨cs, h⟩
    refine ⟨String.ofList cs, String.toList_inj.mp ?_⟩
    rw [toList_append_slash, String.toList_ofList, h]
  · rintro ⟨base, rfl⟩
    exact ⟨base.toList, toList_append_slash base⟩

theorem endsInSlash_append (path : String) : EndsInSlash (path ++ "/") :=
  (endsInSlash_iff _).mpr ⟨path, rfl⟩

theorem toggleSlash?_append {base : String} (h : base ≠ "") :
    toggleSlash? (base ++ "/") = some base := by
  have hne : base.toList.reverse ≠ [] := fun e =>
    h (String.toList_eq_nil_iff.mp (List.reverse_eq_nil_iff.mp e))
  unfold toggleSlash?
  rw [toList_append_slash, List.reverse_concat]
  cases hrev : base.toList.reverse with
  | nil => exact absurd hrev hne
  | cons c rest =>
    show some (String.ofList (c :: rest).reverse) = some base
    rw [← hrev, List.reverse_reverse, String.ofList_toList]

theorem toggleSlash?_of_not_endsInSlash {path : String} (h : ¬ EndsInSlash path) :
    toggleSlash? path = some (path ++ "/") := by
  have hpush : path.push '/' = path ++ "/" :=
    String.toList_inj.mp (by rw [String.toList_push, toList_append_slash])
  rw [EndsInSlash, ← List.head?_reverse] at h
  unfold toggleSlash?
  split
  · rename_i hrev
    rw [hrev] at h
    exact absurd rfl h
  · rename_i hrev
    rw [hrev] at h
    exact absurd rfl h
  · rw [hpush]

/-- **The other spelling has a slash less, if that leaves anything, or one more, if there was
none.** -/
theorem toggleSlash?_eq_some_iff (path other : String) :
    toggleSlash? path = some other ↔
      (path = other ++ "/" ∧ other ≠ "") ∨ (other = path ++ "/" ∧ ¬ EndsInSlash path) := by
  by_cases h : EndsInSlash path
  · obtain ⟨base, rfl⟩ := (endsInSlash_iff path).mp h
    by_cases hbase : base = ""
    · subst hbase
      refine iff_of_false (fun e => by cases e) ?_
      rintro (⟨e, hother⟩ | ⟨-, hno⟩)
      · exact hother ((String.append_left_inj "/").mp e).symm
      · exact hno h
    · rw [toggleSlash?_append hbase, Option.some_inj]
      constructor
      · rintro rfl
        exact Or.inl ⟨rfl, hbase⟩
      · rintro (⟨e, -⟩ | ⟨-, hno⟩)
        · exact (String.append_left_inj "/").mp e
        · exact absurd h hno
  · rw [toggleSlash?_of_not_endsInSlash h, Option.some_inj]
    constructor
    · rintro rfl
      exact Or.inr ⟨rfl, h⟩
    · rintro (⟨rfl, -⟩ | ⟨rfl, -⟩)
      · exact absurd (endsInSlash_append other) h
      · rfl

/-- the paths that are received for a signed one -/
def Tolerated (signed received : String) : Prop :=
  received = signed ∨ received = signed ++ "/" ∨
    (signed = received ++ "/" ∧ ¬ EndsInSlash received)

instance (signed received : String) : Decidable (Tolerated signed received) :=
  inferInstanceAs (Decidable (_ ∨ _))

theorem ValidPath.ne_empty {path : String} (h : ValidPath path) : path ≠ "" := by
  rintro rfl
  cases h

theorem spelling_iff_tolerated {signed : String} (h : ValidPath signed) (received : String) :
    Spelling received signed ↔ Tolerated signed received := by
  rw [Spelling, Tolerated, toggleSlash?_eq_some_iff, eq_comm (a := signed) (b := received)]
  refine or_congr_right (or_congr_left ?_)
  exact ⟨And.left, fun e => ⟨e, h.ne_empty⟩⟩

theorem eq_root_of_tolerated {signed : String} (h : ValidPath signed) (ht : Tolerated signed "/") :
    signed = "/" := by
  rcases ht with e | e | ⟨-, hno⟩
  · exact e.symm
  · have hempty : "" ++ "/" = signed ++ "/" := e
    exact absurd ((String.append_left_inj "/").mp hempty).symm h.ne_empty
  · exact absurd (endsInSlash_append "") hno

/-- two spellings of a path differ in one slash at most -/
theorem Spelling.slash {path a b : String} (ha : Spelling path a) (hb : Spelling path b) :
    a = b ∨ a = b ++ "/" ∨ b = a ++ "/" := by
  have hslash : ∀ other, toggleSlash? path = some other →
      path = other ++ "/" ∨ other = path ++ "/" := fun other h =>
    ((toggleSlash?_eq_some_iff path other).mp h).imp And.left And.left
  rcases ha with rfl | ha
  · rcases hb with rfl | hb
    · exact Or.inl rfl
    · exact Or.inr (hslash b hb)
  · rcases hb with rfl | hb
    · exact Or.inr (hslash a ha).symm
    · exact Or.inl (Option.some.inj (ha.symm.trans hb))

/-! ## payloads -/

namespace Payload

theorem build_path_inj {method path path' : String} {headers : List (String × Bytes)}
    {body : Bytes} (h : build method path headers body = build method path' headers body) :
    path = path' := by
  rw [build, build, List.append_left_inj, requestLine, requestLine, List.append_right_inj] at h
  exact Bytes.ofText_inj ((List.append_left_inj [newline]).mp (List.cons.inj h).2)

/-- **The octets tell the spellings of a path apart**, whatever else is signed: the slash at the end
of one stands where the other has the line feed. -/
theorem build_inj_of_spellings {method method' received path path' : String}
    {headers headers' : List (String × Bytes)} {body body' : Bytes} (hm : ValidMethod method)
    (hm' : ValidMethod method') (hpath : Spelling received path) (hpath' : Spelling received path')
    (h : build method path headers body = build method' path' headers' body') :
    Text.EqIgnoringCase method method' ∧ path = path' ∧
      headers.flatMap headerLine ++ body = headers'.flatMap headerLine ++ body' := by
  rw [build, build, requestLine_append, requestLine_append] at h
  obtain ⟨hmethod, h⟩ := eq_of_append_separator _ _ _ _ _ (space_not_mem_method hm)
    (space_not_mem_method hm') h
  refine ⟨(Text.map_upperByte_eq_iff _ _).mp hmethod, ?_⟩
  have hslash : byte '/' ≠ newline := by decide
  rcases hpath.slash hpath' with rfl | rfl | rfl
  · exact ⟨rfl, (List.cons.inj (List.append_cancel_left h)).2⟩
  · rw [Bytes.ofText_append, List.append_assoc] at h
    exact absurd (List.cons.inj (List.append_cancel_left h)).1 hslash
  · rw [Bytes.ofText_append, List.append_assoc] at h
    exact absurd (List.cons.inj (List.append_cancel_left h)).1.symm hslash

/-- a single header that has another value shows, if all else is the same -/
theorem headerLines_cancel {before after : List (String × Bytes)} {name : String}
    {value value' body : Bytes}
    (h : (before ++ (name, value) :: after).flatMap headerLine ++ body
      = (before ++ (name, value') :: after).flatMap headerLine ++ body) : value = value' := by
  rw [List.append_left_inj, List.flatMap_append, List.flatMap_append, List.append_right_inj,
    List.flatMap_cons, List.flatMap_cons, headerLine_append, headerLine_append,
    List.append_right_inj] at h
  have hvalue := (List.cons.inj (List.cons.inj h).2).2
  exact (List.append_left_inj (newline :: after.flatMap headerLine)).mp hvalue

end Payload

/-! ## selections -/

section
variable {κ : Type} {w : Verifier κ} {headers : List (String × Bytes)}

/-- headers whose names are selected and whose values are found are the ones that are selected -/
theorem eq_trimmed_of_select {names : List String} {others : List (String × Bytes)}
    (hselected : w.headers.select names = .ok headers)
    (hnames : (Signer.trimmed others).map (·.1) = names)
    (hvalues : ∀ h ∈ others, w.headers.get? h.1 = some h.2) : headers = Signer.trimmed others := by
  have hselect := select_trimmed hvalues
  rw [hnames] at hselect
  exact Except.ok.inj (hselected.symm.trans hselect)

/-- if the values of all signed headers but one are as they were signed, at most that one differs
among the headers that are selected -/
theorem exists_eq_trimmed {before after : List (String × Bytes)} {name : String}
    {signedValue : Bytes}
    (hselected : w.headers.select
      ((Signer.trimmed (before ++ (name, signedValue) :: after)).map (·.1)) = .ok headers)
    (hothers : ∀ other ∈ before ++ after, w.headers.get? other.1 = some other.2) :
    ∃ value, w.headers.get? name = some value ∧
      headers = Signer.trimmed (before ++ (name, value) :: after) := by
  obtain ⟨hnames, hfound⟩ := (HeaderTable.select_eq_ok_iff _ _ _).mp hselected
  have hmem : Text.trim name ∈ headers.map (·.1) := by
    rw [hnames, Signer.trimmed_append, List.map_append]
    exact List.mem_append_right _ List.mem_cons_self
  obtain ⟨⟨found, value⟩, hm, rfl⟩ := List.mem_map.mp hmem
  have hvalue : w.headers.get? name = some value := by
    rw [← HeaderTable.get?_trim]
    exact hfound (Text.trim name, value) hm
  refine ⟨value, hvalue, eq_trimmed_of_select hselected ?_ ?_⟩
  · rw [Signer.trimmed_append, Signer.trimmed_append, List.map_append, List.map_append]
    rfl
  · intro h hm
    rcases List.mem_append.mp hm with hm | hm
    · exact hothers h (List.mem_append_left _ hm)
    · rcases List.mem_cons.mp hm with rfl | hm
      · exact hvalue
      · exact hothers h (List.mem_append_right _ hm)

end

/-! ## requests with another path -/

section
variable {κ : Type} [VerifyingKey κ] {s : Signer} {signed : List (String × Bytes)}
  {p : Signer.Prepared} {path received text : String} {signature : Bytes} {key : κ}

/-- **Of a request that is the signed one but for the path, the path decides.** -/
theorem verify_eq_ite_tolerated (hs : s.Collected signed) (hp : s.prepare = .ok p)
    (hsome : s.path = some path) (htext : Base64.decode? (Bytes.ofText text) = some signature)
    (hkey : ∀ message, VerifyingKey.accepts key message signature = true ↔
      message = Bytes.ofText p.signingInput)
    {v : Verifier κ} (hresolved : v.resolveKey s.claims = .ok key)
    (hmethod : Text.EqIgnoringCase v.method s.method) (hpath : v.path = some received)
    (hvalid : ValidPath received) (hbody : v.body = s.body)
    (hvalues : ∀ h ∈ signed, v.headers.get? h.1 = some h.2)
    (hrequired : ∀ name ∈ v.required, ∃ h ∈ signed,
      Text.EqIgnoringCase (Text.trim h.1) (Text.trim name)) :
    v.verify (Token.compact p.encodedHeader text)
      = if Tolerated path received then .ok () else .error .invalidSignature := by
  obtain ⟨hvalidMethod, hvalidPath, rfl⟩ := Signer.prepare_of_path hp hsome
  have hpassed := passed_of_claims hs htext hresolved (hvalidMethod.congr hmethod.symm) hpath hvalid
    hrequired (select_trimmed hvalues)
  -- the key accepts one message, in which nothing is open but the path
  have haccepts : ∀ other, Verifier.acceptsPayload key ⟨s.claims.encode, s.claims, signature⟩
      (Payload.build v.method other (Signer.trimmed signed) v.body) = true ↔ other = path := by
    intro other
    rw [Verifier.acceptsPayload, hkey, Payload.build_congr hmethod, hbody, hs.toList_eq]
    constructor
    · intro h
      exact Payload.build_path_inj (payload_inj (Token.point_not_mem_encode s.claims) h)
    · rintro rfl
      rfl
  have hiff : Verifier.acceptsPath (fun path => Verifier.acceptsPayload key
      ⟨s.claims.encode, s.claims, signature⟩
      (Payload.build v.method path (Signer.trimmed signed) v.body)) received = true ↔
        Tolerated path received := by
    rw [Verifier.acceptsPath_eq_true_iff, ← spelling_iff_tolerated hvalidPath]
    constructor
    · rintro ⟨other, hother, h⟩
      rwa [(haccepts other).mp h] at hother
    · intro h
      exact ⟨path, h, (haccepts path).mpr rfl⟩
  rw [hpassed.verify_eq]
  by_cases h : Tolerated path received
  · rw [if_pos h, if_pos (hiff.mpr h)]
  · rw [if_neg h, if_neg fun e => h (hiff.mp e)]

/-- what an accepted request has built for the token of a signer -/
theorem exists_build_eq (hp : s.prepare = .ok p) (hsome : s.path = some path)
    (htext : Base64.decode? (Bytes.ofText text) = some signature)
    (hkey : ∀ message, VerifyingKey.accepts key message signature = true ↔
      message = Bytes.ofText p.signingInput)
    {w : Verifier κ} (hresolved : w.resolveKey s.claims = .ok key) (hpath : w.path = some received)
    (hok : w.verify (Token.compact p.encodedHeader text) = .ok ()) :
    ∃ other headers, ValidMethod w.method ∧ ValidMethod s.method ∧ Spelling received other ∧
      w.headers.select (w.signedNames s.claims) = .ok headers ∧
      Payload.build w.method other headers w.body
        = Payload.build s.method path s.headers.toList s.body := by
  obtain ⟨hvalidMethod, -, rfl⟩ := Signer.prepare_of_path hp hsome
  have hparse :=
    Token.parse_compact s.claims (Claims.decode_encode_ofSigner _ _ _) text signature htext
  obtain ⟨given, headers, hacc⟩ := Verifier.exists_accepted hparse hresolved hok
  obtain rfl := Option.some.inj (hacc.path_eq.symm.trans hpath)
  obtain ⟨other, hother, hsignature⟩ := hacc.signature
  refine ⟨other, headers, hacc.method, hvalidMethod, hother, hacc.selected, ?_⟩
  exact payload_inj (Token.point_not_mem_encode s.claims) ((hkey _).mp hsignature)

/-- what a request that is accepted for a tolerated path has in common with the signed one: the
method, and the octets behind the request line.  So the body cannot differ or one signed value, if
the rest is the same, and none of them can, if no value holds a line feed. -/
structure SameButPath (s : Signer) (signed : List (String × Bytes)) (w : Verifier κ)
    (headers : List (String × Bytes)) : Prop where
  method : Text.EqIgnoringCase w.method s.method
  lines : ∃ selected, w.headers.select ((Signer.trimmed signed).map (·.1)) = .ok selected ∧
    selected.flatMap Payload.headerLine ++ w.body
      = (Signer.trimmed signed).flatMap Payload.headerLine ++ s.body
  body : (∀ h ∈ signed, lastValue? headers h.1 = some h.2) → w.body = s.body
  value : w.body = s.body → ∀ before h after, signed = before ++ h :: after →
    (∀ other ∈ before ++ after, lastValue? headers other.1 = some other.2) →
      lastValue? headers h.1 = some h.2
  plain : (∀ h ∈ signed, Payload.newline ∉ h.2) →
    (∀ name value, lastValue? headers name = some value → Payload.newline ∉ value) →
      w.body = s.body ∧ ∀ h ∈ signed, lastValue? headers h.1 = some h.2

omit [VerifyingKey κ] in
/-- the lines behind the request line are enough for all of it -/
theorem sameButPath_of_lines {w : Verifier κ} {given headers : List (String × Bytes)}
    (hget : ∀ name, w.headers.get? name = lastValue? given name)
    (hselected : w.headers.select ((Signer.trimmed signed).map (·.1)) = .ok headers)
    (hmethod : Text.EqIgnoringCase w.method s.method)
    (hlines : headers.flatMap Payload.headerLine ++ w.body
      = (Signer.trimmed signed).flatMap Payload.headerLine ++ s.body) :
    SameButPath s signed w given where
  method := hmethod
  lines := ⟨headers, hselected, hlines⟩
  body := by
    intro hall
    rw [eq_trimmed_of_select hselected rfl fun h hm => (hget h.1).trans (hall h hm)] at hlines
    exact List.append_cancel_left hlines
  value := by
    rintro hbody before ⟨name, signedValue⟩ after rfl hall
    obtain ⟨value, hvalue, rfl⟩ :=
      exists_eq_trimmed hselected fun other hm => (hget other.1).trans (hall other hm)
    -- the lines before and after are the same and cancel
    rw [hbody, Signer.trimmed_append, Signer.trimmed_append] at hlines
    obtain rfl : value = signedValue := Payload.headerLines_cancel hlines
    exact (hget name).symm.trans hvalue
  plain := by
    intro hsigned hgiven
    obtain ⟨hnames, hfound⟩ := (HeaderTable.select_eq_ok_iff _ _ _).mp hselected
    have hplain : ∀ h ∈ headers, Payload.newline ∉ h.2 := fun h hm =>
      hgiven h.1 h.2 ((hget h.1).symm.trans (hfound h hm))
    have hsignedPlain : ∀ h ∈ Signer.trimmed signed, Payload.newline ∉ h.2 := by
      intro h hm
      obtain ⟨original, horiginal, rfl⟩ := List.mem_map.mp hm
      exact hsigned original horiginal
    obtain ⟨rfl, hbody⟩ := Payload.headerLines_inj hnames hplain hsignedPlain hlines
    refine ⟨hbody, ?_⟩
    intro h hm
    rw [← hget, ← HeaderTable.get?_trim]
    exact hfound (Text.trim h.1, h.2) (List.mem_map_of_mem hm)

/-- **The retry hides no other difference.**  If the token of a signer is accepted for a request
with a tolerated path, or with any path if neither path holds a line feed, then the path is
tolerated, and the method and the octets behind the request line are as they were signed. -/
theorem sameButPath_of_verify (hs : s.Collected signed) (hp : s.prepare = .ok p)
    (hsome : s.path = some path) (htext : Base64.decode? (Bytes.ofText text) = some signature)
    (hkey : ∀ message, VerifyingKey.accepts key message signature = true ↔
      message = Bytes.ofText p.signingInput)
    {w : Verifier κ} {given : List (String × Bytes)}
    (hget : ∀ name, w.headers.get? name = lastValue? given name)
    (hresolved : w.resolveKey s.claims = .ok key) (hpath : w.path = some received)
    (hnear : Tolerated path received ∨ '\n' ∉ path.toList ∧ '\n' ∉ received.toList)
    (hok : w.verify (Token.compact p.encodedHeader text) = .ok ()) :
    Tolerated path received ∧ SameButPath s signed w given := by
  obtain ⟨-, hvalidPath, -⟩ := Signer.prepare_of_path hp hsome
  obtain ⟨other, headers, hm, hm', hother, hselected, hbuild⟩ :=
    exists_build_eq hp hsome htext hkey hresolved hpath hok
  rw [signedNames_claims hs] at hselected
  rw [hs.toList_eq] at hbuild
  rcases hnear with htolerated | ⟨hpathPlain, hreceivedPlain⟩
  · have hspelling := (spelling_iff_tolerated hvalidPath received).mpr htolerated
    obtain ⟨hmethod, -, hlines⟩ := Payload.build_inj_of_spellings hm hm' hother hspelling hbuild
    exact ⟨htolerated, sameButPath_of_lines hget hselected hmethod hlines⟩
  · obtain ⟨hmethod, rfl, hlines⟩ := Payload.requestLine_inj hm hm'
      (hother.newline_not_mem hreceivedPlain) hpathPlain hbuild
    exact ⟨(spelling_iff_tolerated hvalidPath received).mp hother,
      sameButPath_of_lines hget hselected hmethod hlines⟩

end

/-! ## runs -/

section
variable {κ : Type} [VerifyingKey κ] {s : Signer} {v : Verifier κ} {kid : String}
  {signerCalls : List Signer.Call} {answer : String → Except String String}
  {token input : String} {source : KeySource κ} {key : κ} {calls : List Verifier.Call}

/-- **How far a path may be off.**  Take any run of a signer that gives a token for a path, and any
key that accepts the signature on the signing input of that run and on nothing else.  Of the
requests that are the signed one but for the path, those with a tolerated path are accepted, and
for all others the signature is the error; the root path passes for itself only.  No other request
is accepted for the sake of the retry: with such a path, method and octets behind the request line
are as they were signed, and only line feeds in values can divide these octets into values and body
in another way (`SameButPath`). -/
theorem verify_iff_tolerated (hs : s = (Signer.new kid).applyAll signerCalls)
    (hv : v = (Verifier.ofSource source).applyAll calls)
    (hrun : (s.sign (Signer.recording answer)).run [] = (.ok token, [input])) {text : String}
    {signature : Bytes} (hanswer : answer input = .ok text)
    (htext : Base64.decode? (Bytes.ofText text) = some signature)
    (hkey : ∀ message, VerifyingKey.accepts key message signature = true ↔
      message = Bytes.ofText input)
    {path received : String} (hsome : s.path = some path) (hreceived : v.path = some received)
    (hvalid : ValidPath received) (hresolved : v.resolveKey s.claims = .ok key)
    (hmethod : Text.EqIgnoringCase v.method s.method) (hbody : v.body = s.body)
    (hvalues : ∀ h ∈ Signer.added signerCalls, lastValue? (Verifier.added calls) h.1 = some h.2)
    (hrequired : ∀ name ∈ v.required, ∃ h ∈ Signer.added signerCalls,
      Text.EqIgnoringCase (Text.trim h.1) (Text.trim name)) :
    (v.verify token = .ok () ↔ Tolerated path received) ∧
      (¬ Tolerated path received → v.verify token = .error .invalidSignature) ∧
      (received = "/" → v.verify token = .ok () → path = "/") ∧
      ∀ (w : Verifier κ) (otherCalls : List Verifier.Call),
        w = (Verifier.ofSource source).applyAll otherCalls → w.path = some received →
        Tolerated path received ∨ '\n' ∉ path.toList ∧ '\n' ∉ received.toList →
        w.verify token = .ok () →
          Tolerated path received ∧
            SameButPath s (Signer.added signerCalls) w (Verifier.added otherCalls) := by
  obtain ⟨p, text', hp, rfl, hanswer', rfl⟩ := exists_prepared hrun
  obtain rfl := Except.ok.inj (hanswer'.symm.trans hanswer)
  have hcollected := collected_of_prepare hs hp
  have hfound : ∀ h ∈ Signer.added signerCalls, v.headers.get? h.1 = some h.2 := by
    intro h hm
    rw [hv, Verifier.get?_applyAll_ofSource]
    exact hvalues h hm
  have hverify := verify_eq_ite_tolerated hcollected hp hsome htext hkey hresolved hmethod
    hreceived hvalid hbody hfound hrequired
  have hiff : v.verify (Token.compact p.encodedHeader text') = .ok () ↔
      Tolerated path received := by
    rw [hverify]
    by_cases h : Tolerated path received
    · rw [if_pos h]
      exact iff_of_true rfl h
    · rw [if_neg h]
      exact iff_of_false (fun e => by cases e) h
  refine ⟨hiff, ?_, ?_, ?_⟩
  · intro h
    rw [hverify, if_neg h]
  · rintro rfl hok
    obtain ⟨-, hvalidPath, -⟩ := Signer.prepare_of_path hp hsome
    exact eq_root_of_tolerated hvalidPath (hiff.mp hok)
  · rintro w otherCalls rfl hpath hnear hok
    have hsource : ((Verifier.ofSource source).applyAll otherCalls).resolveKey s.claims
        = .ok key := by
      rw [← hresolved, Verifier.resolveKey, Verifier.resolveKey, hv, Verifier.source_applyAll,
        Verifier.source_applyAll]
    exact sameButPath_of_verify hcollected hp hsome htext hkey
      (Verifier.get?_applyAll_ofSource source otherCalls) hsource hpath hnear hok

end

/-- the request of `receivedCalls`, with a slash at the end of its path -/
def slashCalls : List Verifier.Call := receivedCalls ++ [.path "/a/"]

theorem verify_slashCalls :
    ((Verifier.ofKey sentKey).applyAll slashCalls).verify
        (Token.compact sender.claims.encode "AA") = .ok () ∧
      ((Verifier.ofKey sentKey).applyAll (slashCalls ++ [.body [byte 'b']])).verify
        (Token.compact sender.claims.encode "AA") ≠ .ok () := by
  have hs : sender = (Signer.new "k").applyAll sentCalls := rfl
  have htext : Base64.decode? (Bytes.ofText "AA") = some [0] := by decide
  have hkey : ∀ message, VerifyingKey.accepts sentKey message [0] = true ↔
      message = Bytes.ofText sentInput := fun message => accepts_sentKey_iff message [0]
  have hvalid : ValidPath "/a/" := by decide
  have hmethod : Text.EqIgnoringCase "POST" "post" := by decide
  have hvalues : ∀ h ∈ Signer.added sentCalls,
      lastValue? (Verifier.added slashCalls) h.1 = some h.2 := by decide
  have hrequired : ∀ name ∈ ["X-A ", "x-a"], ∃ h ∈ Signer.added sentCalls,
      Text.EqIgnoringCase (Text.trim h.1) (Text.trim name) := by decide
  have hv : (Verifier.ofKey sentKey).applyAll slashCalls
      = (Verifier.ofSource (.fixed sentKey)).applyAll slashCalls := rfl
  have hsome : sender.path = some "/a" := rfl
  have hreceived : ((Verifier.ofKey sentKey).applyAll slashCalls).path = some "/a/" := rfl
  obtain ⟨hiff, -, -, hother⟩ := verify_iff_tolerated hs hv run_sender rfl htext hkey hsome
    hreceived hvalid rfl hmethod rfl hvalues hrequired
  have htolerated : Tolerated "/a" "/a/" := by decide
  refine ⟨hiff.mpr htolerated, ?_⟩
  intro hok
  have hvaluesOther : ∀ h ∈ Signer.added sentCalls,
      lastValue? (Verifier.added (slashCalls ++ [.body [byte 'b']])) h.1 = some h.2 := by decide
  have hbody := (hother _ _ rfl rfl (Or.inl htolerated) hok).2.body hvaluesOther
  exact absurd hbody (by decide)

/-! A request with a line feed in its signed value, and one with a slash more, where the end of the
value has become the start of the body. -/

def feedCalls : List Signer.Call :=
  [.path "/a", .header "X-a" (Bytes.ofText "1\nx"), .body [byte 'b']]

def feedSender : Signer := (Signer.new "k").applyAll feedCalls

def feedInput : String :=
  signingInput feedSender.claims.encode
    (Payload.build "POST" "/a" [("X-a", Bytes.ofText "1\nx")] [byte 'b'])

def movedCalls : List Verifier.Call :=
  [.path "/a/", .header "X-a" [byte '1'], .body (Bytes.ofText "x\nb")]

def feedKey : Verifier.OneMessage := ⟨Bytes.ofText feedInput⟩

theorem run_feedSender : (feedSender.sign (Signer.recording fun _ => .ok "AA")).run []
    = (.ok (Token.compact feedSender.claims.encode "AA"), [feedInput]) := rfl

theorem verify_movedCalls : ((Verifier.ofKey feedKey).applyAll movedCalls).verify
    (Token.compact feedSender.claims.encode "AA") = .ok () :=
  eq_ok_of_toBool (by decide +kernel)

/-- **With the other spelling of its path a request is accepted whose signed value and body are
others**, if a line feed stands in the signed value. -/
theorem rest_not_determined :
    ¬ ∀ (kid : String) (signerCalls : List Signer.Call) (answer : String → Except String String)
        (token input text : String) (signature : Bytes) (key : Verifier.OneMessage)
        (calls : List Verifier.Call) (path received : String),
      (((Signer.new kid).applyAll signerCalls).sign (Signer.recording answer)).run []
          = (.ok token, [input]) →
      answer input = .ok text → Base64.decode? (Bytes.ofText text) = some signature →
      (∀ message, VerifyingKey.accepts key message signature = true ↔
        message = Bytes.ofText input) →
      ((Signer.new kid).applyAll signerCalls).path = some path →
      ((Verifier.ofKey key).applyAll calls).path = some received →
      received ≠ path → Tolerated path received →
      ((Verifier.ofKey key).applyAll calls).verify token = .ok () →
        Text.EqIgnoringCase ((Verifier.ofKey key).applyAll calls).method
          ((Signer.new kid).applyAll signerCalls).method ∧
        (∀ h ∈ Signer.added signerCalls, lastValue? (Verifier.added calls) h.1 = some h.2) ∧
        ((Verifier.ofKey key).applyAll calls).body
          = ((Signer.new kid).applyAll signerCalls).body := by
  intro h
  have htext : Base64.decode? (Bytes.ofText "AA") = some [0] := by decide
  have hkey : ∀ message, VerifyingKey.accepts feedKey message [0] = true ↔
      message = Bytes.ofText feedInput := by
    intro message
    rw [Verifier.OneMessage.accepts_iff, feedKey]
  have hne : "/a/" ≠ "/a" := by decide
  have htolerated : Tolerated "/a" "/a/" := by decide
  have hpath : feedSender.path = some "/a" := rfl
  have hreceived : ((Verifier.ofKey feedKey).applyAll movedCalls).path = some "/a/" := rfl
  have hbody := (h "k" feedCalls (fun _ => .ok "AA") (Token.compact feedSender.claims.encode "AA")
    feedInput "AA" [0] feedKey movedCalls "/a" "/a/" run_feedSender rfl htext hkey hpath hreceived
    hne htolerated verify_movedCalls).2.2
  have hoctets : ((Verifier.ofKey feedKey).applyAll movedCalls).body ≠ feedSender.body := by decide
  exact hoctets hbody

end RequestSigning
