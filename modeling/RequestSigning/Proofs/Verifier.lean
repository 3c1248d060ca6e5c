import RequestSigning.Verifier
import RequestSigning.Proofs.HeaderTable
import RequestSigning.Proofs.Token

/-!
# Verifying: what an accepted token rests on

`Passed v token path t key headers` lists all that the stages of a verifier have found when it comes
to the signature of a token: the path, the token as it was read, the key and the signed headers.
Then the signature alone decides (`Passed.verify_eq`).  `Accepted` adds that the signature belongs
to the payload, and `verify_eq_ok_iff` says that a token is accepted exactly if there are such
things; all that is proved of accepted tokens is read off this list.

The second half is about the names that have to be signed.
-/

namespace RequestSigning

/-! ## spellings of a path -/

/-- a path or its other spelling -/
def Spelling (path other : String) : Prop := other = path ∨ toggleSlash? path = some other

theorem Spelling.refl (path : String) : Spelling path path := Or.inl rfl

/-- a spelling of a path without a line feed has none -/
theorem Spelling.newline_not_mem {path other : String} (h : Spelling path other)
    (hp : '\n' ∉ path.toList) : '\n' ∉ other.toList := by
  rcases h with rfl | h
  · exact hp
  · intro hm
    rcases mem_of_mem_toggleSlash? path other h '\n' hm with e | hm
    · exact absurd e (by decide)
    · exact hp hm

namespace Verifier

variable {κ : Type}

/-! ## calls -/

def Call.added : Call → List (String × Bytes)
  | .header name value => [(name, value)]
  | .headers more => more
  | _ => []

/-- the headers that a sequence of calls adds -/
def added (calls : List Call) : List (String × Bytes) := calls.flatMap Call.added

theorem applyAll_append (v : Verifier κ) (calls more : List Call) :
    v.applyAll (calls ++ more) = (v.applyAll calls).applyAll more := List.foldl_append

theorem added_append (calls more : List Call) : added (calls ++ more) = added calls ++ added more :=
  List.flatMap_append

theorem added_headers_cons (more : List (String × Bytes)) (calls : List Call) :
    added (.headers more :: calls) = more ++ added calls := List.flatMap_cons

theorem insertAll_append (t : HeaderTable) (headers more : List (String × Bytes)) :
    t.insertAll (headers ++ more) = (t.insertAll headers).insertAll more := List.foldl_append

theorem headers_apply (v : Verifier κ) (call : Call) :
    (v.apply call).headers = v.headers.insertAll call.added := by
  cases call <;> rfl

theorem headers_applyAll (v : Verifier κ) (calls : List Call) :
    (v.applyAll calls).headers = v.headers.insertAll (added calls) := by
  induction calls generalizing v with
  | nil => rfl
  | cons call calls ih =>
    show ((v.apply call).applyAll calls).headers = v.headers.insertAll (call.added ++ added calls)
    rw [ih, headers_apply, insertAll_append]

theorem source_applyAll (v : Verifier κ) (calls : List Call) :
    (v.applyAll calls).source = v.source := by
  induction calls generalizing v with
  | nil => rfl
  | cons call calls ih =>
    show ((v.apply call).applyAll calls).source = v.source
    rw [ih]
    cases call <;> rfl

/-- a verifier holds the last value of each header of its calls -/
theorem get?_applyAll_ofSource (source : KeySource κ) (calls : List Call) (name : String) :
    ((ofSource source).applyAll calls).headers.get? name
      = HeaderTable.lastValue? (added calls) name := by
  rw [headers_applyAll]
  exact HeaderTable.get?_ofList (added calls) name

/-- a verifier with one key holds the last value of each header of its calls -/
theorem get?_applyAll_ofKey (key : κ) (calls : List Call) (name : String) :
    ((ofKey key).applyAll calls).headers.get? name = HeaderTable.lastValue? (added calls) name :=
  get?_applyAll_ofSource (.fixed key) calls name

theorem resolveKey_applyAll_ofKey [VerifyingKey κ] (key : κ) (calls : List Call) (claims : Claims) :
    ((ofKey key).applyAll calls).resolveKey claims = .ok key := by
  rw [resolveKey, source_applyAll]
  rfl

/-! ## stages -/

theorem acceptsPath_eq_true_iff (accepts : String → Bool) (path : String) :
    acceptsPath accepts path = true ↔ ∃ other, Spelling path other ∧ accepts other = true := by
  rw [acceptsPath, Bool.or_eq_true, Option.any_eq_true]
  constructor
  · rintro (h | ⟨other, hother, h⟩)
    · exact ⟨path, Spelling.refl path, h⟩
    · exact ⟨other, Or.inr hother, h⟩
  · rintro ⟨other, rfl | hother, h⟩
    · exact Or.inl h
    · exact Or.inr ⟨other, hother, h⟩

theorem checkAlgorithm_eq_ok_iff (claims : Claims) :
    checkAlgorithm claims = .ok () ↔ claims.algorithm = some Claims.es512 := by
  unfold checkAlgorithm
  by_cases h : claims.algorithm = some Claims.es512
  · rw [if_pos h]
    exact iff_of_true rfl h
  · rw [if_neg h]
    exact iff_of_false (fun e => by cases e) h

theorem checkVersion_eq_ok_iff (version : String) :
    checkVersion version = .ok () ↔ version = Claims.currentVersion := by
  unfold checkVersion
  by_cases h : version = Claims.currentVersion
  · rw [if_pos h]
    exact iff_of_true rfl h
  · rw [if_neg h]
    exact iff_of_false (fun e => by cases e) h

/-- a required name is among the signed ones, blanks around it and case aside -/
def Covered (signed : List String) (name : String) : Prop :=
  ∃ s ∈ signed, Text.EqIgnoringCase s (Text.trim name)

theorem checkRequired_eq_ok_iff (v : Verifier κ) (signed : List String) :
    v.checkRequired signed = .ok () ↔ ∀ name ∈ v.required, Covered signed name := by
  rw [checkRequired, forM_eq_ok_iff]
  refine forall₂_congr fun name _ => ?_
  unfold checkRequiredName
  by_cases h : Covered signed name
  · have hany : (signed.any fun s => Text.EqIgnoringCase s (Text.trim name)) = true := by
      obtain ⟨s, hs, he⟩ := h
      exact List.any_eq_true.mpr ⟨s, hs, decide_eq_true he⟩
    rw [if_pos hany]
    exact iff_of_true rfl h
  · have hany : ¬ (signed.any fun s => Text.EqIgnoringCase s (Text.trim name)) = true := by
      intro hs
      obtain ⟨s, hs, he⟩ := List.any_eq_true.mp hs
      exact h ⟨s, hs, of_decide_eq_true he⟩
    rw [if_neg hany]
    exact iff_of_false (fun e => by cases e) h

theorem mem_signedNames_listable (v : Verifier κ) (claims : Claims) (name : String)
    (h : name ∈ v.signedNames claims) : SignedNames.Listable name :=
  SignedNames.listable_of_mem_split _ name h

/-! ## acceptance -/

section
variable [VerifyingKey κ]

/-- what a verifier has found when it comes to the signature of a token -/
structure Passed (v : Verifier κ) (token : String) (path : String) (t : Token) (key : κ)
    (headers : List (String × Bytes)) : Prop where
  method : ValidMethod v.method
  path_eq : v.path = some path
  validPath : ValidPath path
  parsed : Token.parse token = .ok t
  resolved : v.resolveKey t.claims = .ok key
  algorithm : t.claims.algorithm = some Claims.es512
  version : v.version t.claims = .ok Claims.currentVersion
  covered : ∀ name ∈ v.required, Covered (v.signedNames t.claims) name
  selected : v.headers.select (v.signedNames t.claims) = .ok headers

/-- what a verifier has found when it accepts a token -/
structure Accepted (v : Verifier κ) (token : String) (path : String) (t : Token) (key : κ)
    (headers : List (String × Bytes)) : Prop extends Passed v token path t key headers where
  signature : ∃ other, Spelling path other ∧
    acceptsPayload key t (Payload.build v.method other headers v.body) = true

/-- behind the other stages the signature alone decides -/
theorem Passed.verify_eq {v : Verifier κ} {token path : String} {t : Token} {key : κ}
    {headers : List (String × Bytes)} (h : v.Passed token path t key headers) :
    v.verify token =
      if acceptsPath
          (fun path => acceptsPayload key t (Payload.build v.method path headers v.body)) path
      then .ok () else .error .invalidSignature := by
  have hmethod := (checkMethod_eq_ok_iff _ _).mpr ⟨h.method, rfl⟩
  have hpath := (checkPath_eq_ok_iff _ _).mpr ⟨h.path_eq, h.validPath⟩
  have halgorithm := (checkAlgorithm_eq_ok_iff _).mpr h.algorithm
  have hversion := (checkVersion_eq_ok_iff Claims.currentVersion).mpr rfl
  have hcovered := (checkRequired_eq_ok_iff _ _).mpr h.covered
  rw [verify, hmethod, ok_bind, hpath, ok_bind, h.parsed, ok_bind, h.resolved, ok_bind,
    halgorithm, ok_bind, h.version, ok_bind, hversion, ok_bind]
  show (v.checkRequired (v.signedNames t.claims) >>= fun _ => _) = _
  rw [hcovered, ok_bind, h.selected, ok_bind]

/-- **A token is accepted exactly if every stage finds what it looks for.** -/
theorem verify_eq_ok_iff (v : Verifier κ) (token : String) :
    v.verify token = .ok () ↔ ∃ path t key headers, v.Accepted token path t key headers := by
  constructor
  · intro h
    obtain ⟨method, hmethod, h⟩ := (bind_eq_ok_iff _ _ _).mp h
    obtain ⟨path, hpath, h⟩ := (bind_eq_ok_iff _ _ _).mp h
    obtain ⟨t, hparsed, h⟩ := (bind_eq_ok_iff _ _ _).mp h
    obtain ⟨key, hresolved, h⟩ := (bind_eq_ok_iff _ _ _).mp h
    obtain ⟨_, halgorithm, h⟩ := (bind_eq_ok_iff _ _ _).mp h
    obtain ⟨version, hversion, h⟩ := (bind_eq_ok_iff _ _ _).mp h
    obtain ⟨_, hcurrent, h⟩ := (bind_eq_ok_iff _ _ _).mp h
    obtain ⟨_, hrequired, h⟩ := (bind_eq_ok_iff _ _ _).mp h
    obtain ⟨headers, hselected, hlast⟩ := (bind_eq_ok_iff _ _ _).mp h
    obtain ⟨hvalid, rfl⟩ := (checkMethod_eq_ok_iff _ _).mp hmethod
    obtain ⟨hsome, hvalidPath⟩ := (checkPath_eq_ok_iff _ _).mp hpath
    obtain rfl := (checkVersion_eq_ok_iff _).mp hcurrent
    have hpassed : v.Passed token path t key headers :=
      ⟨hvalid, hsome, hvalidPath, hparsed, hresolved, (checkAlgorithm_eq_ok_iff _).mp halgorithm,
        hversion, (checkRequired_eq_ok_iff _ _).mp hrequired, hselected⟩
    refine ⟨path, t, key, headers, hpassed, (acceptsPath_eq_true_iff _ _).mp ?_⟩
    apply Decidable.byContradiction
    intro hrefused
    rw [if_neg hrefused] at hlast
    cases hlast
  · rintro ⟨path, t, key, headers, h⟩
    rw [h.verify_eq, if_pos ((acceptsPath_eq_true_iff _ _).mpr h.signature)]

/-- an accepted token was read, and its claims gave the key -/
theorem exists_accepted {v : Verifier κ} {token : String} {t : Token} {key : κ}
    (hparse : Token.parse token = .ok t) (hresolved : v.resolveKey t.claims = .ok key)
    (hok : v.verify token = .ok ()) : ∃ path headers, v.Accepted token path t key headers := by
  obtain ⟨path, t', key', headers, hacc⟩ := (verify_eq_ok_iff v token).mp hok
  obtain rfl := Except.ok.inj (hacc.parsed.symm.trans hparse)
  obtain rfl := Except.ok.inj (hacc.resolved.symm.trans hresolved)
  exact ⟨path, headers, hacc⟩

/-! ## names that have to be signed -/

/-- A name that has to be signed is found among the signed headers, with the value that the request
has for it.  Three comparisons of names meet here: the names of a token are trimmed, so that being
equal to a required name up to case is having its key. -/
theorem Passed.exists_header {v : Verifier κ} {token path : String} {t : Token} {key : κ}
    {headers : List (String × Bytes)} (h : v.Passed token path t key headers) (name : String)
    (hname : name ∈ v.required) :
    ∃ header ∈ headers, Text.EqIgnoringCase header.1 (Text.trim name) ∧
      v.headers.get? name = some header.2 := by
  obtain ⟨s, hs, he⟩ := h.covered name hname
  obtain ⟨hnames, hvalues⟩ := (HeaderTable.select_eq_ok_iff _ _ _).mp h.selected
  have htrim := (mem_signedNames_listable v t.claims s hs).trim_eq
  rw [← hnames] at hs
  obtain ⟨header, hheader, rfl⟩ := List.mem_map.mp hs
  refine ⟨header, hheader, he, ?_⟩
  have hkey : HeaderTable.key header.1 = HeaderTable.key name := by
    rw [HeaderTable.key_eq_iff, htrim]
    exact he
  rw [← HeaderTable.get?_congr v.headers hkey]
  exact hvalues header hheader

/-- a verifier that asks for fewer names accepts what it accepted before -/
theorem Accepted.of_subset {v : Verifier κ} {token path : String} {t : Token} {key : κ}
    {headers : List (String × Bytes)} (h : v.Accepted token path t key headers)
    (required : List String) (hsub : required ⊆ v.required) :
    { v with required }.Accepted token path t key headers where
  method := h.method
  path_eq := h.path_eq
  validPath := h.validPath
  parsed := h.parsed
  resolved := h.resolved
  algorithm := h.algorithm
  version := h.version
  covered := fun name hname => h.covered name (hsub hname)
  selected := h.selected
  signature := h.signature

theorem verify_of_subset (v : Verifier κ) (token : String) (required : List String)
    (hsub : required ⊆ v.required) (h : v.verify token = .ok ()) :
    { v with required }.verify token = .ok () := by
  obtain ⟨path, t, key, headers, hacc⟩ := (verify_eq_ok_iff v token).mp h
  exact (verify_eq_ok_iff _ token).mpr ⟨path, t, key, headers, hacc.of_subset required hsub⟩

/-- **Required headers are covered by the signature, and requirements only restrict.**  An accepted
token comes with one payload whose signature was accepted, and each required name is in its header
lines with the value of the request.  Asking for some of the names, in any order and any number of
times, keeps the token accepted; asking for more names never makes it so. -/
theorem required_covered (v : Verifier κ) (token : String) :
    (v.verify token = .ok () →
      ∃ t key path other headers, Token.parse token = .ok t ∧ v.resolveKey t.claims = .ok key ∧
        v.path = some path ∧ Spelling path other ∧
        VerifyingKey.accepts key
          (Bytes.ofText (t.signingInput (Payload.build v.method other headers v.body)))
          t.signature = true ∧
        ∀ name ∈ v.required, ∃ header ∈ headers,
          Text.EqIgnoringCase header.1 (Text.trim name) ∧
            v.headers.get? name = some header.2) ∧
      (∀ required, required ⊆ v.required → v.verify token = .ok () →
        { v with required }.verify token = .ok ()) ∧
      ∀ names e, v.verify token = .error e → (v.apply (.require names)).verify token ≠ .ok () := by
  refine ⟨?_, fun required hsub h => verify_of_subset v token required hsub h, ?_⟩
  · intro h
    obtain ⟨path, t, key, headers, hacc⟩ := (verify_eq_ok_iff v token).mp h
    obtain ⟨other, hother, hsignature⟩ := hacc.signature
    exact ⟨t, key, path, other, headers, hacc.parsed, hacc.resolved, hacc.path_eq, hother,
      hsignature, hacc.exists_header⟩
  · intro names e he hok
    have hback := verify_of_subset (v.apply (.require names)) token v.required
      (List.subset_append_left v.required names) hok
    rw [show { v.apply (.require names) with required := v.required } = v from rfl, he] at hback
    cases hback

end

/-! ## a sample -/

/-- a key that accepts one message, with any signature -/
structure OneMessage where
  message : Bytes

instance : VerifyingKey OneMessage where
  ofWebKey := fun _ => .error (.invalidKey .invalidPoint)
  accepts := fun key message _ => decide (message = key.message)

theorem OneMessage.accepts_iff (key : OneMessage) (message signature : Bytes) :
    VerifyingKey.accepts key message signature = true ↔ message = key.message :=
  decide_eq_true_iff

/-- the claims `{"alg":"ES512","tl_version":"2","tl_headers":"X-a"}` -/
def sampleClaims : String :=
  "eyJhbGciOiJFUzUxMiIsInRsX3ZlcnNpb24iOiIyIiwidGxfaGVhZGVycyI6IlgtYSJ9"

/-- what is signed for the path `/a` and the value `1` -/
def sampleKey : OneMessage :=
  ⟨Bytes.ofText (signingInput sampleClaims
    (Payload.build "POST" "/a" [("X-a", [byte '1'])] []))⟩

/-- a request with the other spelling of the path -/
def sample : Verifier OneMessage :=
  (ofKey sampleKey).applyAll
    [.path "/a/", .header "x-A" [byte '2'], .header " x-A " [byte '1'], .require [" X-A", "x-a"]]

theorem required_covered_sample :
    (∀ name ∈ sample.required, ∃ value, sample.headers.get? name = some value) ∧
      { sample with required := ["x-a", "x-a"] }.verify (Token.compact sampleClaims "AA")
        = .ok () := by
  have hok : sample.verify (Token.compact sampleClaims "AA") = .ok () :=
    eq_ok_of_toBool (by decide +kernel)
  obtain ⟨hcovered, hsubset, -⟩ := required_covered sample (Token.compact sampleClaims "AA")
  refine ⟨?_, hsubset ["x-a", "x-a"] (by decide +kernel) hok⟩
  intro name hname
  obtain ⟨-, -, -, -, headers, -, -, -, -, -, hall⟩ := hcovered hok
  obtain ⟨header, -, -, hvalue⟩ := hall name hname
  exact ⟨header.2, hvalue⟩

end Verifier

end RequestSigning
