import RequestSigning.Proofs.Verifier

/-!
# Which headers a verifier looks at

For the claims of a token a verifier looks up the signed names, and the two headers of older
signers where the claims say nothing instead (`Verifier.Consulted`).  Two verifiers that differ in
their headers at most (`SameButHeaders`), and agree on those names, give the same answer
(`verify_congr`): each stage reads the table through look-ups of such names only.

`verify_eq_of_agree` says this of sequences of calls, where the last value of a name counts, and
`verify_leave_out` of headers that no stage looks at.
-/

namespace RequestSigning

namespace Verifier

open HeaderTable (lastValue?)

section
variable {κ : Type}

/-- a name that a verifier looks up for the claims of a token -/
inductive Consulted (v : Verifier κ) (claims : Claims) : String → Prop where
  | signed (name : String) (h : name ∈ v.signedNames claims) : Consulted v claims name
  | version (h : claims.version = none) : Consulted v claims versionHeader
  | names (h : claims.headers = none) : Consulted v claims namesHeader

/-- verifiers that differ in their headers at most -/
structure SameButHeaders (v w : Verifier κ) : Prop where
  source : v.source = w.source
  method : v.method = w.method
  path : v.path = w.path
  body : v.body = w.body
  required : v.required = w.required

/-! ## stages -/

section
variable {v w : Verifier κ} {claims : Claims}

theorem fallback_congr {name : String} (h : v.headers.get? name = w.headers.get? name) :
    v.fallback name = w.fallback name := by
  rw [fallback, fallback, h]

theorem version_congr (h : claims.version = none →
    v.headers.get? versionHeader = w.headers.get? versionHeader) :
    v.version claims = w.version claims := by
  unfold version
  cases hclaim : claims.version with
  | none => exact congrArg Except.ok (fallback_congr (h hclaim))
  | some value => cases value <;> rfl

theorem signedNames_congr (h : claims.headers = none →
    v.headers.get? namesHeader = w.headers.get? namesHeader) :
    v.signedNames claims = w.signedNames claims := by
  unfold signedNames
  cases hclaim : claims.headers with
  | none => exact congrArg SignedNames.split (fallback_congr (h hclaim))
  | some names => rfl

end

/-- **Verifiers that agree on the names that are looked up give the same answer.** -/
theorem verify_congr [VerifyingKey κ] {v w : Verifier κ} (h : SameButHeaders v w) (token : String)
    (hagree : ∀ t, Token.parse token = .ok t → ∀ name, v.Consulted t.claims name →
      v.headers.get? name = w.headers.get? name) :
    v.verify token = w.verify token := by
  unfold verify
  rw [h.method, h.path]
  refine bind_congr_of_ok _ _ _ fun method _ => ?_
  refine bind_congr_of_ok _ _ _ fun path _ => ?_
  refine bind_congr_of_ok _ _ _ fun t ht => ?_
  have hlookup := hagree t ht
  have hkey : v.resolveKey t.claims = w.resolveKey t.claims := by
    rw [resolveKey, resolveKey, h.source]
  have hversion : v.version t.claims = w.version t.claims :=
    version_congr fun hclaim => hlookup _ (.version hclaim)
  have hnames : v.signedNames t.claims = w.signedNames t.claims :=
    signedNames_congr fun hclaim => hlookup _ (.names hclaim)
  have hrequired : v.checkRequired (w.signedNames t.claims)
      = w.checkRequired (w.signedNames t.claims) := by
    rw [checkRequired, checkRequired, h.required]
  have hselected : v.headers.select (w.signedNames t.claims)
      = w.headers.select (w.signedNames t.claims) :=
    HeaderTable.select_congr _ fun name hname => hlookup name (.signed name (hnames ▸ hname))
  simp only [hkey, hversion, hnames, hrequired, hselected, h.body]

/-! ## calls -/

theorem SameButHeaders.apply {v w : Verifier κ} (h : SameButHeaders v w) (call : Call) :
    SameButHeaders (v.apply call) (w.apply call) := by
  obtain ⟨hsource, hmethod, hpath, hbody, hrequired⟩ := h
  cases call with
  | method method => exact ⟨hsource, rfl, hpath, hbody, hrequired⟩
  | path path => exact ⟨hsource, hmethod, rfl, hbody, hrequired⟩
  | header name value => exact ⟨hsource, hmethod, hpath, hbody, hrequired⟩
  | headers headers => exact ⟨hsource, hmethod, hpath, hbody, hrequired⟩
  | body body => exact ⟨hsource, hmethod, hpath, rfl, hrequired⟩
  | require names => exact ⟨hsource, hmethod, hpath, hbody, congrArg (· ++ names) hrequired⟩

/-- calls keep verifiers the same but for their headers -/
theorem SameButHeaders.applyAll {v w : Verifier κ} (h : SameButHeaders v w) (calls : List Call) :
    SameButHeaders (v.applyAll calls) (w.applyAll calls) := by
  induction calls generalizing v w with
  | nil => exact h
  | cons call calls ih => exact ih (h.apply call)

/-- leaving out a call for headers changes nothing but the headers -/
theorem sameButHeaders_leave_out (v : Verifier κ) (before : List Call)
    (more : List (String × Bytes)) (after : List Call) :
    SameButHeaders (v.applyAll (before ++ after))
      (v.applyAll (before ++ .headers more :: after)) := by
  rw [applyAll_append, applyAll_append]
  have hstep : SameButHeaders (v.applyAll before) ((v.applyAll before).apply (.headers more)) :=
    ⟨rfl, rfl, rfl, rfl, rfl⟩
  exact hstep.applyAll after

/-- headers of which no name is looked up can be left out -/
theorem verify_leave_out [VerifyingKey κ] (source : KeySource κ) (before : List Call)
    (more : List (String × Bytes)) (after : List Call) (token : String)
    (hmore : ∀ t, Token.parse token = .ok t → ∀ name,
      ((ofSource source).applyAll (before ++ after)).Consulted t.claims name →
        ∀ header ∈ more, HeaderTable.key header.1 ≠ HeaderTable.key name) :
    ((ofSource source).applyAll (before ++ after)).verify token
      = ((ofSource source).applyAll (before ++ .headers more :: after)).verify token := by
  apply verify_congr (sameButHeaders_leave_out _ before more after)
  intro t ht name hname
  rw [get?_applyAll_ofSource, get?_applyAll_ofSource, added_append, added_append,
    added_headers_cons, HeaderTable.lastValue?_append, HeaderTable.lastValue?_append,
    HeaderTable.lastValue?_append, HeaderTable.lastValue?_eq_none (hmore t ht name hname),
    Option.or_none]

/-- **Headers that are not looked up, their order and the case of their names decide nothing.**
Take two sequences of calls that leave the same key source, method, path, body and required names,
and that agree on each name which a verifier looks up for the token: on its last value, or on it
being absent.  Then the results are the same, errors included.  Where the claims give version and
names, only the signed names are looked up, and headers with other names can be left out wherever
they were set, `Tl-Signature-Version` and `Tl-Signature-Headers` among them. -/
theorem verify_eq_of_agree [VerifyingKey κ] {v w : Verifier κ} {source source' : KeySource κ}
    {calls calls' : List Call} (hv : v = (ofSource source).applyAll calls)
    (hw : w = (ofSource source').applyAll calls') (hsame : SameButHeaders v w) (token : String)
    (hagree : ∀ t, Token.parse token = .ok t → ∀ name, v.Consulted t.claims name →
      lastValue? (added calls) name = lastValue? (added calls') name) :
    v.verify token = w.verify token ∧
      ∀ before more after, calls = before ++ .headers more :: after →
        (∀ t, Token.parse token = .ok t → t.claims.version ≠ none ∧
          ∃ names, t.claims.headers = some names ∧ ∀ name ∈ SignedNames.split names,
            ∀ header ∈ more, HeaderTable.key header.1 ≠ HeaderTable.key name) →
        ((ofSource source).applyAll (before ++ after)).verify token = v.verify token := by
  constructor
  · apply verify_congr hsame
    intro t ht name hname
    rw [hv, hw, get?_applyAll_ofSource, get?_applyAll_ofSource]
    exact hagree t ht name hname
  · rintro before more after rfl hmore
    rw [hv]
    apply verify_leave_out
    intro t ht name hname
    obtain ⟨hversion, names, hnames, hunsigned⟩ := hmore t ht
    cases hname with
    | signed _ hsigned =>
      rw [signedNames, hnames] at hsigned
      exact hunsigned name hsigned
    | version habsent => exact absurd habsent hversion
    | names habsent =>
      rw [hnames] at habsent
      cases habsent

end

/-! The two headers of older signers say that another version was used and that another header is
signed; the claims of the token overrule them. -/

/-- the claims of a token that signs one header -/
def agreeClaims : Claims := Claims.ofSigner "k" ["X-a"] none

/-- a key for the path `/a` and the value `1` -/
def agreeKey : OneMessage :=
  ⟨Bytes.ofText (signingInput agreeClaims.encode
    (Payload.build "POST" "/a" [("X-a", [byte '1'])] []))⟩

/-- the headers of older signers -/
def overruled : List (String × Bytes) :=
  [(versionHeader, [byte '1']), ("TL-signature-headers", Bytes.ofText "X-b")]

def agreeCalls : List Call := [.path "/a", .headers overruled, .header "X-a" [byte '1']]

/-- the same request with its headers in another order, one overwritten and one added -/
def agreeCalls' : List Call :=
  [.header "x-A " [byte '2'], .header "Via" [byte 'p'], .path "/a", .headers [(" x-a", [byte '1'])]]

theorem verify_agreeCalls :
    ((ofKey agreeKey).applyAll agreeCalls').verify (Token.compact agreeClaims.encode "AA")
        = .ok () ∧
      ((ofKey agreeKey).applyAll [.path "/a", .header "X-a" [byte '1']]).verify
        (Token.compact agreeClaims.encode "AA") = .ok () := by
  have hok : ((ofKey agreeKey).applyAll agreeCalls).verify
      (Token.compact agreeClaims.encode "AA") = .ok () := eq_ok_of_toBool (by decide +kernel)
  have htext : Base64.decode? (Bytes.ofText "AA") = some [0] := by decide
  have hparse := Token.parse_compact agreeClaims (Claims.decode_encode_ofSigner "k" ["X-a"] none)
    "AA" [0] htext
  have hnames : SignedNames.split (SignedNames.join ["X-a"]) = ["X-a"] := by decide
  have hclaims : ∀ t, Token.parse (Token.compact agreeClaims.encode "AA") = .ok t →
      t.claims = agreeClaims := by
    intro t ht
    rw [hparse] at ht
    rw [← Except.ok.inj ht]
  have hsame : SameButHeaders ((ofKey agreeKey).applyAll agreeCalls)
      ((ofKey agreeKey).applyAll agreeCalls') := ⟨rfl, rfl, rfl, rfl, rfl⟩
  have hagree : ∀ t, Token.parse (Token.compact agreeClaims.encode "AA") = .ok t →
      ∀ name, ((ofKey agreeKey).applyAll agreeCalls).Consulted t.claims name →
        lastValue? (added agreeCalls) name = lastValue? (added agreeCalls') name := by
    intro t ht name hname
    rw [hclaims t ht] at hname
    cases hname with
    | signed _ hsigned =>
      have hmem : name ∈ ["X-a"] := by
        rw [← hnames]
        exact hsigned
      rw [List.mem_singleton.mp hmem]
      decide
    | version habsent => cases habsent
    | names habsent => cases habsent
  obtain ⟨heq, hleave⟩ :=
    verify_eq_of_agree rfl rfl hsame (Token.compact agreeClaims.encode "AA") hagree
  refine ⟨heq.symm.trans hok, ?_⟩
  rw [← hok]
  apply hleave [.path "/a"] overruled [.header "X-a" [byte '1']] rfl
  intro t ht
  rw [hclaims t ht]
  refine ⟨Option.some_ne_none _, SignedNames.join ["X-a"], rfl, ?_⟩
  rw [hnames]
  decide

end Verifier

end RequestSigning
