import RequestSigning.Proofs.Verifier

/-!
# Claims that are left out

The version of the signing scheme and the list of signed names are claims of a token, or headers of
the request where the token has no such claim; this is so for each of the two by itself.  `Told`
says that both can be found for a list of names.  Then a verifier comes as far as the signature
(`passed_of_told`), so that it accepts what its key accepts.

A header is read as text, whatever its octets.  Only the octets of the version itself are read as
the version (`fallback_eq_currentVersion_iff`), so that a token without a version is refused on
every request that does not have these.  `verify_of_told` says both.
-/

namespace RequestSigning.Verifier

open HeaderTable (lastValue?)

/-- version and signed names are in the claims of a token, and where a claim is left out, in the
header that is looked up in place of it -/
structure Told (header? : String → Option Bytes) (claims : Claims) (names : List String) :
    Prop where
  versionClaim : ∀ version, claims.version = some version → version = .string Claims.currentVersion
  namesClaim : ∀ text, claims.headers = some text → text = SignedNames.join names
  versionHeader : claims.version = none →
    header? Verifier.versionHeader = some (Bytes.ofText Claims.currentVersion)
  namesHeader : claims.headers = none →
    header? Verifier.namesHeader = some (Bytes.ofText (SignedNames.join names))

section
variable {κ : Type} {v : Verifier κ}

/-! ## headers in place of claims -/

theorem fallback_of_get? {name text : String}
    (h : v.headers.get? name = some (Bytes.ofText text)) : v.fallback name = text := by
  rw [fallback, h, Option.map_some, Option.getD_some, Utf8.decodeLossy_ofText]

/-- **The version is read from its own octets only.** -/
theorem fallback_eq_currentVersion_iff (v : Verifier κ) (name : String) :
    v.fallback name = Claims.currentVersion ↔
      v.headers.get? name = some (Bytes.ofText Claims.currentVersion) := by
  have hascii : ∀ c ∈ Claims.currentVersion.toList, c ≠ '\x00' ∧ c.toNat < 128 := by
    have hlist : Claims.currentVersion.toList = ['2'] := rfl
    intro c hc
    rw [hlist, List.mem_singleton] at hc
    rw [hc]
    decide
  constructor
  · intro h
    unfold fallback at h
    cases hvalue : v.headers.get? name with
    | none =>
      rw [hvalue] at h
      exact absurd h (by decide)
    | some value =>
      rw [hvalue] at h
      exact congrArg some ((Utf8.decodeLossy_eq_iff hascii value).mp h)
  · exact fallback_of_get?

section
variable {claims : Claims} {names : List String} (h : Told v.headers.get? claims names)
include h

theorem Told.version_eq : v.version claims = .ok Claims.currentVersion := by
  unfold version
  cases hversion : claims.version with
  | none => exact congrArg Except.ok (fallback_of_get? (h.versionHeader hversion))
  | some version =>
    obtain rfl := h.versionClaim version hversion
    rfl

theorem Told.signedNames_eq (hlistable : ∀ name ∈ names, SignedNames.Listable name) :
    v.signedNames claims = names := by
  have htext : claims.headers.getD (v.fallback Verifier.namesHeader) = SignedNames.join names := by
    cases hnames : claims.headers with
    | none => exact fallback_of_get? (h.namesHeader hnames)
    | some text => exact h.namesClaim text hnames
  rw [signedNames, htext, SignedNames.split_join names hlistable]

end

/-! ## as far as the version, as far as the signature -/

section
variable [VerifyingKey κ] {token path : String} {t : Token} {key : κ}
  (hmethod : ValidMethod v.method) (hpath : v.path = some path) (hvalid : ValidPath path)
  (hparsed : Token.parse token = .ok t) (hresolved : v.resolveKey t.claims = .ok key)
  (halgorithm : t.claims.algorithm = some Claims.es512)
include hmethod hpath hvalid hparsed hresolved halgorithm

/-- a verifier that can find version and names comes as far as the signature -/
theorem passed_of_told {headers : List (String × Bytes)}
    (h : Told v.headers.get? t.claims (headers.map (·.1)))
    (hlistable : ∀ header ∈ headers, SignedNames.Listable header.1)
    (hvalues : ∀ header ∈ headers, v.headers.get? header.1 = some header.2)
    (hrequired : ∀ name ∈ v.required, Covered (headers.map (·.1)) name) :
    v.Passed token path t key headers := by
  have hnames : v.signedNames t.claims = headers.map (·.1) :=
    h.signedNames_eq (List.forall_mem_map.mpr hlistable)
  refine ⟨hmethod, hpath, hvalid, hparsed, hresolved, halgorithm, h.version_eq, ?_, ?_⟩
  · rw [hnames]
    exact hrequired
  · exact (HeaderTable.select_eq_ok_iff _ _ _).mpr ⟨hnames.symm, hvalues⟩

/-- another version is an error, whatever the names and the signature -/
theorem verify_eq_error_of_version {version : String} (hversion : v.version t.claims = .ok version)
    (hne : version ≠ Claims.currentVersion) :
    v.verify token = .error (.unsupportedVersion version) := by
  rw [verify, (checkMethod_eq_ok_iff _ _).mpr ⟨hmethod, rfl⟩, ok_bind,
    (checkPath_eq_ok_iff _ _).mpr ⟨hpath, hvalid⟩, ok_bind, hparsed, ok_bind, hresolved, ok_bind,
    (checkAlgorithm_eq_ok_iff _).mpr halgorithm, ok_bind, hversion, ok_bind, checkVersion,
    if_neg hne]
  rfl

end

/-- **Headers stand in for claims that are left out.**  Take any claims with the algorithm ES512, in
a token with any signature, and any verifier with one key, a valid method and a valid path.  If
version and signed names are in the claims or in the headers, the request has the signed headers,
all required names are among them, and the key accepts the signature on the payload of the request,
then the verifier accepts the token.  And if there is no version in the claims, the verifier refuses
the token for it, unless the last header of the version has just its octets. -/
theorem verify_of_told [VerifyingKey κ] {key : κ} {calls : List Call}
    (hv : v = (ofKey key).applyAll calls) {segment text : String} {claims : Claims}
    (hclaims : Claims.decode segment = .ok claims) {signature : Bytes}
    (htext : Base64.decode? (Bytes.ofText text) = some signature)
    (halgorithm : claims.algorithm = some Claims.es512) (hmethod : ValidMethod v.method)
    {path : String} (hpath : v.path = some path) (hvalid : ValidPath path) :
    (∀ headers : List (String × Bytes), (∀ h ∈ headers, SignedNames.Listable h.1) →
      (∀ h ∈ headers, lastValue? (added calls) h.1 = some h.2) →
      (∀ name ∈ v.required, Covered (headers.map (·.1)) name) →
      Told (lastValue? (added calls)) claims (headers.map (·.1)) →
      VerifyingKey.accepts key (Bytes.ofText
        (signingInput segment (Payload.build v.method path headers v.body))) signature = true →
      v.verify (Token.compact segment text) = .ok ()) ∧
    (claims.version = none →
      lastValue? (added calls) versionHeader ≠ some (Bytes.ofText Claims.currentVersion) →
      v.verify (Token.compact segment text) = .error (.unsupportedVersion
        (((lastValue? (added calls) versionHeader).map Utf8.decodeLossy).getD ""))) := by
  have hheaders : v.headers.get? = lastValue? (added calls) := by
    funext name
    rw [hv]
    exact get?_applyAll_ofKey key calls name
  have hresolved : v.resolveKey claims = .ok key := by
    rw [hv]
    exact resolveKey_applyAll_ofKey key calls claims
  have hparsed := Token.parse_compact_of_decode hclaims htext
  rw [← hheaders]
  refine ⟨fun headers hlistable hvalues hrequired htold hkey => ?_, fun hnone hother => ?_⟩
  · have hpassed := passed_of_told hmethod hpath hvalid hparsed hresolved halgorithm htold hlistable
      hvalues hrequired
    rw [hpassed.verify_eq]
    exact if_pos ((acceptsPath_eq_true_iff _ _).mpr ⟨path, Spelling.refl path, hkey⟩)
  · have hversion : v.version claims = .ok (v.fallback versionHeader) := by
      rw [version, hnone]
    exact verify_eq_error_of_version hmethod hpath hvalid hparsed hresolved halgorithm hversion
      fun h => hother ((fallback_eq_currentVersion_iff v versionHeader).mp h)

end

/-! Claims with and without version and names, on a request with both headers, which are signed
themselves. -/

def partialClaims (version : Option Json.Value) (headers : Option String) : Claims where
  algorithm := some Claims.es512
  kid := none
  version := version
  headers := headers
  jku := none

/-- the text of the signed names -/
def toldNames : String := "X-a,Tl-Signature-Headers,tl-signature-version"

def toldHeaders : List (String × Bytes) :=
  [("X-a", [byte '1']), ("Tl-Signature-Headers", Bytes.ofText toldNames),
    ("tl-signature-version", [byte '2'])]

/-- a request with those headers and a version -/
def toldCalls (version : Bytes) : List Call :=
  [.path "/a", .header "TL-SIGNATURE-VERSION" version,
    .headers [("tl-signature-headers", Bytes.ofText toldNames), (" x-A ", [byte '1'])],
    .require ["x-a"]]

/-- a verifier for that request, with a key for those headers -/
def told (claims : Claims) (version : Bytes) : Verifier OneMessage :=
  (ofKey ⟨Bytes.ofText (signingInput claims.encode
    (Payload.build defaultMethod "/a" toldHeaders []))⟩).applyAll (toldCalls version)

theorem decode_partialClaims {version : Option Json.Value}
    (hversion : ∀ v, version = some v → v = .string Claims.currentVersion)
    (headers : Option String) :
    Claims.decode (partialClaims version headers).encode = .ok (partialClaims version headers) := by
  apply Claims.decode_encode
  intro value hvalue
  rw [hversion value hvalue]
  exact Claims.readsTo_versionClaim_string _

theorem listable_toldHeaders : ∀ h ∈ toldHeaders, SignedNames.Listable h.1 := by
  have hsplit : toldHeaders.map (·.1) = SignedNames.split toldNames := by decide +kernel
  intro h hm
  exact SignedNames.listable_of_mem_split toldNames h.1 (hsplit ▸ List.mem_map_of_mem hm)

theorem told_toldHeaders {version : Option Json.Value} {headers : Option String}
    (hversion : ∀ v, version = some v → v = .string Claims.currentVersion)
    (hheaders : ∀ names, headers = some names → names = toldNames) :
    Told (lastValue? (added (toldCalls [byte '2']))) (partialClaims version headers)
      (toldHeaders.map (·.1)) := by
  have hnames : SignedNames.join (toldHeaders.map (·.1)) = toldNames := by decide +kernel
  refine ⟨hversion, ?_, fun _ => by decide +kernel, fun _ => by decide +kernel⟩
  rw [hnames]
  exact hheaders

theorem verify_partialClaims :
    (∀ version ∈ [none, some (.string Claims.currentVersion)],
      ∀ headers ∈ [none, some toldNames],
        (told (partialClaims version headers) [byte '2']).verify
          (Token.compact (partialClaims version headers).encode "AA") = .ok ()) ∧
      (told (partialClaims none none) [byte '2', 0xFF]).verify
        (Token.compact (partialClaims none none).encode "AA")
          = .error (.unsupportedVersion "2\uFFFD") := by
  have htext : Base64.decode? (Bytes.ofText "AA") = some [0] := by decide
  have hmethod : ValidMethod defaultMethod := by decide
  have hvalid : ValidPath "/a" := by decide
  constructor
  · intro version hversion headers hheaders
    have hclaims : ∀ v, version = some v → v = .string Claims.currentVersion := by
      rintro v rfl
      simpa using hversion
    have hnames : ∀ names, headers = some names → names = toldNames := by
      rintro names rfl
      simpa using hheaders
    have hrequired : ∀ name ∈ ["x-a"], Covered (toldHeaders.map (·.1)) name := by
      intro name hname
      obtain rfl := List.mem_singleton.mp hname
      exact ⟨"X-a", List.mem_cons_self, by decide⟩
    have hrequest : (told (partialClaims version headers) [byte '2']).method = defaultMethod ∧
        (told (partialClaims version headers) [byte '2']).body = [] := ⟨rfl, rfl⟩
    have hv : told (partialClaims version headers) [byte '2'] = (ofKey _).applyAll _ := rfl
    exact (verify_of_told hv (decode_partialClaims hclaims headers) htext rfl hmethod rfl hvalid).1
      toldHeaders listable_toldHeaders (by decide +kernel) hrequired
      (told_toldHeaders hclaims hnames)
      (by rw [OneMessage.accepts_iff, hrequest.1, hrequest.2])
  · have hnone : ∀ v, (none : Option Json.Value) = some v → v = .string Claims.currentVersion :=
      fun v h => by cases h
    have hclaims := decode_partialClaims hnone none
    have hv : told (partialClaims none none) [byte '2', 0xFF] = (ofKey _).applyAll _ := rfl
    have hread : (((lastValue? (added (toldCalls [byte '2', 0xFF])) versionHeader).map
        Utf8.decodeLossy).getD "") = "2\uFFFD" := by decide +kernel
    rw [← hread]
    exact (verify_of_told hv hclaims htext rfl hmethod rfl hvalid).2 rfl (by decide +kernel)

end RequestSigning.Verifier
