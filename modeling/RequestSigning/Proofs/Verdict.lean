import RequestSigning.Key.Public
import RequestSigning.Proofs.Verifier

/-!
# The verdict on a signature comes last

The errors of a verifier are of two sorts.  `Error.isStructural` holds of those that a stage before
the signature gives; the verdict on the signature itself is `.ok ()` or `.error .invalidSignature`
(`Verifier.Decided`).

Two results are `Alike` if both are verdicts or both are one structural error.  Stages that two
runs have in common keep their results alike (`Alike.bind`), and so body and signature, which no
stage but the last one reads, decide nothing but the verdict (`verify_alike`).
-/

namespace RequestSigning

/-- an error in the values on a verifier, the token, the key or the headers -/
def Error.isStructural : Error → Bool
  | .invalidArgument _ => true
  | .malformedSignature _ => true
  | .missingKid => true
  | .noMatchingKey _ => true
  | .unsupportedKey _ _ _ => true
  | .invalidKey _ => true
  | .unsupportedAlgorithm _ => true
  | .unsupportedVersion _ => true
  | .missingRequiredHeader _ => true
  | .missingSignedHeader _ => true
  | .invalidSignature => false
  | .signing _ => false
  | .missingSignature => false

/-- a stage that gives structural errors only -/
abbrev FailsStructurally {α : Type} (x : Except Error α) : Prop := FailsWith (·.isStructural) x

/-! ## the errors of each stage -/

theorem failsStructurally_checkMethod (method : String) :
    FailsStructurally (checkMethod method) :=
  failsWith_ite _ (failsWith_ok method) (failsWith_error rfl)

theorem failsStructurally_checkPath (path? : Option String) :
    FailsStructurally (checkPath path?) := by
  cases path? with
  | none => exact failsWith_error rfl
  | some path => exact failsWith_ite _ (failsWith_ok path) (failsWith_error rfl)

theorem failsStructurally_decode (segment : String) :
    FailsStructurally (Claims.decode segment) := by
  unfold Claims.decode
  cases Base64.decode? (Bytes.ofText segment) with
  | none => exact failsWith_error rfl
  | some json =>
    dsimp only
    cases Claims.read? json with
    | none => exact failsWith_error rfl
    | some claims => exact failsWith_ok claims

theorem failsStructurally_claimsIn (header : String) :
    FailsStructurally (Token.claimsIn header) :=
  failsWith_ite _ (failsWith_error rfl) (failsStructurally_decode header)

theorem failsStructurally_orKeyFault {α : Type} (fault : KeyFault) (x : Option α) :
    FailsStructurally (orKeyFault fault x) := by
  cases x with
  | none => exact failsWith_error rfl
  | some a => exact failsWith_ok a

theorem failsStructurally_requiredElement (name : String) (parameter : Option String) :
    FailsStructurally (requiredElement name parameter) := by
  refine (failsStructurally_orKeyFault _ parameter).bind fun encoded => ?_
  unfold fieldElement
  cases Base64.decode? (Bytes.ofText encoded) with
  | none => exact failsWith_error rfl
  | some octets => exact failsWith_ite _ (failsWith_error rfl) (failsWith_ok _)

theorem failsStructurally_ofWebKey (key : WebKey) :
    FailsStructurally (PublicKey.ofWebKey key) := by
  have hkind : FailsStructurally (ensureP521WebKey key) :=
    failsWith_ite _ (failsWith_ok ()) (failsWith_error rfl)
  refine hkind.bind fun _ => ?_
  refine (failsStructurally_requiredElement "x" key.x).bind fun _ => ?_
  refine (failsStructurally_requiredElement "y" key.y).bind fun _ => ?_
  exact failsStructurally_orKeyFault _ _

theorem failsStructurally_find (keys : KeySet) (kid : String) :
    FailsStructurally (keys.find kid) := by
  unfold KeySet.find
  cases keys.keys.find? fun k => k.kid = some kid with
  | none => exact failsWith_error rfl
  | some key => exact failsWith_ok key

theorem failsStructurally_select (t : HeaderTable) (names : List String) :
    FailsStructurally (t.select names) := by
  refine FailsWith.mapM (fun name => ?_) names
  unfold HeaderTable.getSigned
  cases t.get? name with
  | none => exact failsWith_error rfl
  | some value => exact failsWith_ok _

namespace Verifier

section
variable {κ : Type}

theorem failsStructurally_checkAlgorithm (claims : Claims) :
    FailsStructurally (checkAlgorithm claims) :=
  failsWith_ite _ (failsWith_ok ()) (failsWith_error rfl)

theorem failsStructurally_version (v : Verifier κ) (claims : Claims) :
    FailsStructurally (v.version claims) := by
  unfold version
  cases claims.version with
  | none => exact failsWith_ok _
  | some value =>
    cases value with
    | string version => exact failsWith_ok version
    | _ => exact failsWith_error rfl

theorem failsStructurally_checkVersion (version : String) :
    FailsStructurally (checkVersion version) :=
  failsWith_ite _ (failsWith_ok ()) (failsWith_error rfl)

theorem failsStructurally_checkRequired (v : Verifier κ) (signed : List String) :
    FailsStructurally (v.checkRequired signed) := by
  refine FailsWith.forM (f := checkRequiredName signed) (fun name => ?_) v.required
  exact failsWith_ite _ (failsWith_ok ()) (failsWith_error rfl)

variable [VerifyingKey κ]

theorem failsStructurally_resolveKey
    (hkeys : ∀ key, FailsStructurally (VerifyingKey.ofWebKey (κ := κ) key)) (v : Verifier κ)
    (claims : Claims) : FailsStructurally (v.resolveKey claims) := by
  unfold resolveKey
  cases v.source with
  | fixed key => exact failsWith_ok key
  | named keys =>
    cases claims.kid with
    | none => exact failsWith_error rfl
    | some kid =>
      refine (failsStructurally_find keys kid).bind fun key => ?_
      exact failsWith_ite _ (hkeys key) (failsWith_error rfl)

end

/-! ## verdicts -/

/-- a verdict on the signature -/
def Decided (result : Except Error Unit) : Prop :=
  result = .ok () ∨ result = .error .invalidSignature

/-- two verdicts, or the same structural error -/
def Alike (a b : Except Error Unit) : Prop :=
  (Decided a ∧ Decided b) ∨ ∃ e : Error, e.isStructural ∧ a = .error e ∧ b = .error e

theorem decided_ite (c : Prop) [Decidable c] :
    Decided (if c then .ok () else .error .invalidSignature) := by
  by_cases h : c
  · exact Or.inl (if_pos h)
  · exact Or.inr (if_neg h)

/-- **A stage that two runs have in common keeps them alike.** -/
theorem Alike.bind {α : Type} {x : Except Error α} (hx : FailsStructurally x)
    {f g : α → Except Error Unit} (h : ∀ a, Alike (f a) (g a)) : Alike (x >>= f) (x >>= g) := by
  cases x with
  | error e => exact Or.inr ⟨e, hx e rfl, rfl, rfl⟩
  | ok a => exact h a

/-- two runs that differ in body and signature are alike, stage by stage -/
theorem alike_verify {κ : Type} [VerifyingKey κ]
    (hkeys : ∀ key, FailsStructurally (VerifyingKey.ofWebKey (κ := κ) key)) (v : Verifier κ)
    (body : Bytes) {header text text' : String} (hheader : '.' ∉ header.toList)
    {signature signature' : Bytes} (htext : Base64.decode? (Bytes.ofText text) = some signature)
    (htext' : Base64.decode? (Bytes.ofText text') = some signature') :
    Alike (v.verify (Token.compact header text))
      ((v.apply (.body body)).verify (Token.compact header text')) := by
  refine Alike.bind (failsStructurally_checkMethod v.method) fun method => ?_
  refine Alike.bind (failsStructurally_checkPath v.path) fun path => ?_
  -- the two tokens are read as the same claims, with different signatures
  rw [Token.parse_compact_eq hheader htext, Token.parse_compact_eq hheader htext']
  cases hclaims : Token.claimsIn header with
  | error e => exact Or.inr ⟨e, failsStructurally_claimsIn header e hclaims, rfl, rfl⟩
  | ok claims =>
    refine Alike.bind (failsStructurally_resolveKey hkeys v claims) fun key => ?_
    refine Alike.bind (failsStructurally_checkAlgorithm claims) fun _ => ?_
    refine Alike.bind (failsStructurally_version v claims) fun version => ?_
    refine Alike.bind (failsStructurally_checkVersion version) fun _ => ?_
    refine Alike.bind (failsStructurally_checkRequired v (v.signedNames claims)) fun _ => ?_
    refine Alike.bind (failsStructurally_select v.headers (v.signedNames claims)) fun headers => ?_
    exact Or.inl ⟨decided_ite _, decided_ite _⟩

/-- **Body and signature decide the verdict and nothing else.**  Whatever the values on a verifier,
take two bodies, and two tokens with the same first segment and with signatures that can be
decoded, of any length.  Either both results are a verdict, also after the other spelling of the
path has been tried, or both are the same structural error. -/
theorem verify_alike (v : Verifier PublicKey) (body : Bytes) {header text text' : String}
    (hheader : '.' ∉ header.toList) {signature signature' : Bytes}
    (htext : Base64.decode? (Bytes.ofText text) = some signature)
    (htext' : Base64.decode? (Bytes.ofText text') = some signature') :
    Alike (v.verify (Token.compact header text))
      ((v.apply (.body body)).verify (Token.compact header text')) :=
  alike_verify failsStructurally_ofWebKey v body hheader htext htext'

/-- a verifier that asks for a header which the sample token does not sign -/
def demanding : Verifier PublicKey :=
  (ofKey ⟨Curve.generator⟩).applyAll [.path "/a", .header "X-a" [byte '1'], .require [" X-b"]]

theorem verify_demanding :
    demanding.verify (Token.compact sampleClaims "AA") = .error (.missingRequiredHeader "X-b") ∧
      (demanding.apply (.body [byte 'b'])).verify (Token.compact sampleClaims "")
        = .error (.missingRequiredHeader "X-b") := by
  have herror : demanding.verify (Token.compact sampleClaims "AA")
      = .error (.missingRequiredHeader "X-b") :=
    eq_error_of_error? (by decide +kernel)
  have hheader : '.' ∉ sampleClaims.toList := by decide
  have htext : Base64.decode? (Bytes.ofText "AA") = some [0] := by decide
  have htext' : Base64.decode? (Bytes.ofText "") = some [] := by decide
  refine ⟨herror, ?_⟩
  rcases verify_alike demanding [byte 'b'] hheader htext htext' with ⟨hdecided, -⟩ | ⟨e, -, h, h'⟩
  · rw [herror] at hdecided
    rcases hdecided with h | h <;> cases h
  · rw [h', ← h, herror]

end Verifier

end RequestSigning
