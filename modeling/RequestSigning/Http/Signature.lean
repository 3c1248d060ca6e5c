import RequestSigning.Http.Request
import RequestSigning.Signer
import RequestSigning.Verifier

/-!
# Signatures on HTTP requests

The token of a request is the value of its field `tl-signature`.  `Request.sign` takes method, path
and body from the request and signs the fields that are named; `Request.verify` takes all of the
request, and the source of the key and the required headers from a verifier.
-/

namespace RequestSigning.Http

/-- the field with the token -/
def signatureField : FieldName := ⟨"tl-signature", by decide⟩

namespace Request

/-! ## signing -/

def signedHeader (r : Request) (name : String) : Except Error (String × Bytes) :=
  match r.lookup? name with
  | some value => .ok (name, value.octets)
  | none => .error (.invalidArgument (.headerAbsent name))

def signer (r : Request) (kid : String) (headers : List (String × Bytes)) : Signer :=
  (Signer.new kid).applyAll
    [.method r.method.name, .path r.target.path, .body r.body, .headers headers]

def withToken (r : Request) (token : String) : Except Error Request :=
  match FieldValue.ofOctets? (Bytes.ofText token) with
  | some value => .ok (r.set signatureField value)
  | none => .error (.invalidArgument .tokenNotFieldValue)

/-- the request with a token that signs the named headers, in the order and spelling given -/
def sign {m : Type → Type} [Monad m] (r : Request) (kid : String)
    (strategy : String → m (Except String String)) (names : List String) :
    m (Except Error Request) :=
  match names.mapM r.signedHeader with
  | .error e => pure (.error e)
  | .ok headers => do
    let token ← (r.signer kid headers).sign strategy
    return token.bind r.withToken

/-! ## verifying -/

def token (r : Request) : Except Error String :=
  match r.get? signatureField with
  | none => .error .missingSignature
  | some value =>
    match value.text? with
    | some token => .ok token
    | none => .error (.malformedSignature .notAscii)

/-- a verifier with method, path, headers and body of a request; headers that were set before stay
unless the request has them too -/
def received {κ : Type} (r : Request) (v : Verifier κ) : Verifier κ :=
  v.applyAll [.method r.method.name, .path r.target.path, .headers r.headers, .body r.body]

/-- the token of a request belongs to the request, or why it does not -/
def verify {κ : Type} [VerifyingKey κ] (r : Request) (v : Verifier κ) : Except Error Unit := do
  let token ← r.token
  (r.received v).verify token

end Request

end RequestSigning.Http
