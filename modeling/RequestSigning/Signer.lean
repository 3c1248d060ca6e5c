import RequestSigning.Future
import RequestSigning.HeaderTable
import RequestSigning.Payload
import RequestSigning.RequestLine
import RequestSigning.Token

/-!
# Signing a request

A `Signer` collects what is to be signed.  Headers are signed in the order in which they are
added; the first one that cannot be signed is an error that the signer keeps (`Signer.fault?`)
while further values are set.  `prepare` checks everything and computes the claims and the signing
input.

The signature itself comes from a strategy, a function from signing inputs to signatures in
base64url or failures.  `sign` asks a strategy that answers at once, `signAsync` one that answers
later; the monad is for strategies with effects.
-/

namespace RequestSigning

/-- what is to be signed -/
structure Signer where
  kid : String
  method : String
  path : Option String
  headers : HeaderTable
  body : Bytes
  jku : Option String
  /-- the first error of adding a header -/
  fault? : Option Error

namespace Signer

/-- a signer for a key of which only the name is known -/
def new (kid : String) : Signer where
  kid := kid
  method := defaultMethod
  path := none
  headers := .empty
  body := []
  jku := none
  fault? := none

/-! ## setting values -/

/-- a name that is not blank and holds no comma -/
def Signable (name : String) : Prop := Text.trimChars name.toList ≠ [] ∧ ',' ∉ name.toList

instance (name : String) : Decidable (Signable name) := inferInstanceAs (Decidable (_ ∧ _))

/-- the headers with one more -/
def extend (headers : HeaderTable) (name : String) (value : Bytes) : Except Error HeaderTable :=
  if Signable name then headers.insertNew name value
  else .error (.invalidArgument (.unsignableName name))

/-- the signer with one more header, or with an error if it has none yet -/
def addHeader (s : Signer) (name : String) (value : Bytes) : Signer :=
  match extend s.headers name value with
  | .ok headers => { s with headers }
  | .error e => { s with fault? := s.fault?.or (some e) }

def addHeaders (s : Signer) (headers : List (String × Bytes)) : Signer :=
  headers.foldl (fun s header => s.addHeader header.1 header.2) s

/-- a value to be set on a signer -/
inductive Call where
  | method (method : String)
  | path (path : String)
  | header (name : String) (value : Bytes)
  | headers (headers : List (String × Bytes))
  | body (body : Bytes)
  | jku (jku : String)

def apply (s : Signer) : Call → Signer
  | .method method => { s with method }
  | .path path => { s with path := some path }
  | .header name value => s.addHeader name value
  | .headers headers => s.addHeaders headers
  | .body body => { s with body }
  | .jku jku => { s with jku := some jku }

def applyAll (s : Signer) (calls : List Call) : Signer := calls.foldl apply s

/-! ## preparing -/

/-- all that a signature needs -/
structure Prepared where
  encodedHeader : String
  signingInput : String

def claims (s : Signer) : Claims := Claims.ofSigner s.kid s.headers.names s.jku

/-- the claims and the signing input, or what is wrong with the values -/
def prepare (s : Signer) : Except Error Prepared :=
  match s.fault? with
  | some e => .error e
  | none => do
    let method ← checkMethod s.method
    let path ← checkPath s.path
    let payload := Payload.build method path s.headers.toList s.body
    return ⟨s.claims.encode, signingInput s.claims.encode payload⟩

/-! ## signing -/

section
variable {m : Type → Type} [Monad m]

/-- the token with the signature of a strategy, which is asked once if the values are right and
not at all otherwise -/
def sign (s : Signer) (strategy : String → m (Except String String)) :
    m (Except Error String) :=
  match s.prepare with
  | .error e => pure (.error e)
  | .ok prepared => do
    match ← strategy prepared.signingInput with
    | .ok signature => pure (.ok (Token.compact prepared.encodedHeader signature))
    | .error source => pure (.error (.signing source))

/-- the token with the signature of a strategy that answers later -/
def signAsync (s : Signer) (strategy : String → m (Future (Except String String))) :
    m (Future (Except Error String)) := do
  match s.prepare with
  | .error e => return .ready (.error e)
  | .ok ⟨encodedHeader, signingInput⟩ =>
    let answer ← strategy signingInput
    return answer.map fun signature =>
      (signature.mapError Error.signing).map (Token.compact encodedHeader)

end

end Signer

end RequestSigning
