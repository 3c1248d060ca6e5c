import RequestSigning.KeySet
import RequestSigning.HeaderTable
import RequestSigning.Payload
import RequestSigning.RequestLine
import RequestSigning.Token

/-!
# Verifying a request

A `Verifier` holds a request as it was received, the source of the key, and the names of headers
that have to be signed.  `verify` builds the payload again from the request and the names in the
token, and checks the signature of the token on it; the stages come in this order:

1. method and path are valid;
2. the token is well formed;
3. the key is there: a fixed one, or the one in a key set that the token names;
4. algorithm and version are supported;
5. the required headers are among the signed ones, and the signed ones are on the request;
6. the signature belongs to the payload, or to the payload with the other spelling of the path.

Older signers sent version and names in two request headers.  They count where the token has no
such claim.
-/

namespace RequestSigning

/-- where the key comes from -/
inductive KeySource (κ : Type) where
  /-- one key for all tokens -/
  | fixed (key : κ)
  /-- the key that the token names -/
  | named (keys : KeySet)

/-- a request as it was received, and what is asked of its signature -/
structure Verifier (κ : Type) where
  source : KeySource κ
  method : String
  path : Option String
  headers : HeaderTable
  body : Bytes
  required : List String

namespace Verifier

def versionHeader : String := "Tl-Signature-Version"

def namesHeader : String := "Tl-Signature-Headers"

section
variable {κ : Type}

/-- a verifier for a request of which nothing is known yet -/
def ofSource (source : KeySource κ) : Verifier κ where
  source := source
  method := defaultMethod
  path := none
  headers := .empty
  body := []
  required := []

def ofKey (key : κ) : Verifier κ := ofSource (.fixed key)

def ofKeySet (keys : KeySet) : Verifier κ := ofSource (.named keys)

/-! ## setting values -/

/-- a value to be set on a verifier -/
inductive Call where
  | method (method : String)
  | path (path : String)
  | header (name : String) (value : Bytes)
  | headers (headers : List (String × Bytes))
  | body (body : Bytes)
  | require (names : List String)

def apply (v : Verifier κ) : Call → Verifier κ
  | .method method => { v with method }
  | .path path => { v with path := some path }
  | .header name value => { v with headers := v.headers.insert name value }
  | .headers headers => { v with headers := v.headers.insertAll headers }
  | .body body => { v with body }
  | .require names => { v with required := v.required ++ names }

def applyAll (v : Verifier κ) (calls : List Call) : Verifier κ := calls.foldl apply v

/-! ## stages -/

def resolveKey [VerifyingKey κ] (v : Verifier κ) (claims : Claims) : Except Error κ :=
  match v.source with
  | .fixed key => .ok key
  | .named keys =>
    match claims.kid with
    | none => .error .missingKid
    | some kid => keys.resolve kid

def checkAlgorithm (claims : Claims) : Except Error Unit :=
  if claims.algorithm = some Claims.es512 then .ok ()
  else .error (.unsupportedAlgorithm claims.algorithm)

/-- the text of a request header, empty if there is none -/
def fallback (v : Verifier κ) (name : String) : String :=
  ((v.headers.get? name).map Utf8.decodeLossy).getD ""

/-- the version of the signing scheme; one that is no text is an error -/
def version (v : Verifier κ) (claims : Claims) : Except Error String :=
  match claims.version with
  | some (.string version) => .ok version
  | some other => .error (.unsupportedVersion other.render)
  | none => .ok (v.fallback versionHeader)

def checkVersion (version : String) : Except Error Unit :=
  if version = Claims.currentVersion then .ok () else .error (.unsupportedVersion version)

def signedNames (v : Verifier κ) (claims : Claims) : List String :=
  SignedNames.split (claims.headers.getD (v.fallback namesHeader))

/-- a required name that is not among the signed ones is an error -/
def checkRequiredName (signed : List String) (name : String) : Except Error Unit :=
  if signed.any fun s => Text.EqIgnoringCase s (Text.trim name) then .ok ()
  else .error (.missingRequiredHeader (Text.trim name))

/-- the first required name that is not among the signed ones is an error -/
def checkRequired (v : Verifier κ) (signed : List String) : Except Error Unit :=
  v.required.forM (checkRequiredName signed)

/-- whether the signature of a token belongs to a payload -/
def acceptsPayload [VerifyingKey κ] (key : κ) (token : Token) (payload : Bytes) : Bool :=
  VerifyingKey.accepts key (Bytes.ofText (token.signingInput payload)) token.signature

/-- whether a signature belongs to the payload with a path or with its other spelling -/
def acceptsPath (accepts : String → Bool) (path : String) : Bool :=
  accepts path || (toggleSlash? path).any accepts

/-- the token belongs to the request, or why it does not -/
def verify [VerifyingKey κ] (v : Verifier κ) (token : String) : Except Error Unit := do
  let method ← checkMethod v.method
  let path ← checkPath v.path
  let token ← Token.parse token
  let key ← v.resolveKey token.claims
  checkAlgorithm token.claims
  checkVersion (← v.version token.claims)
  let names := v.signedNames token.claims
  v.checkRequired names
  let headers ← v.headers.select names
  if acceptsPath (fun path => acceptsPayload key token (Payload.build method path headers v.body))
      path then
    .ok ()
  else .error .invalidSignature

end

end Verifier

end RequestSigning
