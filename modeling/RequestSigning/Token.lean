import RequestSigning.Claims

/-!
# Tokens

A token is a compact signature whose payload is left out: the claims, two points, and the
signature, both in base64url.  What is signed is the first segment as it was transmitted, a point
and the base64url text of the payload (`signingInput`).

`Token.parse` reads a token.  `Token.claimsOf`, `Token.kidOf` and `Token.jkuOf` read its claims
only; what they give is not verified.
-/

namespace RequestSigning

structure Token where
  /-- the first segment as it was transmitted -/
  encodedHeader : String
  claims : Claims
  signature : Bytes

/-- what is signed: the first segment, a point and the payload in base64url -/
def signingInput (encodedHeader : String) (payload : Bytes) : String :=
  encodedHeader ++ "." ++ Base64.encode payload

namespace Token

/-- the token of a first segment and a signature in base64url -/
def compact (encodedHeader encodedSignature : String) : String :=
  encodedHeader ++ ".." ++ encodedSignature

/-- the first and the last of three segments, of which the second is empty and the first is not -/
def segments (token : String) : Except Error (String × String) :=
  match Text.splitOn '.' token.toList with
  | [header, payload, signature] =>
    if payload ≠ [] then .error (.malformedSignature .attachedPayload)
    else if header = [] then .error (.malformedSignature .emptyHeader)
    else .ok (String.ofList header, String.ofList signature)
  | _ => .error (.malformedSignature .segments)

def decodeSignature (segment : String) : Except Error Bytes :=
  match Base64.decode? (Bytes.ofText segment) with
  | some signature => .ok signature
  | none => .error (.malformedSignature .signatureEncoding)

def parse (token : String) : Except Error Token := do
  let (header, signature) ← segments token
  let claims ← Claims.decode header
  let signature ← decodeSignature signature
  return ⟨header, claims, signature⟩

/-- what a token signs, for a payload -/
def signingInput (t : Token) (payload : Bytes) : String :=
  RequestSigning.signingInput t.encodedHeader payload

/-! ## unverified claims -/

/-- the claims of a token, not verified -/
def claimsOf (token : String) : Except Error Claims := do
  let (header, _) ← segments token
  Claims.decode header

def kidOf (token : String) : Except Error String := do
  match (← claimsOf token).kid with
  | some kid => .ok kid
  | none => .error .missingKid

/-- the URL of the key set of a token, if it has one, not verified -/
def jkuOf (token : String) : Except Error (Option String) := do
  return (← claimsOf token).jku

end Token

end RequestSigning
