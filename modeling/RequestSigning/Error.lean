import RequestSigning.Asn1.Oid

/-!
# Errors

Signing and verifying fail for a cause, and each cause is a constructor.  `Error.message` gives
the text of a cause.  The sort of an error tells whose fault it is:

* `invalidKey`          key material that cannot be imported (`KeyFault`);
* `invalidArgument`     what the caller set on a signer or verifier (`ArgumentFault`);
* `malformedSignature`  a token that is no detached signature (`TokenFault`);

and the others say at which step a well-formed token is refused.

The causes do not hold what a JSON or PEM reader says about a text that it cannot read.  In the
messages `<json error>` and `<pem error>` stand in place of these words, which are left out.
-/

namespace RequestSigning

/-- why key material cannot be imported -/
inductive KeyFault where
  /-- a PEM file that is no UTF-8 text -/
  | notText
  | malformedPem
  | unexpectedLabel (label : String)
  | foreignAlgorithm (algorithm : Asn1.Oid)
  | foreignCurve (curve : Asn1.Oid)
  /-- a public key that does not end with an octet -/
  | unusedBits
  /-- octets that encode no point of the curve, or the point at infinity -/
  | invalidPoint
  /-- an elliptic curve private key that is malformed or out of range -/
  | invalidPrivateKey
  | malformedKeySet
  /-- a web key of another type or curve -/
  | foreignWebKey (kty crv : String)
  | missingParameter (name : String)
  /-- a parameter that is no base64url text -/
  | undecodableParameter (name : String)
  /-- a parameter with more octets than a field element -/
  | oversizedParameter (name : String) (length : Nat)
  /-- a private scalar that is zero or not below the group order -/
  | invalidScalar
  /-- coordinates of another key than the private scalar belongs to -/
  | coordinateMismatch
  deriving DecidableEq

/-- why the values on a signer or verifier cannot be used -/
inductive ArgumentFault where
  | pathMissing
  | pathNotAbsolute (path : String)
  | invalidMethod (method : String)
  /-- a header name that is blank or holds a comma -/
  | unsignableName (name : String)
  | duplicateHeader (name : String)
  /-- a header to be signed that the request does not have -/
  | headerAbsent (name : String)
  /-- a token that no header can carry -/
  | tokenNotFieldValue
  deriving DecidableEq

/-- why a token is no detached signature -/
inductive TokenFault where
  /-- not three segments -/
  | segments
  /-- a payload between the points -/
  | attachedPayload
  | emptyHeader
  /-- a header segment that is no base64url text -/
  | headerEncoding
  | headerJson
  | signatureEncoding
  /-- a header value with other than printable ASCII characters and tabs -/
  | notAscii
  deriving DecidableEq

/-- why signing or verifying fails -/
inductive Error where
  | invalidKey (fault : KeyFault)
  | invalidArgument (fault : ArgumentFault)
  | malformedSignature (fault : TokenFault)
  /-- a token with another algorithm than ES512, or with none -/
  | unsupportedAlgorithm (algorithm : Option String)
  /-- a token of another scheme version than 2 -/
  | unsupportedVersion (version : String)
  /-- a token that names no key, checked against a key set -/
  | missingKid
  | missingRequiredHeader (name : String)
  /-- a signed header that the request does not have -/
  | missingSignedHeader (name : String)
  | noMatchingKey (kid : String)
  /-- a token that names a key of another type or curve -/
  | unsupportedKey (kid kty crv : String)
  | invalidSignature
  /-- a failure of the signing strategy, with its own text -/
  | signing (source : String)
  | missingSignature
  deriving DecidableEq

/-! ## texts -/

def quoted (s : String) : String := "\"" ++ s ++ "\""

def KeyFault.message : KeyFault → String
  | .notText => "PEM isn't valid UTF-8"
  | .malformedPem => "<pem error>"
  | .unexpectedLabel label => "unexpected PEM label " ++ quoted label
  | .foreignAlgorithm algorithm => "unsupported key algorithm " ++ algorithm.dotted
  | .foreignCurve curve => "unsupported curve " ++ curve.dotted
  | .unusedBits => "Malformed key"
  | .invalidPoint => "not a valid P-521 point"
  | .invalidPrivateKey => "crypto error"
  | .malformedKeySet => "JWKS: <json error>"
  | .foreignWebKey kty crv =>
    "expected an EC P-521 key, got kty " ++ quoted kty ++ " crv " ++ quoted crv
  | .missingParameter name => "JWK is missing the " ++ quoted name ++ " parameter"
  | .undecodableParameter name => "JWK parameter " ++ quoted name ++ ": Invalid base64url input"
  | .oversizedParameter name length =>
    "JWK parameter " ++ quoted name ++ " is " ++ length.repr ++ " bytes long (expected at most 66)"
  | .invalidScalar => "JWK parameter \"d\" isn't a valid scalar"
  | .coordinateMismatch => "JWK coordinates don't match the private key"

def ArgumentFault.message : ArgumentFault → String
  | .pathMissing => "path is required"
  | .pathNotAbsolute path => "path " ++ quoted path ++ " doesn't start with \"/\""
  | .invalidMethod method => "method " ++ quoted method ++ " isn't a valid HTTP method"
  | .unsignableName name => "header name " ++ quoted name ++ " can't be signed"
  | .duplicateHeader name => "duplicate header " ++ quoted name
  | .headerAbsent name => "header " ++ quoted name ++ " isn't present on the request"
  | .tokenNotFieldValue => "Tl-Signature header value: failed to parse header value"

def TokenFault.message : TokenFault → String
  | .segments => "expected three dot-separated segments"
  | .attachedPayload => "payload segment must be empty (detached)"
  | .emptyHeader => "empty header segment"
  | .headerEncoding => "JWS header: Invalid base64url input"
  | .headerJson => "JWS header: <json error>"
  | .signatureEncoding => "JWS signature: Invalid base64url input"
  | .notAscii => "non-ASCII Tl-Signature header"

def Error.message : Error → String
  | .invalidKey fault => "Invalid key: " ++ fault.message
  | .invalidArgument fault => "Invalid argument: " ++ fault.message
  | .malformedSignature fault => "Malformed signature: " ++ fault.message
  | .unsupportedAlgorithm algorithm =>
    "Unsupported algorithm: " ++ algorithm.getD "missing alg"
  | .unsupportedVersion version => "Unsupported signature version: " ++ version
  | .missingKid => "Missing kid in JWS header"
  | .missingRequiredHeader name => "Missing required header in signature: " ++ name
  | .missingSignedHeader name => "Missing signed header on request: " ++ name
  | .noMatchingKey kid => "No key with kid " ++ quoted kid ++ " found in JWKS"
  | .unsupportedKey kid kty crv =>
    "Unsupported key: key " ++ quoted kid ++ " has kty " ++ quoted kty ++ " crv " ++ quoted crv
  | .invalidSignature => "Invalid signature"
  | .signing _ => "Signing failed"
  | .missingSignature => "Missing Tl-Signature header"

end RequestSigning
