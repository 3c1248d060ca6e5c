import RequestSigning.Base64
import RequestSigning.Error
import RequestSigning.Json.Printer
import RequestSigning.Json.Reader
import RequestSigning.SignedNames

/-!
# Claims

The first segment of a token is the base64url text of a JSON object, the claims.  A signer writes
all of them but perhaps the URL of the key set.  A reader takes any of them to be absent, skips
members that it does not know, and leaves it to the verifier to judge the algorithm and the
version, which is why a version may be any JSON value.
-/

namespace RequestSigning

/-- the claims of a token -/
structure Claims where
  algorithm : Option String
  /-- the name of the signing key -/
  kid : Option String
  version : Option Json.Value
  /-- the names of the signed headers, with commas between them -/
  headers : Option String
  /-- the URL of a key set with the verification key -/
  jku : Option String

namespace Claims

def es512 : String := "ES512"

def currentVersion : String := "2"

def ofSigner (kid : String) (names : List String) (jku : Option String) : Claims where
  algorithm := some es512
  kid := some kid
  version := some (.string currentVersion)
  headers := some (SignedNames.join names)
  jku := jku

/-! ## writing -/

/-- a member with a text, if there is one -/
def textMember (name : String) (text : Option String) : Option (String × Json.Value) :=
  text.map fun s => (name, .string s)

def members (c : Claims) : List (String × Json.Value) :=
  [textMember "alg" c.algorithm, textMember "kid" c.kid, c.version.map ("tl_version", ·),
    textMember "tl_headers" c.headers, textMember "jku" c.jku].filterMap id

def toValue (c : Claims) : Json.Value := .object c.members

/-- the claims as the first segment of a token -/
def encode (c : Claims) : String := Base64.encode (Bytes.ofText c.toValue.render)

/-! ## reading -/

/-- a text or `null` -/
def readTextClaim : Json.Reader (Option Json.Value) :=
  Json.optional fun s => (Json.readText s).map fun (text, rest) => (.string text, rest)

/-- arrays and objects nest to a depth of 127, the object of the claims included -/
def readVersionClaim : Json.Reader (Option Json.Value) := Json.optional (Json.readValue 126)

def fields : Json.Fields (Option Json.Value) :=
  [("alg", readTextClaim), ("kid", readTextClaim), ("tl_version", readVersionClaim),
    ("tl_headers", readTextClaim), ("jku", readTextClaim)]

/-- the value of a claim that is there and not `null` -/
def lookup? (known : List (String × Option Json.Value)) (name : String) : Option Json.Value :=
  (known.lookup name).join

def ofMembers (known : List (String × Option Json.Value)) : Claims where
  algorithm := (lookup? known "alg").bind Json.Value.text?
  kid := (lookup? known "kid").bind Json.Value.text?
  version := lookup? known "tl_version"
  headers := (lookup? known "tl_headers").bind Json.Value.text?
  jku := (lookup? known "jku").bind Json.Value.text?

def read? (json : Bytes) : Option Claims := (Json.document (Json.record fields) json).map ofMembers

/-- the claims of the first segment of a token -/
def decode (segment : String) : Except Error Claims :=
  match Base64.decode? (Bytes.ofText segment) with
  | none => .error (.malformedSignature .headerEncoding)
  | some json =>
    match read? json with
    | none => .error (.malformedSignature .headerJson)
    | some claims => .ok claims

end Claims

end RequestSigning
