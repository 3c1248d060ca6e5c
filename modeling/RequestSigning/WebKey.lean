import RequestSigning.Error
import RequestSigning.Json.Printer
import RequestSigning.Json.Reader

/-!
# Web keys

A web key is a JSON object with the parameters of a key.  Any type of key can be read and
written, so that a key set may mix types; only elliptic curve keys on P-521 can be imported.
-/

namespace RequestSigning

/-- a key in JSON form -/
structure WebKey where
  kty : String
  kid : Option String
  crv : Option String
  x : Option String
  y : Option String
  /-- the private scalar -/
  d : Option String
  algorithm : Option String
  use : Option String
  deriving DecidableEq

namespace WebKey

def isP521 (k : WebKey) : Bool := k.kty = "EC" && k.crv = some "P-521"

/-! ## writing -/

def members (k : WebKey) : List (String × Json.Value) :=
  [("kty", some k.kty), ("kid", k.kid), ("crv", k.crv), ("x", k.x), ("y", k.y), ("d", k.d),
    ("alg", k.algorithm), ("use", k.use)].filterMap
    fun (name, text) => text.map fun s => (name, .string s)

def toValue (k : WebKey) : Json.Value := .object k.members

/-! ## reading -/

/-- a text that has to be there -/
def readRequired : Json.Reader (Option String) := fun s =>
  (Json.readText s).map fun (text, rest) => (some text, rest)

/-- a text or `null` -/
def readOptional : Json.Reader (Option String) := Json.optional Json.readText

def fields : Json.Fields (Option String) :=
  [("kty", readRequired), ("kid", readOptional), ("crv", readOptional), ("x", readOptional),
    ("y", readOptional), ("d", readOptional), ("alg", readOptional), ("use", readOptional)]

/-- the text of a parameter that is there and not `null` -/
def lookup? (known : List (String × Option String)) (name : String) : Option String :=
  (known.lookup name).join

def ofMembers? (known : List (String × Option String)) : Option WebKey :=
  (lookup? known "kty").map fun kty =>
    { kty
      kid := lookup? known "kid"
      crv := lookup? known "crv"
      x := lookup? known "x"
      y := lookup? known "y"
      d := lookup? known "d"
      algorithm := lookup? known "alg"
      use := lookup? known "use" }

def read : Json.Reader WebKey := fun s => do
  let (known, rest) ← Json.record fields s
  some (← ofMembers? known, rest)

def read? (json : Bytes) : Option WebKey := Json.document read json

/-! ## summaries -/

/-- a character inside a text of a summary -/
def summaryEscape (c : Char) : List Char :=
  if c = '"' then ['\\', '"']
  else if c = '\\' then ['\\', '\\']
  else if c = '\n' then ['\\', 'n']
  else if c = '\r' then ['\\', 'r']
  else if c = '\t' then ['\\', 't']
  else [c]

/-- a text of a summary between quotation marks -/
def summaryText (s : String) : String := quoted (String.ofList (s.toList.flatMap summaryEscape))

def summaryOption : Option String → String
  | none => "None"
  | some s => "Some(" ++ summaryText s ++ ")"

/-- a line about a key for diagnostics, which leaves out the private scalar -/
def summary (k : WebKey) : String :=
  let parts := [("kty", summaryText k.kty), ("kid", summaryOption k.kid),
    ("crv", summaryOption k.crv), ("x", summaryOption k.x), ("y", summaryOption k.y),
    ("d", summaryOption (k.d.map fun _ => "<redacted>")), ("alg", summaryOption k.algorithm),
    ("key_use", summaryOption k.use)]
  "Jwk \x7b " ++ String.intercalate ", " (parts.map fun (name, text) => name ++ ": " ++ text)
    ++ " \x7d"

end WebKey

end RequestSigning
