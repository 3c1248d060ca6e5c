import RequestSigning.WebKey

/-!
# Key sets

A key set is a list of web keys of any types.  `find` gives the first key with a name, and
`resolve` imports it as a verification key.  What a verification key is does not matter here: a
`VerifyingKey` type can import web keys and accept signatures.
-/

namespace RequestSigning

/-- a type of keys that check signatures -/
class VerifyingKey (κ : Type) where
  ofWebKey : WebKey → Except Error κ
  accepts : κ → Bytes → Bytes → Bool

/-- keys under their names -/
structure KeySet where
  keys : List WebKey
  deriving DecidableEq

namespace KeySet

def toValue (s : KeySet) : Json.Value := .object [("keys", .array (s.keys.map WebKey.toValue))]

def fields : Json.Fields (List WebKey) := [("keys", Json.readArray WebKey.read)]

def ofMembers? (known : List (String × List WebKey)) : Option KeySet :=
  (known.lookup "keys").map KeySet.mk

def read? (json : Bytes) : Option KeySet :=
  (Json.document (Json.record fields) json).bind ofMembers?

def ofDocument (json : Bytes) : Except Error KeySet :=
  match read? json with
  | some set => .ok set
  | none => .error (.invalidKey .malformedKeySet)

/-- the first key with a name -/
def find (s : KeySet) (kid : String) : Except Error WebKey :=
  match s.keys.find? fun k => k.kid = some kid with
  | some key => .ok key
  | none => .error (.noMatchingKey kid)

/-- the first key with a name, imported -/
def resolve {κ : Type} [VerifyingKey κ] (s : KeySet) (kid : String) : Except Error κ := do
  let key ← s.find kid
  if key.isP521 then VerifyingKey.ofWebKey key
  else .error (.unsupportedKey kid key.kty (key.crv.getD ""))

end KeySet

end RequestSigning
