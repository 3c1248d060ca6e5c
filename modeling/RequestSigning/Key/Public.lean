import RequestSigning.Claims
import RequestSigning.Ecdsa
import RequestSigning.Key.Document
import RequestSigning.KeySet

/-!
# Public keys

A public key is a point of the curve.  It is read from the octets of a point, from a PEM file or
from a web key, and written as a PEM file or as a web key.
-/

namespace RequestSigning

structure PublicKey where
  point : Curve.Point
  deriving DecidableEq

/-- a parameter of a web key as 66 octets; leading zeros may be left out -/
def fieldElement (name encoded : String) : Except Error Bytes :=
  match Base64.decode? (Bytes.ofText encoded) with
  | none => .error (.invalidKey (.undecodableParameter name))
  | some octets =>
    if Curve.coordinateLength < octets.length then
      .error (.invalidKey (.oversizedParameter name octets.length))
    else .ok (octets.leftpad Curve.coordinateLength 0)

/-- a web key other than an elliptic curve key on P-521 is an error -/
def ensureP521WebKey (key : WebKey) : Except Error Unit :=
  if key.isP521 then .ok () else .error (.invalidKey (.foreignWebKey key.kty (key.crv.getD "")))

/-- a parameter that has to be there, as 66 octets -/
def requiredElement (name : String) (parameter : Option String) : Except Error Bytes := do
  fieldElement name (← orKeyFault (.missingParameter name) parameter)

namespace PublicKey

def ofOctets (octets : Bytes) : Except Error PublicKey :=
  orKeyFault .invalidPoint ((Curve.Point.decode? octets).map PublicKey.mk)

def ofPem (file : Bytes) : Except Error PublicKey := do
  let block ← readKeyFile file
  let info ← orKeyFault .malformedPem (Asn1.PublicKeyInfo.ofDer? block.content)
  ensureP521 info.algorithm
  ofOctets (← orKeyFault .unusedBits info.key.whole?)

/-- the key in a PEM file of its own -/
def toPem (k : PublicKey) : Bytes :=
  Pem.Block.encode ⟨"PUBLIC KEY", Asn1.publicKeyDer k.point.encode⟩

def ofWebKey (key : WebKey) : Except Error PublicKey := do
  ensureP521WebKey key
  let x ← requiredElement "x" key.x
  let y ← requiredElement "y" key.y
  ofOctets (0x04 :: (x ++ y))

/-- the key as a web key with a name -/
def toWebKey (k : PublicKey) (kid : String) : WebKey where
  kty := "EC"
  kid := some kid
  crv := some "P-521"
  x := some (Base64.encode (Curve.coordinateOctets k.point.x))
  y := some (Base64.encode (Curve.coordinateOctets k.point.y))
  d := none
  algorithm := some Claims.es512
  use := some "sig"

/-- a line about the key for diagnostics -/
def summary (k : PublicKey) : String :=
  "PublicKey(" ++ quoted (Base64.encode k.point.encode) ++ ")"

/-- whether a signature belongs to a message -/
def accepts (k : PublicKey) (message signature : Bytes) : Bool :=
  Ecdsa.accepts k.point message signature

instance : VerifyingKey PublicKey where
  ofWebKey := ofWebKey
  accepts := accepts

/-- a signature that does not belong to a message is an error -/
def verify (k : PublicKey) (message signature : Bytes) : Except Error Unit :=
  if k.accepts message signature then .ok () else .error .invalidSignature

end PublicKey

end RequestSigning
