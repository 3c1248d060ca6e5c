import RequestSigning.Key.Public

/-!
# Private keys

A private key is a scalar between zero and the group order.  It is read from a PEM file, in either
of two structures, or from a web key.  A public key that comes with it has to be the one that
belongs to the scalar.
-/

namespace RequestSigning

structure PrivateKey where
  multiplier : Curve.Multiplier
  deriving DecidableEq

namespace PrivateKey

/-- the key of a number between zero and the group order -/
def ofNat? (n : Nat) : Option PrivateKey := (Curve.Multiplier.ofNat? n).map PrivateKey.mk

/-- the public key that belongs to a private key.  The order of the generator is a prime above the
scalar, so that the multiple is never at infinity. -/
def publicKey (k : PrivateKey) : PublicKey :=
  let multiple := Curve.Projective.multiple k.multiplier.scalar (.ofPoint Curve.generator)
  ⟨multiple.toPoint?.getD Curve.generator⟩

/-- a line about the key for diagnostics, which does not show the scalar -/
def summary (_ : PrivateKey) : String := "PrivateKey \x7b .. \x7d"

def sign? (k : PrivateKey) (message : Bytes) : Option Bytes := Ecdsa.sign? k.multiplier message

/-- the answer of a strategy: a signature in base64url, if there is one -/
def answer : Option Bytes → Except String String
  | some signature => .ok (Base64.encode signature)
  | none => .error "no secret number fits"

theorem answer_eq_ok_iff (signature : Option Bytes) (text : String) :
    answer signature = .ok text ↔ ∃ b, signature = some b ∧ Base64.encode b = text := by
  cases signature with
  | none => exact iff_of_false (fun h => by cases h) fun ⟨_, h, _⟩ => by cases h
  | some signature =>
    constructor
    · intro h
      exact ⟨signature, rfl, Except.ok.inj h⟩
    · rintro ⟨b, h, rfl⟩
      rw [Option.some.inj h, answer]

/-- the key as a signing strategy: from a signing input to a signature in base64url -/
def strategy (k : PrivateKey) (signingInput : String) : Except String String :=
  answer (k.sign? (Bytes.ofText signingInput))

/-! ## PEM files -/

/-- the scalar of an elliptic curve private key, of 24 to 66 octets -/
def ofScalarOctets? (octets : Bytes) : Option PrivateKey :=
  if 24 ≤ octets.length ∧ octets.length ≤ Ecdsa.scalarLength then ofNat? octets.toNat else none

/-- the key of an elliptic curve private key.  A public key has to be in one of the two forms that
tell its second coordinate; the curve is not looked at. -/
def ofEcPrivateKey? (key : Asn1.EcPrivateKey) : Option PrivateKey := do
  let k ← ofScalarOctets? key.scalar
  match key.publicKey with
  | none => some k
  | some octets =>
    let point := k.publicKey.point
    if octets = point.encode ∨ octets = point.encodeShort then some k else none

/-- the key in the DER of an elliptic curve private key -/
def ofEcDer (der : Bytes) : Except Error PrivateKey :=
  orKeyFault .invalidPrivateKey ((Asn1.EcPrivateKey.ofDer? der).bind ofEcPrivateKey?)

/-- the key in a PEM file, whose label tells the structure -/
def ofPem (file : Bytes) : Except Error PrivateKey := do
  let block ← readKeyFile file
  if block.label = "PRIVATE KEY" then
    let info ← orKeyFault .malformedPem (Asn1.PrivateKeyInfo.ofDer? block.content)
    ensureP521 info.algorithm
    ofEcDer info.key
  else if block.label = "EC PRIVATE KEY" then ofEcDer block.content
  else .error (.invalidKey (.unexpectedLabel block.label))

/-! ## web keys -/

/-- coordinates of another key are an error; a web key may leave out both -/
def checkCoordinates (k : PrivateKey) (key : WebKey) : Except Error Unit :=
  if key.x.isNone ∧ key.y.isNone then .ok ()
  else do
    if (← PublicKey.ofWebKey key) = k.publicKey then .ok ()
    else .error (.invalidKey .coordinateMismatch)

def ofWebKey (key : WebKey) : Except Error PrivateKey := do
  ensureP521WebKey key
  let d ← requiredElement "d" key.d
  let k ← orKeyFault .invalidScalar (ofNat? d.toNat)
  checkCoordinates k key
  return k

end PrivateKey

end RequestSigning
