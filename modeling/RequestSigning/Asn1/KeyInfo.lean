import RequestSigning.Asn1.Der
import RequestSigning.Asn1.Oid

/-!
# Keys in DER

Three structures hold elliptic curve keys:

* `PublicKeyInfo`   an algorithm with its parameters, and a bit string with the key;
* `PrivateKeyInfo`  the same for a private key, in an octet string.  The second version of the
                    structure has the public key as well, and contextual elements may follow;
* `EcPrivateKey`    the octet string of an elliptic curve key: the scalar, perhaps the curve, and
                    perhaps the public key.

The first two can be written as well, for keys on P-521.
-/

namespace RequestSigning.Asn1

def readOid : Reader Oid := fun s => do
  let (content, rest) ← readContent oidTag s
  some (← Oid.ofOctets? content, rest)

/-! ## algorithms -/

structure Algorithm where
  oid : Oid
  parameters : Option Element
  deriving DecidableEq

/-- the parameters of an algorithm: nothing, or one element -/
def parameters? (s : Bytes) : Option (Option Element) :=
  if s = [] then some none else (exactly readElement s).map some

def readAlgorithm : Reader Algorithm := fun s => do
  let (content, rest) ← readContent sequenceTag s
  let (oid, content) ← readOid content
  some (⟨oid, ← parameters? content⟩, rest)

/-- the curve that the parameters name -/
def Algorithm.curve? (a : Algorithm) : Option Oid :=
  a.parameters.bind fun e => if e.tag = oidTag then Oid.ofOctets? e.content else none

/-- the algorithm of elliptic curve keys on P-521 -/
def p521Algorithm : Bytes :=
  Element.encode ⟨sequenceTag, Element.encode ⟨oidTag, Oid.ecPublicKey.octets⟩
    ++ Element.encode ⟨oidTag, Oid.p521.octets⟩⟩

/-! ## public keys -/

structure PublicKeyInfo where
  algorithm : Algorithm
  key : BitString

def PublicKeyInfo.ofDer? (der : Bytes) : Option PublicKeyInfo := do
  let content ← exactly (readContent sequenceTag) der
  let (algorithm, content) ← readAlgorithm content
  let key ← exactly (readContent bitStringTag) content
  some ⟨algorithm, ← BitString.ofContent? key⟩

def publicKeyDer (point : Bytes) : Bytes :=
  Element.encode ⟨sequenceTag, p521Algorithm ++ Element.encode ⟨bitStringTag, 0 :: point⟩⟩

/-! ## private keys -/

structure PrivateKeyInfo where
  algorithm : Algorithm
  key : Bytes

/-- whether a public key comes with the private one: an element with the number 1 that holds a bit
string directly -/
def readPublicKey : Reader Bool := fun s => do
  let (found, rest) ← readContextual 1 s
  match found with
  | none => some (false, rest)
  | some e =>
    if e.tag = 0x81 ∧ ((BitString.ofContent? e.content).bind BitString.whole?).isSome then
      some (true, rest)
    else none

/-- whether an octet string is a series of contextual elements that hold one element each -/
def onlyExplicit : Nat → Bytes → Bool
  | _, [] => true
  | 0, _ => false
  | fuel + 1, s =>
    match readElement s with
    | some (e, rest) =>
      isContextual e.tag && e.tag.toNat / 32 % 2 = 1 && (exactly readElement e.content).isSome
        && onlyExplicit fuel rest
    | none => false

/-- the private key in DER; the version tells whether there is a public key -/
def PrivateKeyInfo.ofDer? (der : Bytes) : Option PrivateKeyInfo := do
  let content ← exactly (readContent sequenceTag) der
  let (version, content) ← readContent integerTag content
  let (algorithm, content) ← readAlgorithm content
  let (key, content) ← readContent octetStringTag content
  let (hasPublicKey, content) ← readPublicKey content
  if version = [if hasPublicKey then 1 else 0] ∧ onlyExplicit content.length content then
    some ⟨algorithm, key⟩
  else none

/-- the DER of a private key on P-521, in the first version of the structure -/
def privateKeyDer (key : Bytes) : Bytes :=
  Element.encode ⟨sequenceTag, Element.encode ⟨integerTag, [0]⟩ ++ p521Algorithm
    ++ Element.encode ⟨octetStringTag, key⟩⟩

/-! ## elliptic curve private keys -/

structure EcPrivateKey where
  scalar : Bytes
  curve : Option Oid
  publicKey : Option Bytes
  deriving DecidableEq

/-- what a contextual element with a number holds, if there is one: exactly one element -/
def readExplicit {α : Type} (number : Nat) (reader : Reader α) : Reader (Option α) := fun s => do
  let (found, rest) ← readContextual number s
  match found with
  | none => some (none, rest)
  | some e =>
    if e.tag = explicitTag number then some (some (← exactly reader e.content), rest) else none

def readWholeBits : Reader Bytes := fun s => do
  let (content, rest) ← readContent bitStringTag s
  some (← (← BitString.ofContent? content).whole?, rest)

def EcPrivateKey.ofDer? (der : Bytes) : Option EcPrivateKey := do
  let content ← exactly (readContent sequenceTag) der
  let (version, content) ← readContent integerTag content
  let (scalar, content) ← readContent octetStringTag content
  let (curve, content) ← readExplicit 0 readOid content
  let (publicKey, content) ← readExplicit 1 readWholeBits content
  if version = [1] ∧ content = [] then some ⟨scalar, curve, publicKey⟩ else none

end RequestSigning.Asn1
