import RequestSigning.Curve.Point
import RequestSigning.Hash.Sha512

/-!
# Signatures on P-521

A signature is a pair of scalars `r`, `s` other than zero, written as 66 octets each.  It belongs
to a message with hash `z` and to a point `q` when the first coordinate of the point
`(z / s) · generator + (r / s) · q` is `r`, modulo the group order.

The secret number that a signature needs is derived from the private scalar and the hash by
keyed hashing (`nonces`), so that signing is a function.
-/

namespace RequestSigning.Ecdsa

open Curve

def scalarLength : Nat := 66

def signatureLength : Nat := 132

def digest (message : Bytes) : Scalar := Fin.ofNat groupOrder (Hash.sha512 message).toNat

/-- a pair of scalars other than zero -/
structure Signature where
  r : Multiplier
  s : Multiplier

def Signature.encode (sig : Signature) : Bytes :=
  Bytes.ofNat scalarLength sig.r.scalar.val ++ Bytes.ofNat scalarLength sig.s.scalar.val

def Signature.decode? (b : Bytes) : Option Signature :=
  if b.length = signatureLength then do
    let r ← Multiplier.ofNat? (Bytes.toNat (b.take scalarLength))
    let s ← Multiplier.ofNat? (Bytes.toNat (b.drop scalarLength))
    some ⟨r, s⟩
  else none

/-- the first coordinate of a point as a scalar -/
def abscissa (p : Point) : Scalar := Fin.ofNat groupOrder p.x.val

def verifies (q : Point) (z : Scalar) (sig : Signature) : Bool :=
  let w := inverseScalar sig.s.scalar
  match (Projective.combine (z * w) (.ofPoint generator) (sig.r.scalar * w) (.ofPoint q)).toPoint?
    with
  | some p => abscissa p = sig.r.scalar
  | none => false

/-- whether the octets of a signature belong to a message and a point -/
def accepts (q : Point) (message signature : Bytes) : Bool :=
  match Signature.decode? signature with
  | some sig => verifies q (digest message) sig
  | none => false

/-! ## signing -/

/-- the signature with a given secret number, unless one of its scalars is zero -/
def signWith? (d : Multiplier) (z : Scalar) (k : Multiplier) : Option Signature := do
  let p ← (Projective.multiple k.scalar (.ofPoint generator)).toPoint?
  let r := abscissa p
  let s := inverseScalar k.scalar * (z + r * d.scalar)
  some ⟨← Multiplier.ofNat? r.val, ← Multiplier.ofNat? s.val⟩

/-- the number of the first 521 bits of two hashes -/
def candidate (hashes : Bytes) : Nat := hashes.toNat >>> (8 * hashes.length - width)

/-- secret numbers from the state of a generator: its key and its last hash -/
def nonces : Nat → Bytes → Bytes → List Nat
  | 0, _, _ => []
  | count + 1, key, last =>
    let first := Hash.hmac key last
    let second := Hash.hmac key first
    let key' := Hash.hmac key (second ++ [0])
    candidate (first ++ second) :: nonces count key' (Hash.hmac key' second)

def noncesFor (count : Nat) (d : Multiplier) (z : Scalar) : List Nat :=
  let seed := Bytes.ofNat scalarLength d.scalar.val ++ Bytes.ofNat scalarLength z.val
  let last := List.replicate 64 1
  let key := Hash.hmac (List.replicate 64 0) (last ++ 0 :: seed)
  let last := Hash.hmac key last
  let key := Hash.hmac key (last ++ 1 :: seed)
  nonces count key (Hash.hmac key last)

/-- the signature of a message under a private scalar, with the first secret number that fits; one
number after the other fails with a chance of less than 2⁻²⁵⁰ -/
def sign? (d : Multiplier) (message : Bytes) : Option Bytes :=
  let z := digest message
  ((noncesFor 32 d z).findSome? fun n => (Multiplier.ofNat? n).bind (signWith? d z)).map
    Signature.encode

end RequestSigning.Ecdsa
