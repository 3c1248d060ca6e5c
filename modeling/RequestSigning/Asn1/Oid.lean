import RequestSigning.Bytes

/-!
# Object identifiers

An identifier names an algorithm or a curve.  It is kept as the octets of its DER content, which
is also what two identifiers are compared by; `dotted` is the usual text.
-/

namespace RequestSigning.Asn1

/-- an object identifier, as the octets of its DER content -/
structure Oid where
  octets : Bytes
  deriving DecidableEq

namespace Oid

/-- the numbers that follow the first octet, in base 128 with the top bit set on all octets of a
number but its last; the fifth octet of a number is its last and below 16, and a number counts
modulo 2³² -/
def arcs? (value taken : Nat) : Bytes → Option (List Nat)
  | [] => if taken = 0 then some [] else none
  | b :: rest =>
    let value := value * 128 + b.toNat % 128
    if taken ≥ 4 ∧ b.toNat ≥ 16 then none
    else if b.toNat < 128 then (arcs? 0 0 rest).map (value % UInt32.size :: ·)
    else arcs? value (taken + 1) rest

/-- all the numbers of an identifier: the first octet holds two of them -/
def numbers? : Bytes → Option (List Nat)
  | [] => none
  | b :: rest =>
    if b.toNat < 120 then (arcs? 0 0 rest).map fun arcs => b.toNat / 40 :: b.toNat % 40 :: arcs
    else none

/-- an identifier has between three and 39 octets, and its numbers are well formed -/
def ofOctets? (octets : Bytes) : Option Oid :=
  if 3 ≤ octets.length ∧ octets.length ≤ 39 ∧ (numbers? octets).isSome then some ⟨octets⟩ else none

/-- the numbers of an identifier with points between them -/
def dotted (oid : Oid) : String :=
  String.intercalate "." (((numbers? oid.octets).getD []).map Nat.repr)

def ecPublicKey : Oid := ⟨[0x2A, 0x86, 0x48, 0xCE, 0x3D, 0x02, 0x01]⟩

def p521 : Oid := ⟨[0x2B, 0x81, 0x04, 0x00, 0x23]⟩

end Oid

end RequestSigning.Asn1
