import RequestSigning.Asn1.KeyInfo
import RequestSigning.Error
import RequestSigning.Pem
import RequestSigning.Text.Utf8

/-!
# Key files

What public and private keys have in common when they come from a PEM file: the file is UTF-8
text, its block is one DER sequence, and the algorithm is that of elliptic curve keys on P-521.
-/

namespace RequestSigning

/-- the value, or a fault of the key where there is none -/
def orKeyFault {α : Type} (fault : KeyFault) : Option α → Except Error α
  | some x => .ok x
  | none => .error (.invalidKey fault)

/-- the block of a file, whose content is one sequence -/
def readKeyFile (file : Bytes) : Except Error Pem.Block := do
  let _ ← orKeyFault .notText (Utf8.decode? file)
  let block ← orKeyFault .malformedPem (Pem.decode? file)
  let _ ← orKeyFault .malformedPem
    (Asn1.exactly (Asn1.readContent Asn1.sequenceTag) block.content)
  return block

/-- an algorithm other than that of elliptic curve keys on P-521 is an error -/
def ensureP521 (algorithm : Asn1.Algorithm) : Except Error Unit :=
  if algorithm.oid ≠ Asn1.Oid.ecPublicKey then
    .error (.invalidKey (.foreignAlgorithm algorithm.oid))
  else
    match algorithm.curve? with
    | none => .error (.invalidKey .malformedPem)
    | some curve =>
      if curve = Asn1.Oid.p521 then .ok () else .error (.invalidKey (.foreignCurve curve))

end RequestSigning
