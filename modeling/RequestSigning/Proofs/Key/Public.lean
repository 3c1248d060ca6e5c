import RequestSigning.Key.Public
import RequestSigning.Proofs.Base64
import RequestSigning.Proofs.Key.Document

/-!
# Public keys: reading undoes writing

A coordinate is read back from its 66 octets, a point from the octets of both its coordinates
(`Curve.Point.decode?_encode`), and a public key from its web key (`PublicKey.ofWebKey_toWebKey`).
Whatever else a web key says, it is refused with an error about the key
(`PublicKey.failsOnKey_ofWebKey`).
-/

namespace RequestSigning

/-! ## points -/

namespace Curve

theorem length_coordinateOctets (x : Coordinate) :
    (coordinateOctets x).length = coordinateLength := Bytes.length_ofNat _ _

theorem fieldPrime_lt_weight : fieldPrime < Bytes.weight coordinateLength := by decide +kernel

theorem toNat_coordinateOctets (x : Coordinate) : (coordinateOctets x).toNat = x.val := by
  rw [coordinateOctets, Bytes.toNat_ofNat]
  exact Nat.mod_eq_of_lt (Nat.lt_trans x.isLt fieldPrime_lt_weight)

theorem coordinate?_coordinateOctets (x : Coordinate) :
    coordinate? (coordinateOctets x) = some x := by
  have hval := toNat_coordinateOctets x
  have h : (coordinateOctets x).length = coordinateLength ∧
      (coordinateOctets x).toNat < fieldPrime :=
    ⟨length_coordinateOctets x, hval ▸ x.isLt⟩
  rw [coordinate?, dif_pos h]
  exact congrArg some (Fin.ext hval)

/-- **A point is read back from the octets of its coordinates.** -/
theorem Point.decode?_encode (p : Point) : Point.decode? p.encode = some p := by
  have htake : (coordinateOctets p.x ++ coordinateOctets p.y).take coordinateLength
      = coordinateOctets p.x := List.take_left' (length_coordinateOctets p.x)
  have hdrop : (coordinateOctets p.x ++ coordinateOctets p.y).drop coordinateLength
      = coordinateOctets p.y := List.drop_left' (length_coordinateOctets p.x)
  rw [encode, decode?, if_pos rfl, htake, hdrop, coordinate?_coordinateOctets,
    coordinate?_coordinateOctets]
  exact dif_pos p.onCurve

end Curve

open Curve

/-! ## parameters of web keys -/

theorem fieldElement_encode (name : String) (octets : Bytes)
    (h : octets.length ≤ coordinateLength) :
    fieldElement name (Base64.encode octets) = .ok (octets.leftpad coordinateLength 0) := by
  rw [fieldElement, Base64.decode?_encode]
  exact if_neg (Nat.not_lt.mpr h)

theorem leftpad_coordinateOctets (x : Coordinate) :
    (coordinateOctets x).leftpad coordinateLength 0 = coordinateOctets x := by
  rw [List.leftpad, length_coordinateOctets, Nat.sub_self]
  rfl

theorem requiredElement_coordinateOctets (name : String) (x : Coordinate) :
    requiredElement name (some (Base64.encode (coordinateOctets x)))
      = .ok (coordinateOctets x) := by
  rw [requiredElement, (orKeyFault_eq_ok_iff _ _ _).mpr rfl, ok_bind,
    fieldElement_encode name _ (Nat.le_of_eq (length_coordinateOctets x)),
    leftpad_coordinateOctets]

theorem failsOnKey_fieldElement (name encoded : String) :
    FailsOnKey (fieldElement name encoded) := by
  unfold fieldElement
  cases Base64.decode? (Bytes.ofText encoded) with
  | none => exact failsOnKey_error _
  | some octets => exact failsWith_ite _ (failsOnKey_error _) (failsWith_ok _)

theorem failsOnKey_requiredElement (name : String) (parameter : Option String) :
    FailsOnKey (requiredElement name parameter) :=
  (failsOnKey_orKeyFault _ _).bind fun _ => failsOnKey_fieldElement name _

/-! ## public keys -/

namespace PublicKey

/-- **A public key is read back from its web key.** -/
theorem ofWebKey_toWebKey (k : PublicKey) (kid : String) : ofWebKey (k.toWebKey kid) = .ok k := by
  have hp521 : ensureP521WebKey (k.toWebKey kid) = .ok () := rfl
  have hpoint : ofOctets k.point.encode = .ok k := by
    rw [ofOctets, Point.decode?_encode]
    rfl
  rw [ofWebKey, hp521, ok_bind]
  show (requiredElement "x" (some (Base64.encode (coordinateOctets k.point.x))) >>= fun x =>
    requiredElement "y" (some (Base64.encode (coordinateOctets k.point.y))) >>= fun y =>
      ofOctets (0x04 :: (x ++ y))) = _
  rw [requiredElement_coordinateOctets, ok_bind, requiredElement_coordinateOctets, ok_bind]
  exact hpoint

theorem failsOnKey_ofWebKey (key : WebKey) : FailsOnKey (ofWebKey key) := by
  refine (failsWith_ite _ (failsWith_ok ()) (failsOnKey_error _)).bind fun _ => ?_
  refine (failsOnKey_requiredElement _ _).bind fun _ => ?_
  exact (failsOnKey_requiredElement _ _).bind fun _ => failsOnKey_orKeyFault _ _

end PublicKey

end RequestSigning
