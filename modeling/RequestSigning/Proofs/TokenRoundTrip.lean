import RequestSigning.Proofs.TokenGrammar

/-!
# Tokens: reading undoes writing

Claims are written whatever they hold, and a token is made of them by appending two points and a
signature in base64url.  `parse_append_encode` says that all of it is read back, the first segment
as it was written, the claims and the signature, and that those who read the claims alone read the
same.  The texts in the claims may hold any characters and the version may be any value that its
text determines; the one condition is that the version is no deeper than a reader goes, and without
it no reader accepts the token.
-/

namespace RequestSigning

namespace Token

/-! ## the form of what is written -/

theorem encode_ne_empty (c : Claims) : c.encode ≠ "" := by
  intro h
  have hdecode := Base64.decode?_encode (Bytes.ofText c.toValue.render)
  change Base64.decode? (Bytes.ofText c.encode) = _ at hdecode
  obtain ⟨body, hbody⟩ := Json.exists_object_eq c.members
  have hempty : Base64.decode? (Bytes.ofText "") = some [] := rfl
  rw [h, hempty, Json.Value.render, Bytes.ofText_ofList] at hdecode
  exact List.cons_ne_nil _ body (hbody.symm.trans (Option.some.inj hdecode).symm)

theorem framed_append_encode (c : Claims) (signature : Bytes) :
    Framed (c.encode ++ ".." ++ Base64.encode signature) c.encode (Base64.encode signature) where
  eq_append := rfl
  header_ne := encode_ne_empty c
  header_points := point_not_mem_encode c
  signature_points := Base64.point_not_mem_encode signature

/-- the claims of a written token are those of its first segment -/
theorem claimsOf_append_encode (c : Claims) (signature : Bytes) :
    claimsOf (c.encode ++ ".." ++ Base64.encode signature) = Claims.decode c.encode := by
  rw [claimsOf, (segments_eq_ok_iff_framed _ _ _).mpr (framed_append_encode c signature), ok_bind]

/-! ## single claims -/

theorem kidOf_eq {token : String} {c : Claims} (h : claimsOf token = .ok c) :
    kidOf token = match c.kid with
      | some kid => .ok kid
      | none => .error .missingKid := by
  rw [kidOf, h]
  rfl

theorem jkuOf_eq {token : String} {c : Claims} (h : claimsOf token = .ok c) :
    jkuOf token = .ok c.jku := by
  rw [jkuOf, h]
  rfl

/-- **A written token is read back.**  Of any claims and any signature the token is read as its
first segment, these claims and this signature; and readers of claims alone find the same claims,
among them the name of the key or that there is none, and the URL of the key set.  If the version is
too deep, the first segment is refused as JSON by all of them. -/
theorem parse_append_encode {c : Claims} (hkept : c.Kept) (signature : Bytes) {token : String}
    (htoken : token = c.encode ++ ".." ++ Base64.encode signature) :
    (c.Shallow →
      parse token = .ok ⟨c.encode, c, signature⟩ ∧ claimsOf token = .ok c ∧
        (∀ kid, c.kid = some kid → kidOf token = .ok kid) ∧
        (c.kid = none → kidOf token = .error .missingKid) ∧ jkuOf token = .ok c.jku) ∧
      (¬ c.Shallow →
        parse token = .error (.malformedSignature .headerJson) ∧
          claimsOf token = .error (.malformedSignature .headerJson)) := by
  subst htoken
  have hclaims := claimsOf_append_encode c signature
  constructor
  · intro hshallow
    have hdecode := Claims.decode_encode_of_shallow hkept hshallow
    rw [hdecode] at hclaims
    have hkid := kidOf_eq hclaims
    refine ⟨parse_compact c hdecode _ signature (Base64.decode?_encode signature), hclaims, ?_, ?_,
      jkuOf_eq hclaims⟩
    · intro kid h
      rw [hkid, h]
    · intro h
      rw [hkid, h]
  · intro hdeep
    rw [Claims.decode_encode_of_not_shallow hkept hdeep] at hclaims
    exact ⟨parse_eq_error_of_claimsOf hclaims, hclaims⟩

/-! Claims without a name of a key whose version nests as deep as it may, or one level deeper,
around an object with the least and the largest integer and characters that are escaped. -/

open Json

/-- an object inside a number of arrays -/
def nested : Nat → Value
  | 0 => .object [("", .null),
      ("\"\\\n\x01", .array [.int (-0x8000000000000000), .int 0xffffffffffffffff]),
      ("é", .bool false), ("😀", .string "\x08\x7f\u2028😀")]
  | depth + 1 => .array [nested depth]

theorem kept_nested (depth : Nat) : (nested depth).Kept := by
  induction depth with
  | zero =>
    refine .object _ (by decide) ?_
    simp only [List.forall_mem_cons]
    refine ⟨.null, .array _ ?_, .bool false, .string _, fun _ h => absurd h List.not_mem_nil⟩
    simp only [List.forall_mem_cons]
    exact ⟨.int _ (by decide), .int _ (by decide), fun _ h => absurd h List.not_mem_nil⟩
  | succ depth ih => exact .array _ (List.forall_mem_singleton.mpr ih)

theorem depth_nested (depth : Nat) : (nested depth).depth = depth + 2 := by
  induction depth with
  | zero => rfl
  | succ depth ih =>
    rw [nested, Value.depth, depthOfItems, depthOfItems, ih]
    rfl

def nestedClaims (depth : Nat) : Claims where
  algorithm := some "\x00\x1f\"/"
  kid := none
  version := some (nested depth)
  headers := none
  jku := some "https://é.example/😀"

theorem kept_nestedClaims (depth : Nat) : (nestedClaims depth).Kept := by
  intro v hv
  obtain rfl := Option.some.inj hv
  refine ⟨?_, kept_nested depth⟩
  cases depth with
  | zero => exact fun h => by cases h
  | succ depth => exact fun h => by cases h

theorem shallow_nestedClaims_iff (depth : Nat) : (nestedClaims depth).Shallow ↔ depth ≤ 124 := by
  constructor
  · intro h
    have hdepth := h _ rfl
    rw [depth_nested] at hdepth
    omega
  · intro h v hv
    obtain rfl := Option.some.inj hv
    rw [depth_nested]
    omega

theorem parse_nestedClaims :
    parse ((nestedClaims 124).encode ++ ".." ++ Base64.encode [0xff, 0])
        = .ok ⟨(nestedClaims 124).encode, nestedClaims 124, [0xff, 0]⟩ ∧
      kidOf ((nestedClaims 124).encode ++ ".." ++ Base64.encode [0xff, 0]) = .error .missingKid ∧
      parse ((nestedClaims 125).encode ++ ".." ++ Base64.encode [0xff, 0])
        = .error (.malformedSignature .headerJson) := by
  obtain ⟨hread, -⟩ := parse_append_encode (kept_nestedClaims 124) [0xff, 0] rfl
  obtain ⟨-, hrefused⟩ := parse_append_encode (kept_nestedClaims 125) [0xff, 0] rfl
  obtain ⟨hparse, -, -, hkid, -⟩ := hread ((shallow_nestedClaims_iff 124).mpr (by decide))
  exact ⟨hparse, hkid rfl,
    (hrefused fun h => absurd ((shallow_nestedClaims_iff 125).mp h) (by decide)).1⟩

end Token

end RequestSigning
