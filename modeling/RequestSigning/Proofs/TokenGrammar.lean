import RequestSigning.Proofs.Token

/-!
# The grammar of tokens

A token is a first segment, two points and a signature.  `Denotes` says this of a text and of what
it stands for, and `FrontFault` says what is wrong with a text up to its first segment, in the order
in which faults are looked for: the points, a payload between them, an empty first segment, one that
is no base64url text, one that holds no claims.  Behind that only the signature can be at fault
(`LacksSignature`), which whoever reads the claims alone does not notice.

`parse_iff_denotes` puts together what `parse` and `claimsOf` give for every text.
-/

namespace RequestSigning

namespace Token

/-! ## the form of a token -/

/-- a text of a first segment and a signature, with two points between them and no other -/
structure Framed (token header signature : String) : Prop where
  eq_append : token = header ++ ".." ++ signature
  header_ne : header ≠ ""
  header_points : '.' ∉ header.toList
  signature_points : '.' ∉ signature.toList

theorem segments_eq_ok_iff_framed (token header signature : String) :
    segments token = .ok (header, signature) ↔ Framed token header signature := by
  rw [segments_eq_ok_iff, ne_eq, String.toList_eq_nil_iff]
  exact ⟨fun ⟨h, hne, hh, hs⟩ => ⟨h, hne, hh, hs⟩, fun ⟨h, hne, hh, hs⟩ => ⟨h, hne, hh, hs⟩⟩

/-- a text whose first segment, which is kept as it is, holds claims -/
def Claiming (token header signature : String) (c : Claims) : Prop :=
  Framed token header signature ∧
    ∃ json, Base64.decode? (Bytes.ofText header) = some json ∧ Claims.read? json = some c

/-- a text that stands for a token -/
def Denotes (token : String) (t : Token) : Prop :=
  ∃ signature, Claiming token t.encodedHeader signature t.claims ∧
    Base64.decode? (Bytes.ofText signature) = some t.signature

/-- a text with claims whose signature is no base64url text -/
def LacksSignature (token : String) (c : Claims) : Prop :=
  ∃ header signature, Claiming token header signature c ∧
    Base64.decode? (Bytes.ofText signature) = none

/-- the first fault of a text up to its first segment -/
inductive FrontFault (token : String) : TokenFault → Prop
  | segments (h : token.toList.count '.' ≠ 2) : FrontFault token .segments
  | attachedPayload (header payload signature : String)
      (htoken : token = header ++ "." ++ payload ++ "." ++ signature)
      (hpoints : token.toList.count '.' = 2) (hne : payload ≠ "") :
      FrontFault token .attachedPayload
  | emptyHeader (signature : String) (htoken : token = ".." ++ signature)
      (hpoints : token.toList.count '.' = 2) : FrontFault token .emptyHeader
  | headerEncoding (header signature : String) (hframed : Framed token header signature)
      (h : Base64.decode? (Bytes.ofText header) = none) : FrontFault token .headerEncoding
  | headerJson (header signature : String) (hframed : Framed token header signature) (json : Bytes)
      (hjson : Base64.decode? (Bytes.ofText header) = some json)
      (h : Claims.read? json = none) : FrontFault token .headerJson

/-! ## segments -/

theorem toList_append_points (header payload signature : String) :
    (header ++ "." ++ payload ++ "." ++ signature).toList
      = header.toList ++ '.' :: (payload.toList ++ '.' :: signature.toList) := by
  simp only [String.toList_append, List.append_assoc]
  rfl

theorem segments_of_points {token header payload signature : String}
    (htoken : token = header ++ "." ++ payload ++ "." ++ signature)
    (hpoints : token.toList.count '.' = 2) :
    segments token = if payload ≠ "" then .error (.malformedSignature .attachedPayload)
      else if header = "" then .error (.malformedSignature .emptyHeader)
      else .ok (header, signature) := by
  subst htoken
  rw [toList_append_points] at hpoints
  simp only [List.count_append, List.count_cons_self] at hpoints
  have hcount : header.toList.count '.' = 0 ∧ payload.toList.count '.' = 0 ∧
      signature.toList.count '.' = 0 := by omega
  obtain ⟨hh, hp, hs⟩ := hcount
  rw [List.count_eq_zero] at hh hp hs
  rw [segments, toList_append_points, Text.splitOn_append '.' _ _ hh,
    Text.splitOn_append '.' _ _ hp, Text.splitOn_of_not_mem '.' _ hs]
  simp only [ne_eq, String.toList_eq_nil_iff, String.ofList_toList]

theorem segments_of_count {token : String} (h : token.toList.count '.' ≠ 2) :
    segments token = .error (.malformedSignature .segments) := by
  have hlength := Text.length_splitOn '.' token.toList
  unfold segments
  split
  · rename_i hsplit
    rw [hsplit] at hlength
    exact absurd (Nat.succ.inj hlength).symm h
  · rfl

/-- a text with two points has three parts -/
theorem exists_parts {token : String} (h : token.toList.count '.' = 2) :
    ∃ header payload signature : String,
      token = header ++ "." ++ payload ++ "." ++ signature := by
  have hlength := Text.length_splitOn '.' token.toList
  have hjoin := Text.join_splitOn '.' token.toList
  rw [h] at hlength
  generalize Text.splitOn '.' token.toList = parts at hlength hjoin
  match parts, hlength with
  | [header, payload, signature], _ =>
    refine ⟨String.ofList header, String.ofList payload, String.ofList signature, ?_⟩
    apply String.toList_inj.mp
    rw [toList_append_points, ← hjoin]
    simp only [String.toList_ofList]
    rfl

theorem frontFault_of_segments {token : String} {e : Error} (h : segments token = .error e) :
    ∃ fault, e = .malformedSignature fault ∧ FrontFault token fault := by
  by_cases hpoints : token.toList.count '.' = 2
  · obtain ⟨header, payload, signature, htoken⟩ := exists_parts hpoints
    rw [segments_of_points htoken hpoints] at h
    by_cases hpayload : payload = ""
    · by_cases hheader : header = ""
      · subst hpayload hheader
        exact ⟨.emptyHeader, (Except.error.inj h).symm, .emptyHeader signature htoken hpoints⟩
      · rw [if_neg (not_not_intro hpayload), if_neg hheader] at h
        cases h
    · rw [if_pos hpayload] at h
      exact ⟨.attachedPayload, (Except.error.inj h).symm,
        .attachedPayload header payload signature htoken hpoints hpayload⟩
  · rw [segments_of_count hpoints] at h
    exact ⟨.segments, (Except.error.inj h).symm, .segments hpoints⟩

/-! ## claims and tokens -/

theorem claimsOf_eq_error_iff (token : String) (e : Error) :
    claimsOf token = .error e ↔
      ∃ fault, e = .malformedSignature fault ∧ FrontFault token fault := by
  rw [claimsOf, bind_eq_error_iff]
  constructor
  · rintro (h | ⟨⟨header, signature⟩, hsegments, h⟩)
    · exact frontFault_of_segments h
    · have hframed := (segments_eq_ok_iff_framed _ _ _).mp hsegments
      rcases (Claims.decode_eq_error_iff header e).mp h with ⟨hnone, he⟩ | ⟨json, hjson, hnone, he⟩
      · exact ⟨.headerEncoding, he, .headerEncoding header signature hframed hnone⟩
      · exact ⟨.headerJson, he, .headerJson header signature hframed json hjson hnone⟩
  · rintro ⟨fault, rfl, h⟩
    cases h with
    | segments h => exact Or.inl (segments_of_count h)
    | attachedPayload header payload signature htoken hpoints hne =>
      left
      rw [segments_of_points htoken hpoints, if_pos hne]
    | emptyHeader signature htoken hpoints =>
      left
      have htoken' : token = "" ++ "." ++ "" ++ "." ++ signature := htoken
      rw [segments_of_points htoken' hpoints]
      rfl
    | headerEncoding header signature hframed h =>
      refine Or.inr ⟨_, (segments_eq_ok_iff_framed _ _ _).mpr hframed, ?_⟩
      exact (Claims.decode_eq_error_iff header _).mpr (Or.inl ⟨h, rfl⟩)
    | headerJson header signature hframed json hjson h =>
      refine Or.inr ⟨_, (segments_eq_ok_iff_framed _ _ _).mpr hframed, ?_⟩
      exact (Claims.decode_eq_error_iff header _).mpr (Or.inr ⟨json, hjson, h, rfl⟩)

theorem claimsOf_eq_ok_iff (token : String) (c : Claims) :
    claimsOf token = .ok c ↔ ∃ header signature, Claiming token header signature c := by
  rw [claimsOf, bind_eq_ok_iff]
  constructor
  · rintro ⟨⟨header, signature⟩, hsegments, h⟩
    exact ⟨header, signature, (segments_eq_ok_iff_framed _ _ _).mp hsegments,
      (Claims.decode_eq_ok_iff header c).mp h⟩
  · rintro ⟨header, signature, hframed, h⟩
    exact ⟨(header, signature), (segments_eq_ok_iff_framed _ _ _).mpr hframed,
      (Claims.decode_eq_ok_iff header c).mpr h⟩

theorem parse_eq_ok_iff_denotes (token : String) (t : Token) :
    parse token = .ok t ↔ Denotes token t := by
  rw [parse_eq_ok_iff]
  refine exists_congr fun signature => ?_
  rw [segments_eq_ok_iff_framed, Claims.decode_eq_ok_iff, ← and_assoc]
  rfl

/-- behind the first segment only the signature is looked at -/
theorem Claiming.parse_eq {token header signature : String} {c : Claims}
    (h : Claiming token header signature c) :
    parse token = (decodeSignature signature).map fun octets => ⟨header, c, octets⟩ := by
  obtain ⟨hframed, hclaims⟩ := h
  rw [parse, (segments_eq_ok_iff_framed _ _ _).mpr hframed, ok_bind]
  show (Claims.decode header >>= fun claims => decodeSignature signature >>= fun octets =>
    pure (Token.mk header claims octets)) = _
  rw [(Claims.decode_eq_ok_iff header c).mpr hclaims, ok_bind]
  cases decodeSignature signature <;> rfl

theorem parse_eq_error_of_claimsOf {token : String} {e : Error} (h : claimsOf token = .error e) :
    parse token = .error e := by
  rw [claimsOf, bind_eq_error_iff] at h
  rw [parse, bind_eq_error_iff]
  rcases h with h | ⟨segments, hsegments, h⟩
  · exact Or.inl h
  · exact Or.inr ⟨segments, hsegments, (bind_eq_error_iff _ _ _).mpr (Or.inl h)⟩

theorem LacksSignature.parse_eq {token : String} {c : Claims} (h : LacksSignature token c) :
    parse token = .error (.malformedSignature .signatureEncoding) := by
  obtain ⟨header, signature, hclaiming, hnone⟩ := h
  rw [hclaiming.parse_eq, decodeSignature, hnone]
  rfl

theorem LacksSignature.claimsOf_eq {token : String} {c : Claims} (h : LacksSignature token c) :
    claimsOf token = .ok c := by
  obtain ⟨header, signature, hclaiming, -⟩ := h
  exact (claimsOf_eq_ok_iff token c).mpr ⟨header, signature, hclaiming⟩

/-- a text with claims is a token or lacks a signature -/
theorem Claiming.denotes_or {token header signature : String} {c : Claims}
    (h : Claiming token header signature c) :
    (∃ t, Denotes token t ∧ t.claims = c) ∨ LacksSignature token c := by
  cases hoctets : Base64.decode? (Bytes.ofText signature) with
  | none => exact Or.inr ⟨header, signature, h, hoctets⟩
  | some octets => exact Or.inl ⟨⟨header, c, octets⟩, ⟨signature, h, hoctets⟩, rfl⟩

theorem claimsOf_eq_ok_iff_parse (token : String) (c : Claims) :
    claimsOf token = .ok c ↔
      (∃ t, parse token = .ok t ∧ t.claims = c) ∨ LacksSignature token c := by
  simp only [parse_eq_ok_iff_denotes]
  constructor
  · intro h
    obtain ⟨header, signature, hclaiming⟩ := (claimsOf_eq_ok_iff token c).mp h
    exact hclaiming.denotes_or
  · rintro (⟨t, ⟨signature, hclaiming, -⟩, rfl⟩ | h)
    · exact (claimsOf_eq_ok_iff token _).mpr ⟨t.encodedHeader, signature, hclaiming⟩
    · exact h.claimsOf_eq

theorem parse_eq_error_iff (token : String) (e : Error) :
    parse token = .error e ↔ ∃ fault, e = .malformedSignature fault ∧
      (FrontFault token fault ∨ fault = .signatureEncoding ∧ ∃ c, LacksSignature token c) := by
  constructor
  · intro h
    cases hc : claimsOf token with
    | error e' =>
      obtain rfl := Except.error.inj ((parse_eq_error_of_claimsOf hc).symm.trans h)
      obtain ⟨fault, he, hfault⟩ := (claimsOf_eq_error_iff token _).mp hc
      exact ⟨fault, he, Or.inl hfault⟩
    | ok c =>
      rcases (claimsOf_eq_ok_iff_parse token c).mp hc with ⟨t, ht, -⟩ | hlacks
      · rw [ht] at h
        cases h
      · rw [hlacks.parse_eq] at h
        exact ⟨.signatureEncoding, (Except.error.inj h).symm, Or.inr ⟨rfl, c, hlacks⟩⟩
  · rintro ⟨fault, rfl, hfault | ⟨rfl, c, hlacks⟩⟩
    · exact parse_eq_error_of_claimsOf ((claimsOf_eq_error_iff token _).mpr ⟨fault, rfl, hfault⟩)
    · exact hlacks.parse_eq

theorem map_claims_parse_ne_iff (token : String) :
    (parse token).map Token.claims ≠ claimsOf token ↔ ∃ c, LacksSignature token c := by
  constructor
  · intro h
    cases hc : claimsOf token with
    | error e =>
      rw [hc, parse_eq_error_of_claimsOf hc] at h
      exact absurd rfl h
    | ok c =>
      rcases (claimsOf_eq_ok_iff_parse token c).mp hc with ⟨t, ht, rfl⟩ | hlacks
      · rw [hc, ht] at h
        exact absurd rfl h
      · exact ⟨c, hlacks⟩
  · rintro ⟨c, hlacks⟩ h
    rw [hlacks.parse_eq, hlacks.claimsOf_eq] at h
    cases h

/-- **Tokens are the texts of the grammar, and reading claims alone agrees with reading a token.**
A text is read as a token exactly if it denotes it.  Every other text is malformed, and its fault is
in front of the signature or the signature itself.  The claims of a text are refused for the first
sort of faults, with the same error; otherwise they are those of the token, or those of a text whose
signature alone cannot be decoded, and this is the one case where the two readers differ. -/
theorem parse_iff_denotes (token : String) :
    (∀ t, parse token = .ok t ↔ Denotes token t) ∧
      (∀ e, parse token = .error e ↔ ∃ fault, e = .malformedSignature fault ∧
        (FrontFault token fault ∨ fault = .signatureEncoding ∧ ∃ c, LacksSignature token c)) ∧
      (∀ e, claimsOf token = .error e ↔
        ∃ fault, e = .malformedSignature fault ∧ FrontFault token fault) ∧
      (∀ c, claimsOf token = .ok c ↔
        (∃ t, parse token = .ok t ∧ t.claims = c) ∨ LacksSignature token c) ∧
      ((parse token).map Token.claims ≠ claimsOf token ↔ ∃ c, LacksSignature token c) :=
  ⟨parse_eq_ok_iff_denotes token, parse_eq_error_iff token, claimsOf_eq_error_iff token,
    claimsOf_eq_ok_iff_parse token, map_claims_parse_ne_iff token⟩

/-! A token with the claims `{"alg":"ES512","kid":"k"}`, and a text that differs from it in the
signature, which cannot be decoded. -/

example :
    (parse "eyJhbGciOiJFUzUxMiIsImtpZCI6ImsifQ..AAE").toOption.map
        (fun t => (t.encodedHeader, t.claims.algorithm, t.claims.kid, t.signature))
      = some ("eyJhbGciOiJFUzUxMiIsImtpZCI6ImsifQ", some "ES512", some "k", [0, 1]) := by
  decide +kernel

example :
    error? (parse "eyJhbGciOiJFUzUxMiIsImtpZCI6ImsifQ..A*E")
        = some (.malformedSignature .signatureEncoding) ∧
      (claimsOf "eyJhbGciOiJFUzUxMiIsImtpZCI6ImsifQ..A*E").toOption.map Claims.kid
        = some (some "k") := by
  decide +kernel

end Token

end RequestSigning
