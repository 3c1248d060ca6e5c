import RequestSigning.Token
import RequestSigning.Proofs.Claims
import RequestSigning.Proofs.Except
import RequestSigning.Proofs.Payload

/-!
# Tokens: segments and signing inputs

* `segments_eq_ok_iff`  a text has segments exactly if it is the compact form of them;
* `parse_eq_ok_iff`     what a token that has been read came from;
* `parse_compact_eq`    the compact form of a first segment and a signature is read as its claims;
* `parse_compact_of_decode`  a first segment with claims and a signature make a token;
* `parse_compact`       the compact form of written claims and a signature is read back;
* `signingInput_inj`    a signing input determines its first segment and its payload.
-/

namespace RequestSigning

/-- **A signing input determines its first segment and its payload.** -/
theorem signingInput_inj {header header' : String} {payload payload' : Bytes}
    (hh : '.' ∉ header.toList) (hh' : '.' ∉ header'.toList)
    (h : signingInput header payload = signingInput header' payload') :
    header = header' ∧ payload = payload' := by
  have hlist := congrArg String.toList h
  rw [signingInput, signingInput, String.toList_append, String.toList_append, String.toList_append,
    String.toList_append, List.append_assoc, List.append_assoc] at hlist
  obtain ⟨hheader, hpayload⟩ := eq_of_append_separator '.' _ _ _ _ hh hh' hlist
  exact ⟨String.toList_inj.mp hheader, Base64.encode_inj (String.toList_inj.mp hpayload)⟩

theorem payload_inj {header : String} {payload payload' : Bytes} (hh : '.' ∉ header.toList)
    (h : Bytes.ofText (signingInput header payload) = Bytes.ofText (signingInput header payload')) :
    payload = payload' := (signingInput_inj hh hh (Bytes.ofText_inj h)).2

namespace Token

/-! ## segments -/

theorem toList_compact (header signature : String) :
    (compact header signature).toList = header.toList ++ '.' :: '.' :: signature.toList := by
  rw [compact, String.toList_append, String.toList_append, List.append_assoc]
  rfl

theorem head?_splitOn_compact (header signature : String) (hh : '.' ∉ header.toList) :
    (Text.splitOn '.' (compact header signature).toList).head? = some header.toList := by
  rw [toList_compact, Text.splitOn_append '.' _ _ hh]
  rfl

/-- **A text has segments exactly if it is their compact form.** -/
theorem segments_eq_ok_iff (token header signature : String) :
    segments token = .ok (header, signature) ↔
      token = compact header signature ∧ header.toList ≠ [] ∧ '.' ∉ header.toList ∧
        '.' ∉ signature.toList := by
  constructor
  · intro h
    have hmem := Text.not_mem_of_mem_splitOn '.' token.toList
    have hjoin := Text.join_splitOn '.' token.toList
    unfold segments at h
    split at h
    · rename_i first payload last hsplit
      rw [hsplit] at hmem hjoin
      by_cases hpayload : payload = []
      · subst hpayload
        by_cases hfirst : first = []
        · rw [if_neg (fun hne => hne rfl), if_pos hfirst] at h
          cases h
        · rw [if_neg (fun hne => hne rfl), if_neg hfirst] at h
          obtain ⟨rfl, rfl⟩ := Prod.mk.inj (Except.ok.inj h)
          refine ⟨?_, ?_, ?_, ?_⟩
          · apply String.toList_inj.mp
            rw [toList_compact, String.toList_ofList, String.toList_ofList, ← hjoin]
            rfl
          · rwa [String.toList_ofList]
          · rw [String.toList_ofList]
            exact hmem first List.mem_cons_self
          · rw [String.toList_ofList]
            exact hmem last (List.mem_cons_of_mem _ (List.mem_cons_of_mem _ List.mem_cons_self))
      · rw [if_pos hpayload] at h
        cases h
    · cases h
  · rintro ⟨rfl, hne, hh, hs⟩
    have hsplit : Text.splitOn '.' (compact header signature).toList
        = [header.toList, [], signature.toList] := by
      rw [toList_compact, Text.splitOn_append '.' _ _ hh, Text.splitOn_cons_self,
        Text.splitOn_of_not_mem '.' _ hs]
    rw [segments, hsplit]
    simp only [ne_eq, not_true_eq_false, if_false, if_neg hne, String.ofList_toList]

/-! ## reading -/

theorem decodeSignature_eq_ok_iff (segment : String) (signature : Bytes) :
    decodeSignature segment = .ok signature ↔
      Base64.decode? (Bytes.ofText segment) = some signature := by
  unfold decodeSignature
  cases Base64.decode? (Bytes.ofText segment) with
  | none => exact iff_of_false (fun h => by cases h) fun h => by cases h
  | some octets =>
    constructor
    · intro h
      rw [Except.ok.inj h]
    · intro h
      rw [Option.some.inj h]

/-- **What a token that has been read came from.** -/
theorem parse_eq_ok_iff (token : String) (t : Token) :
    parse token = .ok t ↔ ∃ signature, segments token = .ok (t.encodedHeader, signature) ∧
      Claims.decode t.encodedHeader = .ok t.claims ∧
      Base64.decode? (Bytes.ofText signature) = some t.signature := by
  unfold parse
  rw [bind_eq_ok_iff]
  constructor
  · rintro ⟨⟨header, signature⟩, hsegments, h⟩
    obtain ⟨claims, hclaims, h⟩ := (bind_eq_ok_iff _ _ _).mp h
    obtain ⟨octets, hoctets, h⟩ := (bind_eq_ok_iff _ _ _).mp h
    obtain rfl := Except.ok.inj h
    exact ⟨signature, hsegments, hclaims, (decodeSignature_eq_ok_iff _ _).mp hoctets⟩
  · rintro ⟨signature, hsegments, hclaims, hoctets⟩
    refine ⟨(t.encodedHeader, signature), hsegments, (bind_eq_ok_iff _ _ _).mpr ?_⟩
    refine ⟨t.claims, hclaims, (bind_eq_ok_iff _ _ _).mpr ?_⟩
    exact ⟨t.signature, (decodeSignature_eq_ok_iff _ _).mpr hoctets, rfl⟩

/-- the claims of a first segment, which must not be empty -/
def claimsIn (header : String) : Except Error Claims :=
  if header.toList = [] then .error (.malformedSignature .emptyHeader) else Claims.decode header

/-- **Of a token whose signature can be decoded, the first segment alone decides whether it is
read.** -/
theorem parse_compact_eq {header : String} (hh : '.' ∉ header.toList) {text : String}
    {signature : Bytes} (hs : Base64.decode? (Bytes.ofText text) = some signature) :
    parse (compact header text)
      = (claimsIn header).map fun claims => ⟨header, claims, signature⟩ := by
  have hpoint := Base64.point_not_mem_of_decode? text signature hs
  unfold parse claimsIn
  by_cases hne : header.toList = []
  · have hsegments : segments (compact header text)
        = .error (.malformedSignature .emptyHeader) := by
      rw [segments, toList_compact, Text.splitOn_append '.' _ _ hh, Text.splitOn_cons_self,
        Text.splitOn_of_not_mem '.' _ hpoint]
      simp only [ne_eq, not_true_eq_false, if_false, if_pos hne]
    rw [hsegments, if_pos hne]
    rfl
  · rw [(segments_eq_ok_iff _ _ _).mpr ⟨rfl, hne, hh, hpoint⟩, if_neg hne, ok_bind]
    have hdecoded := (decodeSignature_eq_ok_iff text signature).mpr hs
    show (Claims.decode header >>= fun claims => decodeSignature text >>= fun octets =>
      pure (Token.mk header claims octets)) = _
    rw [hdecoded]
    cases Claims.decode header <;> rfl

/-- a segment with claims and a signature make a token -/
theorem parse_compact_of_decode {header : String} {c : Claims} (hc : Claims.decode header = .ok c)
    {text : String} {signature : Bytes} (hs : Base64.decode? (Bytes.ofText text) = some signature) :
    parse (compact header text) = .ok ⟨header, c, signature⟩ := by
  obtain ⟨json, hjson, hread⟩ := (Claims.decode_eq_ok_iff header c).mp hc
  have hne : header.toList ≠ [] := by
    intro h
    obtain rfl : header = "" := String.toList_inj.mp h
    obtain rfl : [] = json := Option.some.inj hjson
    cases hread
  rw [parse_compact_eq (Base64.point_not_mem_of_decode? header json hjson) hs, claimsIn, if_neg hne,
    hc]
  rfl

theorem point_not_mem_encode (c : Claims) : '.' ∉ c.encode.toList :=
  Base64.point_not_mem_encode _

/-- **A token of written claims is read back.** -/
theorem parse_compact (c : Claims) (hc : Claims.decode c.encode = .ok c) (text : String)
    (signature : Bytes) (hs : Base64.decode? (Bytes.ofText text) = some signature) :
    parse (compact c.encode text) = .ok ⟨c.encode, c, signature⟩ := parse_compact_of_decode hc hs

/-- the first segment of a token that has been read -/
theorem head?_splitOn_of_parse {token : String} {t : Token} (h : parse token = .ok t) :
    (Text.splitOn '.' token.toList).head? = some t.encodedHeader.toList ∧
      '.' ∉ t.encodedHeader.toList := by
  obtain ⟨signature, hsegments, -, -⟩ := (parse_eq_ok_iff token t).mp h
  obtain ⟨rfl, -, hh, -⟩ := (segments_eq_ok_iff _ _ _).mp hsegments
  exact ⟨head?_splitOn_compact _ _ hh, hh⟩

end Token

end RequestSigning
