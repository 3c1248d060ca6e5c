import RequestSigning.Asn1.KeyInfo

/-!
# DER: reading undoes writing

A reader `Reads` what was written if it takes it off the front of any octet string and leaves the
rest.  Lengths, elements and their contents are read so (`reads_lengthOctets`, `reads_encode`,
`reads_content`), and then whole structures are, part by part: `PublicKeyInfo.ofDer?_publicKeyDer`
is for public keys, and `PrivateKeyInfo.ofDer?_privateKeyDer` for private ones.
-/

namespace RequestSigning.Asn1

variable {α : Type} {reader : Reader α} {written : Bytes} {x : α}

/-- a reader takes what was written off the front of any octet string -/
def Reads (reader : Reader α) (written : Bytes) (x : α) : Prop :=
  ∀ rest, reader (written ++ rest) = some (x, rest)

theorem Reads.exactly_eq (h : Reads reader written x) : exactly reader written = some x := by
  have hall := h []
  rw [List.append_nil] at hall
  rw [exactly, hall]
  rfl

/-! ## lengths -/

/-- the lengths that are read are below 2²⁸ -/
def maxLength : Nat := 0x10000000

/-- a length needs as many octets as are written for it -/
theorem lengthWidth_spec {n : Nat} (h : 128 ≤ n) (hmax : n < maxLength) :
    1 ≤ lengthWidth n ∧ lengthWidth n ≤ 4 ∧ Bytes.weight (lengthWidth n - 1) ≤ n ∧
      n < Bytes.weight (lengthWidth n) := by
  by_cases h1 : n < 0x100
  · rw [lengthWidth, if_pos h1]
    exact ⟨by decide, by decide, Nat.le_trans (by decide) h, h1⟩
  by_cases h2 : n < 0x10000
  · rw [lengthWidth, if_neg h1, if_pos h2]
    exact ⟨by decide, by decide, Nat.not_lt.mp h1, h2⟩
  by_cases h3 : n < 0x1000000
  · rw [lengthWidth, if_neg h1, if_neg h2, if_pos h3]
    exact ⟨by decide, by decide, Nat.not_lt.mp h2, h3⟩
  · rw [lengthWidth, if_neg h1, if_neg h2, if_neg h3]
    exact ⟨by decide, by decide, Nat.not_lt.mp h3, Nat.lt_trans hmax (by decide)⟩

theorem reads_lengthOctets {n : Nat} (h : n < maxLength) :
    Reads readLength (lengthOctets n) n := by
  intro rest
  by_cases hshort : n < 128
  · have hn : (UInt8.ofNat n).toNat = n := Nat.mod_eq_of_lt (Nat.lt_trans hshort (by decide))
    have hlt : UInt8.ofNat n < 0x80 := UInt8.lt_iff_toNat_lt.mpr (hn.symm ▸ hshort)
    rw [lengthOctets, if_pos hshort, List.singleton_append, readLength, if_pos hlt, hn]
  · obtain ⟨hpos, hfour, hleast, hmost⟩ := lengthWidth_spec (Nat.not_lt.mp hshort) h
    have hw : (UInt8.ofNat (128 + lengthWidth n)).toNat = 128 + lengthWidth n :=
      Nat.mod_eq_of_lt (by omega)
    have hnot : ¬ UInt8.ofNat (128 + lengthWidth n) < 0x80 := by
      rw [UInt8.lt_iff_toNat_lt, hw]
      exact Nat.not_lt.mpr (Nat.le_add_right 128 _)
    have hlength := Bytes.length_ofNat (lengthWidth n) n
    have htake : (Bytes.ofNat (lengthWidth n) n ++ rest).take (lengthWidth n)
        = Bytes.ofNat (lengthWidth n) n := List.take_left' hlength
    have hdrop : (Bytes.ofNat (lengthWidth n) n ++ rest).drop (lengthWidth n) = rest :=
      List.drop_left' hlength
    have hvalue : (Bytes.ofNat (lengthWidth n) n).toNat = n := by
      rw [Bytes.toNat_ofNat, Nat.mod_eq_of_lt hmost]
    rw [lengthOctets, if_neg hshort, List.cons_append, readLength, if_neg hnot]
    simp only [hw, Nat.add_sub_cancel_left, htake, hdrop, hvalue, hlength]
    exact if_pos ⟨hpos, hfour, trivial, Nat.not_lt.mp hshort, hleast, h⟩

theorem length_lengthOctets_le (n : Nat) : (lengthOctets n).length ≤ 5 := by
  by_cases h : n < 128
  · rw [lengthOctets, if_pos h]
    exact Nat.succ_le_succ (Nat.zero_le 4)
  · rw [lengthOctets, if_neg h, List.length_cons, Bytes.length_ofNat]
    unfold lengthWidth
    split
    · exact Nat.le_of_ble_eq_true rfl
    · split
      · exact Nat.le_of_ble_eq_true rfl
      · split <;> exact Nat.le_of_ble_eq_true rfl

/-! ## elements -/

theorem Element.encode_ne_nil (e : Element) : e.encode ≠ [] := List.cons_ne_nil _ _

theorem Element.length_encode_le (e : Element) : e.encode.length ≤ e.content.length + 6 := by
  have h := length_lengthOctets_le e.content.length
  rw [encode, List.length_cons, List.length_append]
  omega

/-- **An element is read back.** -/
theorem reads_encode (e : Element) (htag : isTag e.tag = true) (h : e.content.length < maxLength) :
    Reads readElement e.encode e := by
  intro rest
  have hlength := reads_lengthOctets h (e.content ++ rest)
  have hfits : isTag e.tag = true ∧ e.content.length ≤ (e.content ++ rest).length := by
    rw [List.length_append]
    exact ⟨htag, Nat.le_add_right _ _⟩
  rw [Element.encode, List.cons_append, List.append_assoc, readElement, hlength]
  show (if _ then _ else _) = _
  rw [if_pos hfits, List.take_left, List.drop_left]

theorem reads_content (tag : UInt8) (htag : isTag tag = true) {content : Bytes}
    (h : content.length < maxLength) :
    Reads (readContent tag) (Element.encode ⟨tag, content⟩) content := by
  intro rest
  rw [readContent, reads_encode ⟨tag, content⟩ htag h rest]
  exact if_pos rfl

theorem reads_oid (oid : Oid) (h : Oid.ofOctets? oid.octets = some oid) :
    Reads readOid (Element.encode ⟨oidTag, oid.octets⟩) oid := by
  intro rest
  have hlength : oid.octets.length < maxLength := by
    unfold Oid.ofOctets? at h
    split at h
    · rename_i hvalid
      exact Nat.lt_of_le_of_lt hvalid.2.1 (by decide)
    · cases h
  rw [readOid, reads_content oidTag (by decide) hlength rest]
  show (Oid.ofOctets? oid.octets).bind _ = _
  rw [h]
  rfl

/-! ## public keys -/

/-- the algorithm of elliptic curve keys on P-521 -/
def p521Parameters : Algorithm := ⟨Oid.ecPublicKey, some ⟨oidTag, Oid.p521.octets⟩⟩

theorem reads_p521Algorithm : Reads readAlgorithm p521Algorithm p521Parameters := by
  intro rest
  have hoid := reads_oid Oid.ecPublicKey (by decide) (Element.encode ⟨oidTag, Oid.p521.octets⟩)
  have hparameters : parameters? (Element.encode ⟨oidTag, Oid.p521.octets⟩)
      = some p521Parameters.parameters := by
    rw [parameters?, if_neg (Element.encode_ne_nil _),
      (reads_encode ⟨oidTag, Oid.p521.octets⟩ (by decide) (by decide)).exactly_eq]
    rfl
  rw [readAlgorithm, p521Algorithm, reads_content sequenceTag (by decide) (by decide) rest]
  simp only [Option.bind_eq_bind, Option.bind_some, hoid, hparameters]
  rfl

theorem curve?_p521Parameters : p521Parameters.curve? = some Oid.p521 := by decide

theorem exactly_publicKeyDer {point : Bytes} (h : point.length < 0x1000000) :
    exactly (readContent sequenceTag) (publicKeyDer point)
      = some (p521Algorithm ++ Element.encode ⟨bitStringTag, 0 :: point⟩) := by
  refine (reads_content sequenceTag (by decide) ?_).exactly_eq
  have hencoded := Element.length_encode_le ⟨bitStringTag, 0 :: point⟩
  have halgorithm : p521Algorithm.length = 18 := rfl
  have hmax : maxLength = 0x10000000 := rfl
  rw [List.length_cons] at hencoded
  rw [List.length_append, halgorithm, hmax]
  omega

/-- **A public key is read back from its DER.** -/
theorem PublicKeyInfo.ofDer?_publicKeyDer {point : Bytes} (h : point.length < 0x1000000) :
    PublicKeyInfo.ofDer? (publicKeyDer point) = some ⟨p521Parameters, ⟨0, point⟩⟩ := by
  have hbits : (0 :: point).length < maxLength :=
    Nat.lt_of_le_of_lt (Nat.succ_le_of_lt h) (by decide)
  have hkey := (reads_content bitStringTag (by decide) hbits).exactly_eq
  have halgorithm := reads_p521Algorithm (Element.encode ⟨bitStringTag, 0 :: point⟩)
  have hcontent : BitString.ofContent? (0 :: point) = some ⟨0, point⟩ := rfl
  rw [PublicKeyInfo.ofDer?, exactly_publicKeyDer h]
  simp only [Option.bind_eq_bind, Option.bind_some, halgorithm, hkey, hcontent]

/-! ## private keys -/

theorem Element.length_content_le (e : Element) : e.content.length ≤ e.encode.length := by
  rw [encode, List.length_cons, List.length_append]
  omega

section
variable {key : Bytes}

theorem exactly_privateKeyDer (h : (privateKeyDer key).length < maxLength) :
    exactly (readContent sequenceTag) (privateKeyDer key)
      = some (Element.encode ⟨integerTag, [0]⟩ ++ p521Algorithm
        ++ Element.encode ⟨octetStringTag, key⟩) := by
  refine (reads_content sequenceTag (by decide) ?_).exactly_eq
  exact Nat.lt_of_le_of_lt (Element.length_content_le ⟨sequenceTag, _⟩) h

theorem length_lt_of_privateKeyDer (h : (privateKeyDer key).length < maxLength) :
    key.length < maxLength := by
  have hkey := Element.length_content_le ⟨octetStringTag, key⟩
  have hall := Element.length_content_le ⟨sequenceTag, Element.encode ⟨integerTag, [0]⟩
    ++ p521Algorithm ++ Element.encode ⟨octetStringTag, key⟩⟩
  dsimp only at hkey hall
  rw [List.length_append] at hall
  rw [privateKeyDer] at h
  omega

/-- **The octets of a private key are read back from its DER.** -/
theorem PrivateKeyInfo.ofDer?_privateKeyDer (h : (privateKeyDer key).length < maxLength) :
    PrivateKeyInfo.ofDer? (privateKeyDer key) = some ⟨p521Parameters, key⟩ := by
  have hzero : ([0] : Bytes).length < maxLength := by decide
  have hversion := reads_content integerTag (by decide) hzero
    (p521Algorithm ++ Element.encode ⟨octetStringTag, key⟩)
  have halgorithm := reads_p521Algorithm (Element.encode ⟨octetStringTag, key⟩)
  have hkey := reads_content octetStringTag (by decide) (length_lt_of_privateKeyDer h) []
  have hend : readPublicKey [] = some (false, []) := rfl
  rw [List.append_nil] at hkey
  rw [PrivateKeyInfo.ofDer?, exactly_privateKeyDer h, List.append_assoc]
  simp only [Option.bind_eq_bind, Option.bind_some, hversion, halgorithm, hkey, hend]
  rfl

end

end RequestSigning.Asn1
