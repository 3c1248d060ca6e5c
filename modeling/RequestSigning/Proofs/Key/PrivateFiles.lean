import RequestSigning.Proofs.Key.NamedCurves

/-!
# Private key files under both labels

An elliptic curve private key can stand in a file as it is, or within a structure that names its
algorithm.  The checks of the two come in another order: without the structure the block itself has
to be one sequence, and within it the structure is read and its algorithm compared before anything
is known about the key.  Still any octets lead to the same key under both labels, or to none
(`ofPem_bothLabels`), since octets that hold a key are one sequence (`exactly_of_ofEcDer`).

`Agree` is the relation between the two outcomes.
-/

namespace RequestSigning

open Asn1

namespace PrivateKey

/-! ## outcomes that agree -/

/-- two imports give the same key, or each has an error about the key -/
def Agree (a b : Except Error PrivateKey) : Prop :=
  (∃ k, a = .ok k ∧ b = .ok k) ∨
    ∃ f f', a = .error (.invalidKey f) ∧ b = .error (.invalidKey f')

theorem agree_of_failsOnKey {a b : Except Error PrivateKey} (ha : FailsOnKey a) (hb : FailsOnKey b)
    (h : ∀ k, a = .ok k ↔ b = .ok k) : Agree a b := by
  by_cases hk : ∃ k, a = .ok k
  · obtain ⟨k, hk⟩ := hk
    exact Or.inl ⟨k, hk, (h k).mp hk⟩
  · obtain ⟨f, hf⟩ := exists_keyFault ha fun k hak => hk ⟨k, hak⟩
    obtain ⟨f', hf'⟩ := exists_keyFault hb fun k hbk => hk ⟨k, (h k).mpr hbk⟩
    exact Or.inr ⟨f, f', hf, hf'⟩

/-! ## files -/

/-- octets that hold a key are one sequence -/
theorem exactly_of_ofEcDer {der : Bytes} {k : PrivateKey} (h : ofEcDer der = .ok k) :
    ∃ inner, exactly (readContent sequenceTag) der = some inner := by
  obtain ⟨key, hkey, -⟩ := (ofEcDer_eq_ok_iff der k).mp h
  rw [EcPrivateKey.ofDer?] at hkey
  obtain ⟨inner, hinner, -⟩ := Option.bind_eq_some_iff.mp hkey
  exact ⟨inner, hinner⟩

theorem ofPem_ecPrivateKey_eq_ok_iff {file der : Bytes} (h : Holds file ⟨"EC PRIVATE KEY", der⟩)
    (k : PrivateKey) : ofPem file = .ok k ↔ ofEcDer der = .ok k := by
  rw [ofPem, h.readKeyFile_eq, bind_assoc]
  constructor
  · intro hk
    obtain ⟨inner, -, hk⟩ := (bind_eq_ok_iff _ _ _).mp hk
    exact hk
  · intro hk
    obtain ⟨inner, hinner⟩ := exactly_of_ofEcDer hk
    rw [hinner]
    exact hk

theorem ofPem_privateKey_eq {file der : Bytes} (h : Holds file ⟨"PRIVATE KEY", privateKeyDer der⟩)
    (hlength : (privateKeyDer der).length < maxLength) : ofPem file = ofEcDer der := by
  have hinfo := PrivateKeyInfo.ofDer?_privateKeyDer hlength
  rw [ofPem, h.readKeyFile_eq, exactly_privateKeyDer hlength]
  show (orKeyFault .malformedPem (PrivateKeyInfo.ofDer? (privateKeyDer der)) >>= fun info =>
    ensureP521 info.algorithm >>= fun _ => ofEcDer info.key) = _
  rw [hinfo]
  show (ensureP521 p521Parameters >>= fun _ => ofEcDer der) = _
  rw [ensureP521_p521Parameters]
  rfl

/-- an accepted file has one of the two labels, and an algorithm within it is that of P-521 -/
theorem accepted_of_holds {file : Bytes} {block : Pem.Block} (h : Holds file block)
    {k : PrivateKey} (hk : ofPem file = .ok k) :
    block.label = "EC PRIVATE KEY" ∨ block.label = "PRIVATE KEY" ∧
      ∃ info, PrivateKeyInfo.ofDer? block.content = some info ∧
        info.algorithm.oid = Oid.ecPublicKey ∧ info.algorithm.curve? = some Oid.p521 := by
  rw [ofPem, h.readKeyFile_eq, bind_assoc] at hk
  obtain ⟨inner, -, hk⟩ := (bind_eq_ok_iff _ _ _).mp hk
  rw [ok_bind] at hk
  by_cases hlabel : block.label = "PRIVATE KEY"
  · rw [if_pos hlabel] at hk
    obtain ⟨info, hinfo, hk⟩ := (bind_eq_ok_iff _ _ _).mp hk
    obtain ⟨_, hcheck, -⟩ := (bind_eq_ok_iff _ _ _).mp hk
    exact Or.inr ⟨hlabel, info, (orKeyFault_eq_ok_iff _ _ _).mp hinfo,
      (ensureP521_eq_ok_iff info.algorithm).mp hcheck⟩
  · rw [if_neg hlabel] at hk
    by_cases hec : block.label = "EC PRIVATE KEY"
    · exact Or.inl hec
    · rw [if_neg hec] at hk
      cases hk

/-- what is written under both labels, also where there are no octets: a body without text is
refused, as is a key without octets -/
theorem ofPem_encode_eq_ok_iff (der : Bytes) (k : PrivateKey) :
    ofPem (Pem.Block.encode ⟨"EC PRIVATE KEY", der⟩) = .ok k ↔ ofEcDer der = .ok k := by
  by_cases hne : der = []
  · subst hne
    have hfile : (ofPem (Pem.Block.encode ⟨"EC PRIVATE KEY", []⟩)).toOption = none := by
      decide +kernel
    have hder : (ofEcDer []).toOption = none := by decide +kernel
    refine iff_of_false (fun h => ?_) fun h => ?_
    · rw [h] at hfile
      cases hfile
    · rw [h] at hder
      cases hder
  · have hlabel : Pem.IsLabel "EC PRIVATE KEY" := by decide
    exact ofPem_ecPrivateKey_eq_ok_iff (holds_encode hlabel hne) k

/-- **The two labels lead to the same key.**  Let a file hold any octets as an elliptic curve
private key, and another one hold them within the structure that names the algorithm of P-521.  Both
are read as the same key, or both are refused; so are the files that are written for the two.  A
block with another label is refused, and so is a structure that names another algorithm or another
curve, or no curve. -/
theorem ofPem_bothLabels :
    (∀ der, (privateKeyDer der).length < maxLength →
      (∀ file file', Holds file ⟨"EC PRIVATE KEY", der⟩ →
        Holds file' ⟨"PRIVATE KEY", privateKeyDer der⟩ → Agree (ofPem file) (ofPem file')) ∧
      Agree (ofPem (Pem.Block.encode ⟨"EC PRIVATE KEY", der⟩))
        (ofPem (Pem.Block.encode ⟨"PRIVATE KEY", privateKeyDer der⟩))) ∧
      (∀ file block, Holds file block → block.label ≠ "EC PRIVATE KEY" →
        block.label ≠ "PRIVATE KEY" → ∃ fault, ofPem file = .error (.invalidKey fault)) ∧
      ∀ file content info, Holds file ⟨"PRIVATE KEY", content⟩ →
        PrivateKeyInfo.ofDer? content = some info →
        (info.algorithm.oid ≠ Oid.ecPublicKey ∨ info.algorithm.curve? ≠ some Oid.p521) →
          ∃ fault, ofPem file = .error (.invalidKey fault) := by
  refine ⟨fun der hlength => ⟨fun file file' h h' => ?_, ?_⟩, ?_, ?_⟩
  · refine agree_of_failsOnKey (failsOnKey_ofPem file) (failsOnKey_ofPem file') fun k => ?_
    rw [ofPem_ecPrivateKey_eq_ok_iff h, ofPem_privateKey_eq h' hlength]
  · have hlabel : Pem.IsLabel "PRIVATE KEY" := by decide
    have h' : Holds _ ⟨"PRIVATE KEY", privateKeyDer der⟩ :=
      holds_encode hlabel (Element.encode_ne_nil _)
    refine agree_of_failsOnKey (failsOnKey_ofPem _) (failsOnKey_ofPem _) fun k => ?_
    rw [ofPem_encode_eq_ok_iff, ofPem_privateKey_eq h' hlength]
  · intro file block h hec hlabel
    refine exists_keyFault (failsOnKey_ofPem file) fun k hk => ?_
    rcases accepted_of_holds h hk with heq | ⟨heq, -⟩
    · exact hec heq
    · exact hlabel heq
  · intro file content info h hinfo hforeign
    refine exists_keyFault (failsOnKey_ofPem file) fun k hk => ?_
    rcases accepted_of_holds h hk with heq | ⟨-, info', hinfo', hoid, hcurve⟩
    · exact absurd heq (by decide : "PRIVATE KEY" ≠ "EC PRIVATE KEY")
    · obtain rfl : info = info' := Option.some.inj (hinfo.symm.trans hinfo')
      rcases hforeign with hne | hne
      · exact hne hoid
      · exact hne hcurve

/-! The key of 32 octets under both labels, an octet string in its place, the key under the label of
a public key, and the key within a structure that names P-256. -/

/-- the structure with the key for any curve -/
def foreignDer (curve : Oid) (key : Bytes) : Bytes :=
  Element.encode ⟨sequenceTag, Element.encode ⟨integerTag, [0]⟩
    ++ Element.encode ⟨sequenceTag, Element.encode ⟨oidTag, Oid.ecPublicKey.octets⟩
      ++ Element.encode ⟨oidTag, curve.octets⟩⟩
    ++ Element.encode ⟨octetStringTag, key⟩⟩

theorem ofPem_bothLabels_shortKey :
    (∃ k, ofPem (Pem.Block.encode ⟨"EC PRIVATE KEY", shortKeyDer none⟩) = .ok k ∧
        ofPem (Pem.Block.encode ⟨"PRIVATE KEY", privateKeyDer (shortKeyDer none)⟩) = .ok k) ∧
      (∃ f f', ofPem (Pem.Block.encode ⟨"EC PRIVATE KEY", [4, 1, 0]⟩) = .error (.invalidKey f) ∧
        ofPem (Pem.Block.encode ⟨"PRIVATE KEY", privateKeyDer [4, 1, 0]⟩)
          = .error (.invalidKey f')) ∧
      (∃ f, ofPem (Pem.Block.encode ⟨"PUBLIC KEY", shortKeyDer none⟩) = .error (.invalidKey f)) ∧
      ∃ f, ofPem (Pem.Block.encode ⟨"PRIVATE KEY", foreignDer p256 (shortKeyDer none)⟩)
        = .error (.invalidKey f) := by
  obtain ⟨hboth, hlabel, halgorithm⟩ := ofPem_bothLabels
  have hok : (ofPem (Pem.Block.encode ⟨"EC PRIVATE KEY", shortKeyDer none⟩)).toBool = true := by
    decide +kernel
  have hfails : (ofPem (Pem.Block.encode ⟨"EC PRIVATE KEY", [4, 1, 0]⟩)).toBool = false := by
    decide +kernel
  have hcontent : shortKeyDer none ≠ [] := Element.encode_ne_nil _
  refine ⟨?_, ?_, ?_, ?_⟩
  · rcases (hboth (shortKeyDer none) (by decide)).1 _ _ (holds_encode (by decide) hcontent)
      (holds_encode (by decide) (Element.encode_ne_nil _)) with h | ⟨f, f', h, -⟩
    · exact h
    · rw [h] at hok
      cases hok
  · rcases (hboth [4, 1, 0] (by decide)).2 with ⟨k, h, -⟩ | h
    · rw [h] at hfails
      cases hfails
    · exact h
  · exact hlabel _ _ (holds_encode (by decide) hcontent) (by decide) (by decide)
  · exact halgorithm _ _ ⟨⟨Oid.ecPublicKey, some ⟨oidTag, p256.octets⟩⟩, shortKeyDer none⟩
      (holds_encode (by decide) (Element.encode_ne_nil _)) (by rfl) (Or.inr (by decide))

end PrivateKey

end RequestSigning
