import RequestSigning.Key.Private
import RequestSigning.Proofs.Key.Document

/-!
# The curves that a private key file names

A file with a private key can name a curve in two places: in the algorithm, which is there under the
label `PRIVATE KEY` only, and in a field of the elliptic curve key itself.  `KeyFile` has the parts
of such a file, and `ofPem_eq_ok_iff` says which files are read as which key.

Only the curve of the algorithm is compared with P-521.  The field of the elliptic curve key has no
effect under either label (`ofEcPrivateKey?_curve`), so that a scalar of another curve is read as
one of P-521.  `ofPem_namedCurves` tells the files that this concerns: an accepted file names no
other curve than P-521 exactly if this field does not, and the key is the same whatever the field
names.
-/

namespace RequestSigning

open Asn1

namespace PrivateKey

/-! ## parts of a file -/

/-- what a file with a private key holds: perhaps an algorithm, and the DER of an elliptic curve
key -/
structure KeyFile where
  algorithm : Option Algorithm
  der : Bytes
  deriving DecidableEq

namespace KeyFile

def read (file : Bytes) : Except Error KeyFile := do
  let block ← readKeyFile file
  if block.label = "PRIVATE KEY" then
    let info ← orKeyFault .malformedPem (PrivateKeyInfo.ofDer? block.content)
    return ⟨some info.algorithm, info.key⟩
  else if block.label = "EC PRIVATE KEY" then .ok ⟨none, block.content⟩
  else .error (.invalidKey (.unexpectedLabel block.label))

/-- an algorithm has to be that of P-521, if there is one -/
def checkAlgorithm (f : KeyFile) : Except Error Unit :=
  match f.algorithm with
  | none => .ok ()
  | some algorithm => ensureP521 algorithm

def key? (f : KeyFile) : Option EcPrivateKey := EcPrivateKey.ofDer? f.der

/-- the curve that the algorithm names -/
def algorithmCurve? (f : KeyFile) : Option Oid := f.algorithm.bind Algorithm.curve?

/-- the curve that the elliptic curve key names -/
def keyCurve? (f : KeyFile) : Option Oid := f.key?.bind EcPrivateKey.curve

def namedCurves (f : KeyFile) : List Oid := f.algorithmCurve?.toList ++ f.keyCurve?.toList

theorem mem_namedCurves_iff (f : KeyFile) (curve : Oid) :
    curve ∈ f.namedCurves ↔ f.algorithmCurve? = some curve ∨ f.keyCurve? = some curve := by
  rw [namedCurves, List.mem_append, Option.mem_toList, Option.mem_toList]

end KeyFile

theorem ofPem_eq (file : Bytes) :
    ofPem file = KeyFile.read file >>= fun f => f.checkAlgorithm >>= fun _ => ofEcDer f.der := by
  rw [ofPem, KeyFile.read, bind_assoc]
  refine bind_congr fun block => ?_
  by_cases hinfo : block.label = "PRIVATE KEY"
  · rw [if_pos hinfo, if_pos hinfo, bind_assoc]
    exact bind_congr fun info => rfl
  rw [if_neg hinfo, if_neg hinfo]
  by_cases hec : block.label = "EC PRIVATE KEY"
  · rw [if_pos hec, if_pos hec]
    rfl
  · rw [if_neg hec, if_neg hec]
    rfl

/-! ## accepted files -/

theorem KeyFile.checkAlgorithm_eq_ok_iff (f : KeyFile) :
    f.checkAlgorithm = .ok () ↔ ∀ algorithm, f.algorithm = some algorithm →
      algorithm.oid = Oid.ecPublicKey ∧ algorithm.curve? = some Oid.p521 := by
  unfold KeyFile.checkAlgorithm
  cases f.algorithm with
  | none => exact iff_of_true rfl fun _ h => by cases h
  | some algorithm =>
    rw [ensureP521_eq_ok_iff]
    exact ⟨fun h a ha => Option.some.inj ha ▸ h, fun h => h algorithm rfl⟩

theorem ofEcDer_eq_ok_iff (der : Bytes) (k : PrivateKey) :
    ofEcDer der = .ok k ↔
      ∃ key, EcPrivateKey.ofDer? der = some key ∧ ofEcPrivateKey? key = some k := by
  rw [ofEcDer, orKeyFault_eq_ok_iff, Option.bind_eq_some_iff]

/-- **A file is accepted exactly if its parts can be read, its algorithm passes if it has one, and
its elliptic curve key holds a scalar of P-521 and no foreign public key.** -/
theorem ofPem_eq_ok_iff (file : Bytes) (k : PrivateKey) :
    ofPem file = .ok k ↔ ∃ f key, KeyFile.read file = .ok f ∧ f.checkAlgorithm = .ok () ∧
      f.key? = some key ∧ ofEcPrivateKey? key = some k := by
  rw [ofPem_eq, bind_eq_ok_iff]
  constructor
  · rintro ⟨f, hread, h⟩
    obtain ⟨_, hcheck, hkey⟩ := (bind_eq_ok_iff _ _ _).mp h
    obtain ⟨key, hder, hk⟩ := (ofEcDer_eq_ok_iff _ _).mp hkey
    exact ⟨f, key, hread, hcheck, hder, hk⟩
  · rintro ⟨f, key, hread, hcheck, hder, hk⟩
    refine ⟨f, hread, ?_⟩
    rw [hcheck, ok_bind]
    exact (ofEcDer_eq_ok_iff _ _).mpr ⟨key, hder, hk⟩

/-- the curve that an elliptic curve key names is not looked at -/
theorem ofEcPrivateKey?_curve (key : EcPrivateKey) (curve : Option Oid) :
    ofEcPrivateKey? { key with curve } = ofEcPrivateKey? key := rfl

/-! ## refused files -/

theorem failsOnKey_read (file : Bytes) : FailsOnKey (KeyFile.read file) := by
  refine (failsOnKey_readKeyFile file).bind fun block => ?_
  refine failsWith_ite _ ?_ (failsWith_ite _ (failsWith_ok _) (failsOnKey_error _))
  exact (failsOnKey_orKeyFault _ _).bind fun info => failsWith_ok _

theorem failsOnKey_checkAlgorithm (f : KeyFile) : FailsOnKey f.checkAlgorithm := by
  unfold KeyFile.checkAlgorithm
  cases f.algorithm with
  | none => exact failsWith_ok ()
  | some algorithm => exact failsOnKey_ensureP521 algorithm

theorem failsOnKey_ofPem (file : Bytes) : FailsOnKey (ofPem file) := by
  rw [ofPem_eq]
  refine (failsOnKey_read file).bind fun f => ?_
  exact (failsOnKey_checkAlgorithm f).bind fun _ => failsOnKey_orKeyFault _ _

/-! ## the curves -/

/-- an algorithm that is checked names no other curve than P-521 -/
theorem algorithmCurve?_eq {f : KeyFile} (h : f.checkAlgorithm = .ok ()) {curve : Oid}
    (hcurve : f.algorithmCurve? = some curve) : curve = Oid.p521 := by
  obtain ⟨algorithm, ha, hc⟩ := Option.bind_eq_some_iff.mp hcurve
  exact Option.some.inj (hc.symm.trans (f.checkAlgorithm_eq_ok_iff.mp h algorithm ha).2)

/-- **A foreign curve is refused where the algorithm names it, and only there.**  All errors are
about the key, and a file whose algorithm names another curve than P-521 has one.  An accepted file
names P-521 only, exactly if the elliptic curve key within names no other curve; and any file with
the same algorithm and an elliptic curve key that differs in the curve that it names alone is
accepted as the same key. -/
theorem ofPem_namedCurves (file : Bytes) :
    FailsOnKey (ofPem file) ∧
      (∀ f curve, KeyFile.read file = .ok f → f.algorithmCurve? = some curve → curve ≠ Oid.p521 →
        ∃ fault, ofPem file = .error (.invalidKey fault)) ∧
      ∀ k, ofPem file = .ok k → ∃ f key, KeyFile.read file = .ok f ∧ f.key? = some key ∧
        (∀ algorithm, f.algorithm = some algorithm →
          algorithm.oid = Oid.ecPublicKey ∧ algorithm.curve? = some Oid.p521) ∧
        ((∀ curve ∈ f.namedCurves, curve = Oid.p521) ↔
          ∀ curve, key.curve = some curve → curve = Oid.p521) ∧
        ∀ file' f' curve, KeyFile.read file' = .ok f' → f'.algorithm = f.algorithm →
          f'.key? = some { key with curve } → ofPem file' = .ok k := by
  refine ⟨failsOnKey_ofPem file, ?_, ?_⟩
  · intro f curve hread hcurve hforeign
    cases h : ofPem file with
    | error e =>
      obtain ⟨fault, rfl⟩ := failsOnKey_ofPem file e h
      exact ⟨fault, rfl⟩
    | ok k =>
      obtain ⟨f', key, hread', hcheck, -, -⟩ := (ofPem_eq_ok_iff file k).mp h
      obtain rfl := Except.ok.inj (hread.symm.trans hread')
      exact absurd (algorithmCurve?_eq hcheck hcurve) hforeign
  · intro k h
    obtain ⟨f, key, hread, hcheck, hkey, hk⟩ := (ofPem_eq_ok_iff file k).mp h
    have hkeyCurve : f.keyCurve? = key.curve := by rw [KeyFile.keyCurve?, hkey, Option.bind_some]
    refine ⟨f, key, hread, hkey, f.checkAlgorithm_eq_ok_iff.mp hcheck, ⟨?_, ?_⟩, ?_⟩
    · intro hall curve hcurve
      exact hall curve ((f.mem_namedCurves_iff curve).mpr (Or.inr (hkeyCurve.trans hcurve)))
    · intro hinner curve hcurve
      rcases (f.mem_namedCurves_iff curve).mp hcurve with houter | hinside
      · exact algorithmCurve?_eq hcheck houter
      · exact hinner curve (hkeyCurve.symm.trans hinside)
    · intro file' f' curve hread' hsame hkey'
      refine (ofPem_eq_ok_iff file' k).mpr ⟨f', _, hread', ?_, hkey', ?_⟩
      · rw [KeyFile.checkAlgorithm, hsame]
        exact hcheck
      · rw [ofEcPrivateKey?_curve]
        exact hk

/-! Files with a key of 32 octets that names P-256. -/

def p256 : Oid := ⟨[0x2A, 0x86, 0x48, 0xCE, 0x3D, 0x03, 0x01, 0x07]⟩

/-- a short key that may name its curve -/
def shortKey (curve : Option Oid) : EcPrivateKey :=
  ⟨(List.range 32).map fun i => UInt8.ofNat (i + 1), curve, none⟩

/-- the key in DER -/
def shortKeyDer (curve : Option Oid) : Bytes :=
  let named := curve.map fun c => Element.encode ⟨explicitTag 0, Element.encode ⟨oidTag, c.octets⟩⟩
  Element.encode ⟨sequenceTag, Element.encode ⟨integerTag, [1]⟩
    ++ Element.encode ⟨octetStringTag, (shortKey curve).scalar⟩ ++ named.getD []⟩

/-- files with the key under both labels, and the algorithm that stands with it there -/
def shortKeyFiles : List ((Option Oid → Bytes) × Option Algorithm) :=
  [(fun curve => Pem.Block.encode ⟨"EC PRIVATE KEY", shortKeyDer curve⟩, none),
    (fun curve => Pem.Block.encode ⟨"PRIVATE KEY", privateKeyDer (shortKeyDer curve)⟩,
      some ⟨Oid.ecPublicKey, some ⟨oidTag, Oid.p521.octets⟩⟩)]

theorem ofPem_shortKey :
    ∀ p ∈ shortKeyFiles, ∃ k f, ofPem (p.1 (some p256)) = .ok k ∧
      ofPem (p.1 (some Oid.p521)) = .ok k ∧ KeyFile.read (p.1 (some p256)) = .ok f ∧
      p256 ∈ f.namedCurves ∧ ¬ ∀ curve ∈ f.namedCurves, curve = Oid.p521 := by
  have hkey : ∀ curve ∈ [some p256, some Oid.p521],
      EcPrivateKey.ofDer? (shortKeyDer curve) = some (shortKey curve) := by decide +kernel
  have hread : ∀ p ∈ shortKeyFiles, ∀ curve ∈ [some p256, some Oid.p521],
      (KeyFile.read (p.1 curve)).toOption = some ⟨p.2, shortKeyDer curve⟩ := by decide +kernel
  have hok : ∀ p ∈ shortKeyFiles, (ofPem (p.1 (some p256))).toBool = true := by decide +kernel
  intro p hp
  have hread256 := eq_ok_of_toOption (hread p hp (some p256) (by simp))
  have hread521 := eq_ok_of_toOption (hread p hp (some Oid.p521) (by simp))
  obtain ⟨k, hk⟩ := exists_ok_of_toBool (hok p hp)
  obtain ⟨f, key, hf, hfkey, -, -, hsame⟩ := (ofPem_namedCurves (p.1 (some p256))).2.2 k hk
  obtain rfl := Except.ok.inj (hread256.symm.trans hf)
  obtain rfl := Option.some.inj ((hkey (some p256) (by simp)).symm.trans hfkey)
  have hnamed : p256 ∈ KeyFile.namedCurves ⟨p.2, shortKeyDer (some p256)⟩ := by
    rw [KeyFile.mem_namedCurves_iff, KeyFile.keyCurve?, hfkey]
    exact Or.inr rfl
  have hk521 := hsame _ _ _ hread521 rfl (hkey (some Oid.p521) (by simp))
  exact ⟨k, _, hk, hk521, hf, hnamed, fun h => absurd (h p256 hnamed) (by decide)⟩

end PrivateKey

end RequestSigning
