import RequestSigning.Key.Document
import RequestSigning.Proofs.Asn1
import RequestSigning.Proofs.Except
import RequestSigning.Proofs.Pem

/-!
# What keys have in common

`orKeyFault` and `ensureP521` succeed on what they ask for, and fail with an error about the key.
`FailsOnKey` says the latter of any computation, so that it can be carried along a chain of checks.
A file `Holds` a block, and `readKeyFile_encode` reads back a block with one sequence.
-/

namespace RequestSigning

open Asn1

/-! ## success -/

theorem orKeyFault_eq_ok_iff {α : Type} (fault : KeyFault) (x : Option α) (a : α) :
    orKeyFault fault x = .ok a ↔ x = some a := by
  cases x with
  | none => exact iff_of_false (fun h => by cases h) fun h => by cases h
  | some b =>
    constructor
    · intro h
      exact congrArg some (Except.ok.inj h)
    · intro h
      exact congrArg Except.ok (Option.some.inj h)

theorem ensureP521_eq_ok_iff (algorithm : Algorithm) :
    ensureP521 algorithm = .ok () ↔
      algorithm.oid = Oid.ecPublicKey ∧ algorithm.curve? = some Oid.p521 := by
  unfold ensureP521
  by_cases hoid : algorithm.oid = Oid.ecPublicKey
  · rw [if_neg (not_not_intro hoid)]
    cases algorithm.curve? with
    | none => exact iff_of_false (fun h => by cases h) fun h => by cases h.2
    | some curve =>
      dsimp only
      by_cases h : curve = Oid.p521
      · rw [if_pos h]
        exact iff_of_true rfl ⟨hoid, congrArg some h⟩
      · rw [if_neg h]
        exact iff_of_false (fun e => by cases e) fun e => h (Option.some.inj e.2)
  · rw [if_pos hoid]
    exact iff_of_false (fun h => by cases h) fun h => hoid h.1

theorem ensureP521_p521Parameters : ensureP521 p521Parameters = .ok () :=
  (ensureP521_eq_ok_iff _).mpr ⟨rfl, curve?_p521Parameters⟩

/-- a file is a text with a block -/
structure Holds (file : Bytes) (block : Pem.Block) : Prop where
  text : ∃ chars, Utf8.decode? file = some chars
  block : Pem.decode? file = some block

theorem Holds.readKeyFile_eq {file : Bytes} {block : Pem.Block} (h : Holds file block) :
    readKeyFile file
      = orKeyFault .malformedPem (exactly (readContent sequenceTag) block.content) >>= fun _ =>
        .ok block := by
  obtain ⟨chars, htext⟩ := h.text
  rw [readKeyFile, htext, h.block]
  rfl

theorem holds_encode {block : Pem.Block} (hlabel : Pem.IsLabel block.label)
    (hne : block.content ≠ []) : Holds block.encode block := by
  have htext := Utf8.decode?_ofChars (block.encode.map fun b => Char.ofNat b.toNat)
  rw [Bytes.ofChars_map_ofNat _ (Pem.Block.isAscii_encode hlabel hne)] at htext
  exact ⟨⟨_, htext⟩, Pem.Block.decode?_encode hlabel hne⟩

/-- **A block with one sequence is read back from its file.** -/
theorem readKeyFile_encode {block : Pem.Block} (hlabel : Pem.IsLabel block.label) {inner : Bytes}
    (hcontent : exactly (readContent sequenceTag) block.content = some inner) :
    readKeyFile block.encode = .ok block := by
  have hne : block.content ≠ [] := by
    intro hnil
    rw [hnil] at hcontent
    cases hcontent
  rw [(holds_encode hlabel hne).readKeyFile_eq, hcontent]
  rfl

/-! ## failure -/

/-- an error about a key -/
def IsKeyFault (e : Error) : Prop := ∃ fault, e = .invalidKey fault

/-- a computation all of whose errors are about a key -/
abbrev FailsOnKey {α : Type} (x : Except Error α) : Prop := FailsWith IsKeyFault x

theorem failsOnKey_error {α : Type} (fault : KeyFault) :
    FailsOnKey (.error (.invalidKey fault) : Except Error α) := failsWith_error ⟨fault, rfl⟩

/-- what does not succeed has an error about a key -/
theorem exists_keyFault {α : Type} {x : Except Error α} (hfails : FailsOnKey x)
    (h : ∀ a, x ≠ .ok a) : ∃ fault, x = .error (.invalidKey fault) := by
  cases x with
  | ok a => exact absurd rfl (h a)
  | error e =>
    obtain ⟨fault, rfl⟩ := hfails e rfl
    exact ⟨fault, rfl⟩

theorem failsOnKey_orKeyFault {α : Type} (fault : KeyFault) (x : Option α) :
    FailsOnKey (orKeyFault fault x) := by
  cases x with
  | none => exact failsOnKey_error fault
  | some a => exact failsWith_ok a

theorem failsOnKey_readKeyFile (file : Bytes) : FailsOnKey (readKeyFile file) := by
  refine (failsOnKey_orKeyFault _ _).bind fun _ => ?_
  refine (failsOnKey_orKeyFault _ _).bind fun block => ?_
  exact (failsOnKey_orKeyFault _ _).bind fun _ => failsWith_ok block

theorem failsOnKey_ensureP521 (algorithm : Algorithm) : FailsOnKey (ensureP521 algorithm) := by
  refine failsWith_ite _ (failsOnKey_error _) ?_
  cases algorithm.curve? with
  | none => exact failsOnKey_error _
  | some curve => exact failsWith_ite _ (failsWith_ok ()) (failsOnKey_error _)

end RequestSigning
