import RequestSigning.Key.Private
import RequestSigning.Proofs.Curve.Order
import RequestSigning.Proofs.Key.Forms

/-!
# Private keys from web keys

A web key `Carries` a private key if it is an elliptic curve key on P-521, its parameter `d` spells
the scalar in at most 66 octets, and its coordinates, if it has any, are both there and those of the
public key that belongs to the scalar.

* `ofNat?_eq_some_iff`           a number is a key exactly if it is the scalar of the key;
* `toGroup_publicKey`            the public key is the multiple of the generator;
* `checkCoordinates_eq_ok_iff`   coordinates are left out, or those of the key;
* `ofWebKey_eq_ok_iff`           the web keys that are read are those that carry a key;
* `ofWebKey_congr`               of the octets of `d` nothing counts but their number.

`ofWebKey_iff_carries` puts them together.
-/

namespace RequestSigning

open Curve

namespace PrivateKey

/-! ## scalars -/

theorem ofNat?_eq_some_iff (n : Nat) (k : PrivateKey) :
    ofNat? n = some k ↔ k.multiplier.scalar.val = n := by
  rw [ofNat?, Option.map_eq_some_iff]
  constructor
  · rintro ⟨a, ha, rfl⟩
    exact (Multiplier.ofNat?_eq_some_iff n a).mp ha
  · intro h
    exact ⟨k.multiplier, (Multiplier.ofNat?_eq_some_iff n k.multiplier).mpr h, rfl⟩

theorem eq_iff_scalar_eq (k k' : PrivateKey) :
    k = k' ↔ k.multiplier.scalar.val = k'.multiplier.scalar.val := by
  constructor
  · rintro rfl
    rfl
  · intro h
    have hk := (ofNat?_eq_some_iff _ k).mpr rfl
    rw [(ofNat?_eq_some_iff _ k').mpr h.symm] at hk
    exact (Option.some.inj hk).symm

/-! ## public keys -/

/-- **The public key of a private key is the multiple of the generator** with the scalar. -/
theorem toGroup_publicKey (k : PrivateKey) :
    k.publicKey.point.toGroup = k.multiplier.scalar.val • generator.toGroup := by
  have hmultiple := represents_multiple (represents_ofPoint generator) k.multiplier.scalar
  obtain ⟨q, hq, hgroup⟩ := hmultiple.exists_toPoint? (smul_generator_ne_zero k.multiplier)
  have hpoint : k.publicKey = ⟨q⟩ := by rw [publicKey, hq, Option.getD_some]
  rw [hpoint, hgroup]

/-! ## coordinates -/

theorem checkCoordinates_eq_ok_iff (k : PrivateKey) (key : WebKey) :
    checkCoordinates k key = .ok () ↔
      key.x = none ∧ key.y = none ∨ PublicKey.ofWebKey key = .ok k.publicKey := by
  unfold checkCoordinates
  simp only [Option.isNone_iff_eq_none]
  by_cases hnone : key.x = none ∧ key.y = none
  · rw [if_pos hnone]
    exact iff_of_true rfl (Or.inl hnone)
  · rw [if_neg hnone, or_iff_right hnone, bind_eq_ok_iff]
    constructor
    · rintro ⟨p, hp, h⟩
      by_cases heq : p = k.publicKey
      · rw [hp, heq]
      · rw [if_neg heq] at h
        cases h
    · intro h
      exact ⟨k.publicKey, h, if_pos rfl⟩

/-- a web key that is a public key has both coordinates -/
theorem coordinates_of_ofWebKey {key : WebKey} {p : PublicKey}
    (h : PublicKey.ofWebKey key = .ok p) : key.x ≠ none ∧ key.y ≠ none := by
  obtain ⟨-, a, b, hspelled⟩ := (PublicKey.ofWebKey_eq_ok_iff key p).mp h
  have hx := hspelled.x
  have hy := hspelled.y
  constructor
  · intro hnone
    rw [hnone] at hx
    cases hx
  · intro hnone
    rw [hnone] at hy
    cases hy

/-! ## web keys -/

/-- a web key holds a private key: `d` are the octets of its scalar -/
structure Carries (key : WebKey) (d : Bytes) (k : PrivateKey) : Prop where
  kty : key.kty = "EC"
  crv : key.crv = some "P-521"
  octets : parameterOctets key.d = some d
  fits : d.length ≤ 66
  pos : 1 ≤ d.toNat
  le : d.toNat ≤ groupOrder - 1
  scalar : k.multiplier.scalar.val = d.toNat
  coordinates : key.x = none ∧ key.y = none ∨
    key.x ≠ none ∧ key.y ≠ none ∧ PublicKey.ofWebKey key = .ok k.publicKey

theorem isP521_eq_true_iff (key : WebKey) :
    key.isP521 = true ↔ key.kty = "EC" ∧ key.crv = some "P-521" := by
  rw [WebKey.isP521, Bool.and_eq_true, decide_eq_true_eq, decide_eq_true_eq]

/-- **A web key is a private key exactly if it carries one.** -/
theorem ofWebKey_eq_ok_iff (key : WebKey) (k : PrivateKey) :
    ofWebKey key = .ok k ↔ ∃ d, Carries key d k := by
  rw [ofWebKey, bind_eq_ok_iff]
  constructor
  · rintro ⟨_, hp521, h⟩
    obtain ⟨padded, hd, h⟩ := (bind_eq_ok_iff _ _ _).mp h
    obtain ⟨k', hscalar, h⟩ := (bind_eq_ok_iff _ _ _).mp h
    obtain ⟨_, hcoordinates, h⟩ := (bind_eq_ok_iff _ _ _).mp h
    obtain rfl : k' = k := Except.ok.inj h
    obtain ⟨d, hoctets, hfits, rfl⟩ := (requiredElement_eq_ok_iff _ _ _).mp hd
    rw [orKeyFault_eq_ok_iff, ofNat?_eq_some_iff, Bytes.toNat_leftpad] at hscalar
    have hkind := (isP521_eq_true_iff key).mp ((ensureP521WebKey_eq_ok_iff key).mp hp521)
    have hpos := k'.multiplier.pos
    have hlt := k'.multiplier.scalar.isLt
    refine ⟨d, hkind.1, hkind.2, hoctets, hfits, by omega, by omega, hscalar, ?_⟩
    rcases (checkCoordinates_eq_ok_iff k' key).mp hcoordinates with hnone | hpublic
    · exact Or.inl hnone
    · obtain ⟨hx, hy⟩ := coordinates_of_ofWebKey hpublic
      exact Or.inr ⟨hx, hy, hpublic⟩
  · rintro ⟨d, h⟩
    have hp521 := (ensureP521WebKey_eq_ok_iff key).mpr ((isP521_eq_true_iff key).mpr ⟨h.kty, h.crv⟩)
    have hscalar : ofNat? (Bytes.toNat (d.leftpad coordinateLength 0)) = some k := by
      rw [Bytes.toNat_leftpad]
      exact (ofNat?_eq_some_iff _ k).mpr h.scalar
    have hcoordinates : checkCoordinates k key = .ok () :=
      (checkCoordinates_eq_ok_iff k key).mpr (h.coordinates.imp_right fun hboth => hboth.2.2)
    refine ⟨(), hp521, ?_⟩
    rw [(requiredElement_eq_ok_iff _ _ _).mpr ⟨d, h.octets, h.fits, rfl⟩, ok_bind, hscalar]
    show (checkCoordinates k key >>= fun _ => Except.ok k) = _
    rw [hcoordinates, ok_bind]

theorem failsOnKey_checkCoordinates (k : PrivateKey) (key : WebKey) :
    FailsOnKey (checkCoordinates k key) := by
  refine failsWith_ite _ (failsWith_ok ()) ?_
  refine (PublicKey.failsOnKey_ofWebKey key).bind fun p => ?_
  exact failsWith_ite _ (failsWith_ok ()) (failsOnKey_error _)

theorem failsOnKey_ofWebKey (key : WebKey) : FailsOnKey (ofWebKey key) := by
  refine (failsWith_ite _ (failsWith_ok ()) (failsOnKey_error _)).bind fun _ => ?_
  refine (failsOnKey_requiredElement _ _).bind fun _ => ?_
  refine (failsOnKey_orKeyFault _ _).bind fun k => ?_
  exact (failsOnKey_checkCoordinates k key).bind fun _ => failsWith_ok k

/-- what carries no key is refused with an error about the key -/
theorem exists_fault_of_not_carries {key : WebKey} (h : ¬ ∃ d k, Carries key d k) :
    ∃ fault, ofWebKey key = .error (.invalidKey fault) := by
  refine exists_keyFault (failsOnKey_ofWebKey key) fun k hk => ?_
  obtain ⟨d, hcarries⟩ := (ofWebKey_eq_ok_iff key k).mp hk
  exact h ⟨d, k, hcarries⟩

/-- octets with the same number lead to the same outcome, whatever it is -/
theorem ofWebKey_congr {key : WebKey} {d d' : Bytes} {parameter : Option String}
    (h : parameterOctets key.d = some d) (h' : parameterOctets parameter = some d')
    (hfits : d.length ≤ 66) (hfits' : d'.length ≤ 66) (hnumber : d.toNat = d'.toNat) :
    ofWebKey { key with d := parameter } = ofWebKey key := by
  have hd := (requiredElement_eq_ok_iff "d" key.d _).mpr ⟨d, h, hfits, rfl⟩
  have hd' := (requiredElement_eq_ok_iff "d" parameter _).mpr ⟨d', h', hfits', rfl⟩
  unfold ofWebKey
  rw [hd, hd', ok_bind, ok_bind, Bytes.toNat_leftpad, Bytes.toNat_leftpad, hnumber]
  rfl

/-- **A private key is imported together with its own coordinates or without any.**  A web key is
read as a key exactly if it carries it, and a web key that carries none is an error about the key.
So no key is read next to coordinates of another point or next to one coordinate alone.  The octets
of `d` matter as a number only: with others of the same number the outcome is the same, and the keys
of two web keys are equal exactly if the numbers are. -/
theorem ofWebKey_iff_carries (key : WebKey) :
    (∀ k, ofWebKey key = .ok k ↔ ∃ d, Carries key d k) ∧
      ((¬ ∃ d k, Carries key d k) → ∃ fault, ofWebKey key = .error (.invalidKey fault)) ∧
      (∀ k, ofWebKey key = .ok k → (key.x = none ↔ key.y = none) ∧
        ∀ p, PublicKey.ofWebKey key = .ok p → p = k.publicKey) ∧
      (∀ parameter d d', parameterOctets key.d = some d → parameterOctets parameter = some d' →
        d.length ≤ 66 → d'.length ≤ 66 → d.toNat = d'.toNat →
          ofWebKey { key with d := parameter } = ofWebKey key) ∧
      ∀ key' d d' k k', Carries key d k → Carries key' d' k' → (k = k' ↔ d.toNat = d'.toNat) := by
  refine ⟨ofWebKey_eq_ok_iff key, exists_fault_of_not_carries, ?_, ?_, ?_⟩
  · intro k hk
    obtain ⟨d, hcarries⟩ := (ofWebKey_eq_ok_iff key k).mp hk
    rcases hcarries.coordinates with ⟨hx, hy⟩ | ⟨hx, hy, hpublic⟩
    · refine ⟨iff_of_true hx hy, fun p hp => ?_⟩
      exact absurd hx (coordinates_of_ofWebKey hp).1
    · refine ⟨iff_of_false hx hy, fun p hp => ?_⟩
      exact Except.ok.inj (hp.symm.trans hpublic)
  · intro parameter d d' h h' hfits hfits' hnumber
    exact ofWebKey_congr h h' hfits hfits' hnumber
  · intro key' d d' k k' h h'
    rw [eq_iff_scalar_eq, h.scalar, h'.scalar]

/-! The scalar two: with the coordinates of its public key, with zeros in front of the scalar, with
one coordinate alone, and with the coordinates of two other keys, the generator and the point that
has the same first coordinate. -/

def two : PrivateKey := ⟨⟨⟨2, by decide⟩, by decide⟩⟩

/-- twice the generator -/
def doubled : Point where
  x := Fin.ofNat fieldPrime
    0x433c219024277e7e682fcb288148c282747403279b1ccc06352c6e5505d769be97b3b204da6ef55507aa104a3a35c5af41cf2fa364d60fd967f43e3933ba6d783d
  y := Fin.ofNat fieldPrime
    0xf4bb8cc7f86db26700a7f3eceeeed3f0b5c6b5107c4da97740ab21a29906c42dbbb3e377de9f251f6b93937fa99a3248f4eafcbe95edc0f4f71be356d661f41b02
  onCurve := by decide +kernel

/-- a web key with the scalar two -/
def twoKey (point : Point) : WebKey :=
  { PublicKey.toWebKey ⟨point⟩ "k" with d := some "Ag" }

theorem publicKey_two : two.publicKey = ⟨doubled⟩ := by decide +kernel

theorem ofWebKey_twoKey :
    ofWebKey (twoKey doubled) = .ok two ∧
      ofWebKey { twoKey doubled with d := some "AAAC" } = .ok two ∧
      (∃ fault, ofWebKey { twoKey doubled with y := none } = .error (.invalidKey fault)) ∧
      (∃ fault, ofWebKey (twoKey generator) = .error (.invalidKey fault)) ∧
      ∃ fault, ofWebKey (twoKey doubled.neg) = .error (.invalidKey fault) := by
  have htwo : parameterOctets (some "Ag") = some [2] := by decide
  have hpadded : parameterOctets (some "AAAC") = some [0, 0, 2] := by decide
  have hpublic : ∀ point, PublicKey.ofWebKey (twoKey point) = .ok ⟨point⟩ := fun point =>
    PublicKey.ofWebKey_toWebKey ⟨point⟩ "k"
  have hcarries : Carries (twoKey doubled) [2] two :=
    { kty := rfl
      crv := rfl
      octets := htwo
      fits := by decide
      pos := by decide
      le := by decide
      scalar := rfl
      coordinates := Or.inr ⟨Option.some_ne_none _, Option.some_ne_none _, by
        rw [publicKey_two]
        exact hpublic doubled⟩ }
  have hother : ∀ point, point ≠ doubled →
      ∃ fault, ofWebKey (twoKey point) = .error (.invalidKey fault) := by
    intro point hne
    refine (ofWebKey_iff_carries (twoKey point)).2.1 ?_
    rintro ⟨d, k, h⟩
    obtain rfl : [2] = d := Option.some.inj (htwo.symm.trans h.octets)
    obtain rfl : k = two := (eq_iff_scalar_eq k two).mpr h.scalar
    rcases h.coordinates with ⟨hx, -⟩ | ⟨-, -, hy⟩
    · cases hx
    · have hsame := Except.ok.inj ((hpublic point).symm.trans hy)
      rw [publicKey_two] at hsame
      exact hne (congrArg PublicKey.point hsame)
  obtain ⟨hiff, -, -, hnumber, -⟩ := ofWebKey_iff_carries (twoKey doubled)
  have hok := (hiff two).mpr ⟨[2], hcarries⟩
  refine ⟨hok, ?_, ?_, hother generator (by decide +kernel), hother doubled.neg (by decide +kernel)⟩
  · rw [hnumber (some "AAAC") [2] [0, 0, 2] htwo hpadded (by decide) (by decide) (by decide)]
    exact hok
  · refine (ofWebKey_iff_carries { twoKey doubled with y := none }).2.1 ?_
    rintro ⟨d, k, h⟩
    rcases h.coordinates with ⟨hx, -⟩ | ⟨-, hy, -⟩
    · cases hx
    · exact hy rfl

end PrivateKey

end RequestSigning
