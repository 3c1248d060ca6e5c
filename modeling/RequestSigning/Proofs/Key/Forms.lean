import RequestSigning.Proofs.Key.Public

/-!
# The forms of a public key

A public key comes as the octets of a point, as a PEM file or as a web key.  All of them lead to
the coordinates as numbers:

* `ofOctets_eq_ok_iff`  octets with both coordinates are a key exactly if they spell its
                        coordinates;
* `ofWebKey_eq_ok_iff`  a web key is a key exactly if its parameters do, however many zeros they
                        start with, in at most 66 octets;
* `ofPem_of_block`      a file that holds the octets of a point is its key.

`forms_agree` puts them together.
-/

namespace RequestSigning

/-! ## numbers -/

namespace Bytes

theorem weight_pos (len : Nat) : 0 < weight len := Nat.pow_pos (by decide)

theorem toNat_lt (b : Bytes) : b.toNat < weight b.length := by
  induction b with
  | nil => exact weight_pos 0
  | cons x b ih =>
    have hx := x.toNat_lt
    have hle : weight b.length * (x.toNat + 1) ≤ weight b.length * 256 :=
      Nat.mul_le_mul_left _ hx
    rw [toNat_cons, List.length_cons, weight_succ]
    rw [Nat.mul_succ] at hle
    omega

/-- octet strings of one length are equal if their numbers are -/
theorem eq_of_toNat_eq {a b : Bytes} (hlength : a.length = b.length) (h : a.toNat = b.toNat) :
    a = b := by
  induction a generalizing b with
  | nil => exact (List.length_eq_zero_iff.mp hlength.symm).symm
  | cons x a ih =>
    cases b with
    | nil => cases hlength
    | cons y b =>
      have hrest : a.length = b.length := Nat.succ.inj hlength
      have ha := toNat_lt a
      have hb := toNat_lt b
      rw [toNat_cons, toNat_cons, hrest] at h
      rw [hrest] at ha
      -- quotient and remainder by the weight of the first octet
      have hfirst : x.toNat = y.toNat := by
        have hdiv := congrArg (· / weight b.length) h
        simpa only [Nat.mul_add_div (weight_pos _), Nat.div_eq_of_lt ha, Nat.div_eq_of_lt hb,
          Nat.add_zero] using hdiv
      rw [hfirst] at h
      rw [UInt8.toNat_inj.mp hfirst, ih hrest (Nat.add_left_cancel h)]

/-- a number that fits is spelled by its last octets only -/
theorem toNat_eq_iff {b : Bytes} {len n : Nat} (hlength : b.length = len) (hn : n < weight len) :
    b.toNat = n ↔ b = ofNat len n := by
  have hval : (ofNat len n).toNat = n := by rw [toNat_ofNat, Nat.mod_eq_of_lt hn]
  constructor
  · intro h
    exact eq_of_toNat_eq (hlength.trans (length_ofNat len n).symm) (h.trans hval.symm)
  · intro h
    rw [h, hval]

theorem toNat_replicate_append (n : Nat) (b : Bytes) :
    toNat (List.replicate n 0 ++ b) = toNat b := by
  induction n with
  | zero => rfl
  | succ n ih =>
    rw [List.replicate_succ, List.cons_append, toNat_cons, ih]
    exact Nat.zero_add _

theorem toNat_leftpad (n : Nat) (b : Bytes) : toNat (b.leftpad n 0) = toNat b :=
  toNat_replicate_append _ b

end Bytes

open Curve

/-! ## points -/

theorem coordinate?_eq_some_iff (b : Bytes) (x : Coordinate) :
    coordinate? b = some x ↔ b.length = coordinateLength ∧ b.toNat = x.val := by
  unfold coordinate?
  constructor
  · intro h
    split at h
    · rename_i hvalid
      obtain rfl := Option.some.inj h
      exact ⟨hvalid.1, rfl⟩
    · cases h
  · rintro ⟨hlength, hval⟩
    have hvalid : b.length = coordinateLength ∧ b.toNat < fieldPrime := ⟨hlength, hval ▸ x.isLt⟩
    rw [dif_pos hvalid]
    exact congrArg some (Fin.ext hval)

/-- octets with both coordinates are a point exactly if they spell its coordinates -/
theorem Curve.Point.decode?_eq_some_iff {a b : Bytes} (ha : a.length = coordinateLength)
    (hb : b.length = coordinateLength) (p : Point) :
    Point.decode? (0x04 :: (a ++ b)) = some p ↔ a.toNat = p.x.val ∧ b.toNat = p.y.val := by
  constructor
  · intro h
    rw [decode?, if_pos rfl, List.take_left' ha, List.drop_left' ha] at h
    obtain ⟨x, hx, h⟩ := Option.bind_eq_some_iff.mp h
    obtain ⟨y, hy, h⟩ := Option.bind_eq_some_iff.mp h
    obtain ⟨rfl, rfl⟩ := (ofCoordinates?_eq_some_iff x y p).mp h
    exact ⟨((coordinate?_eq_some_iff a p.x).mp hx).2, ((coordinate?_eq_some_iff b p.y).mp hy).2⟩
  · rintro ⟨hx, hy⟩
    have hax : a = coordinateOctets p.x :=
      (Bytes.toNat_eq_iff ha (Nat.lt_trans p.x.isLt fieldPrime_lt_weight)).mp hx
    have hby : b = coordinateOctets p.y :=
      (Bytes.toNat_eq_iff hb (Nat.lt_trans p.y.isLt fieldPrime_lt_weight)).mp hy
    rw [hax, hby]
    exact p.decode?_encode

/-! ## parameters of web keys -/

/-- the octets of a parameter -/
def parameterOctets (parameter : Option String) : Option Bytes :=
  parameter.bind fun text => Base64.decode? (Bytes.ofText text)

theorem requiredElement_eq_ok_iff (name : String) (parameter : Option String) (octets : Bytes) :
    requiredElement name parameter = .ok octets ↔
      ∃ b, parameterOctets parameter = some b ∧ b.length ≤ coordinateLength ∧
        octets = b.leftpad coordinateLength 0 := by
  unfold requiredElement parameterOctets
  cases parameter with
  | none =>
    constructor
    · intro h
      cases h
    · rintro ⟨b, h, -⟩
      cases h
  | some text =>
    rw [orKeyFault, ok_bind, Option.bind_some, fieldElement]
    cases Base64.decode? (Bytes.ofText text) with
    | none =>
      constructor
      · intro h
        cases h
      · rintro ⟨b, h, -⟩
        cases h
    | some b =>
      dsimp only
      by_cases hlength : coordinateLength < b.length
      · rw [if_pos hlength]
        constructor
        · intro h
          cases h
        · rintro ⟨b', hb', hle, -⟩
          obtain rfl := Option.some.inj hb'
          exact absurd hlength (Nat.not_lt.mpr hle)
      · rw [if_neg hlength]
        constructor
        · intro h
          exact ⟨b, rfl, Nat.not_lt.mp hlength, (Except.ok.inj h).symm⟩
        · rintro ⟨b', hb', -, rfl⟩
          obtain rfl := Option.some.inj hb'
          rfl

theorem ensureP521WebKey_eq_ok_iff (key : WebKey) :
    ensureP521WebKey key = .ok () ↔ key.isP521 = true := by
  unfold ensureP521WebKey
  cases key.isP521 with
  | true => exact iff_of_true rfl rfl
  | false => exact iff_of_false (fun h => by cases h) Bool.false_ne_true

namespace PublicKey

/-! ## octets and files -/

/-- **Octets with both coordinates are a key exactly if they spell its coordinates.** -/
theorem ofOctets_eq_ok_iff {a b : Bytes} (ha : a.length = coordinateLength)
    (hb : b.length = coordinateLength) (k : PublicKey) :
    ofOctets (0x04 :: (a ++ b)) = .ok k ↔
      a.toNat = k.point.x.val ∧ b.toNat = k.point.y.val := by
  rw [← Point.decode?_eq_some_iff ha hb k.point, ofOctets, orKeyFault_eq_ok_iff]
  constructor
  · intro h
    obtain ⟨point, hpoint, rfl⟩ := Option.map_eq_some_iff.mp h
    exact hpoint
  · intro h
    rw [h]
    rfl

theorem ofOctets_encode (k : PublicKey) : ofOctets k.point.encode = .ok k := by
  rw [ofOctets, Point.decode?_encode]
  rfl

theorem length_encode_lt (k : PublicKey) : k.point.encode.length < 0x1000000 := by
  rw [Point.encode, List.length_cons, List.length_append, length_coordinateOctets,
    length_coordinateOctets]
  decide

/-- Keys are compared by the octets of their points; equality of keys is the same comparison. -/
theorem eq_iff_encode_eq (k k' : PublicKey) : k = k' ↔ k.point.encode = k'.point.encode := by
  constructor
  · intro h
    rw [h]
  · intro h
    have hk := ofOctets_encode k
    rw [h, ofOctets_encode] at hk
    exact (Except.ok.inj hk).symm

/-- **A file that holds the octets of a point is its key**, whatever its label. -/
theorem ofPem_of_block (k : PublicKey) {file : Bytes} {block : Pem.Block}
    (hfile : readKeyFile file = .ok block)
    (hblock : block.content = Asn1.publicKeyDer k.point.encode) : ofPem file = .ok k := by
  rw [ofPem, hfile, ok_bind, hblock, Asn1.PublicKeyInfo.ofDer?_publicKeyDer k.length_encode_lt,
    orKeyFault, ok_bind, ensureP521_p521Parameters, ok_bind]
  exact ofOctets_encode k

/-- **A public key is read back from its file.** -/
theorem ofPem_toPem (k : PublicKey) : ofPem k.toPem = .ok k := by
  have hlabel : Pem.IsLabel "PUBLIC KEY" := by decide
  have hcontent := Asn1.exactly_publicKeyDer k.length_encode_lt
  exact ofPem_of_block k (readKeyFile_encode hlabel hcontent) rfl

/-! ## web keys -/

/-- the parameters of a web key spell the coordinates of a point -/
structure Spelled (key : WebKey) (point : Point) (a b : Bytes) : Prop where
  x : parameterOctets key.x = some a
  y : parameterOctets key.y = some b
  fits_x : a.length ≤ coordinateLength
  fits_y : b.length ≤ coordinateLength
  toNat_x : a.toNat = point.x.val
  toNat_y : b.toNat = point.y.val

theorem length_leftpad_eq {b : Bytes} (h : b.length ≤ coordinateLength) :
    (b.leftpad coordinateLength 0).length = coordinateLength := by
  rw [List.length_leftpad, Nat.max_eq_left h]

/-- **A web key is a key exactly if its parameters spell the coordinates.** -/
theorem ofWebKey_eq_ok_iff (key : WebKey) (k : PublicKey) :
    ofWebKey key = .ok k ↔ key.isP521 = true ∧ ∃ a b, Spelled key k.point a b := by
  have hp521 := ensureP521WebKey_eq_ok_iff key
  rw [ofWebKey, bind_eq_ok_iff]
  constructor
  · rintro ⟨_, hkey, h⟩
    obtain ⟨_, hx, h⟩ := (bind_eq_ok_iff _ _ _).mp h
    obtain ⟨_, hy, h⟩ := (bind_eq_ok_iff _ _ _).mp h
    obtain ⟨a, ha, hfitsx, rfl⟩ := (requiredElement_eq_ok_iff _ _ _).mp hx
    obtain ⟨b, hb, hfitsy, rfl⟩ := (requiredElement_eq_ok_iff _ _ _).mp hy
    obtain ⟨hvalx, hvaly⟩ :=
      (ofOctets_eq_ok_iff (length_leftpad_eq hfitsx) (length_leftpad_eq hfitsy) k).mp h
    rw [Bytes.toNat_leftpad] at hvalx hvaly
    exact ⟨hp521.mp hkey, a, b, ha, hb, hfitsx, hfitsy, hvalx, hvaly⟩
  · rintro ⟨hkey, a, b, h⟩
    refine ⟨(), hp521.mpr hkey, ?_⟩
    rw [(requiredElement_eq_ok_iff _ _ _).mpr ⟨a, h.x, h.fits_x, rfl⟩, ok_bind,
      (requiredElement_eq_ok_iff _ _ _).mpr ⟨b, h.y, h.fits_y, rfl⟩, ok_bind]
    apply (ofOctets_eq_ok_iff (length_leftpad_eq h.fits_x) (length_leftpad_eq h.fits_y) k).mpr
    rw [Bytes.toNat_leftpad, Bytes.toNat_leftpad]
    exact ⟨h.toNat_x, h.toNat_y⟩

/-- a web key is one key at most, and other web keys are that key if the numbers are the same -/
theorem eq_iff_of_spelled {k k' : PublicKey} {key key' : WebKey} {a b a' b' : Bytes}
    (h : Spelled key k.point a b) (h' : Spelled key' k'.point a' b') :
    k = k' ↔ a.toNat = a'.toNat ∧ b.toNat = b'.toNat := by
  rw [h.toNat_x, h.toNat_y, h'.toNat_x, h'.toNat_y]
  constructor
  · rintro rfl
    exact ⟨rfl, rfl⟩
  · rintro ⟨hx, hy⟩
    obtain ⟨⟨x, y, _⟩⟩ := k
    obtain ⟨⟨x', y', _⟩⟩ := k'
    obtain rfl : x = x' := Fin.ext hx
    obtain rfl : y = y' := Fin.ext hy
    rfl

/-- zeros in front of the octets of a coordinate, or a lack of them, do not matter -/
theorem spells_of_replicate_append {n : Nat} {b : Bytes} {x : Coordinate}
    (h : List.replicate n 0 ++ b = coordinateOctets x) :
    b.length ≤ coordinateLength ∧ b.toNat = x.val := by
  constructor
  · rw [← length_coordinateOctets x, ← h, List.length_append]
    exact Nat.le_add_left _ _
  · rw [← toNat_coordinateOctets x, ← h, Bytes.toNat_replicate_append]

theorem parameterOctets_coordinateOctets (x : Coordinate) :
    parameterOctets (some (Base64.encode (coordinateOctets x))) = some (coordinateOctets x) := by
  rw [parameterOctets, Option.bind_some, Base64.decode?_encode]

/-- a coordinate with more than 66 octets is an error about the key -/
theorem ofWebKey_of_oversized {key : WebKey} {b : Bytes}
    (h : parameterOctets key.x = some b ∨ parameterOctets key.y = some b)
    (hlength : coordinateLength < b.length) : ∃ fault, ofWebKey key = .error (.invalidKey fault) := by
  cases hkey : ofWebKey key with
  | error e =>
    obtain ⟨fault, rfl⟩ := failsOnKey_ofWebKey key e hkey
    exact ⟨fault, rfl⟩
  | ok k =>
    obtain ⟨-, a, b', hspelled⟩ := (ofWebKey_eq_ok_iff key k).mp hkey
    rcases h with h | h
    · obtain rfl := Option.some.inj (h.symm.trans hspelled.x)
      exact absurd hlength (Nat.not_lt.mpr hspelled.fits_x)
    · obtain rfl := Option.some.inj (h.symm.trans hspelled.y)
      exact absurd hlength (Nat.not_lt.mpr hspelled.fits_y)

/-- **All forms of a public key agree.**  A key is read back from its web key, whose coordinates
have 66 octets, and from any other web key on P-521 whose coordinates differ from these in the
number of zeros in front and in their spelling; from the octets of its coordinates, and from any
file with these octets, its own included.  Of two web keys that are read the keys are equal exactly
if the coordinates are equal as numbers; a coordinate with more than 66 octets is refused. -/
theorem forms_agree (k : PublicKey) (kid : String) :
    (ofWebKey (k.toWebKey kid) = .ok k ∧
      ∃ a b, parameterOctets (k.toWebKey kid).x = some a ∧
        parameterOctets (k.toWebKey kid).y = some b ∧ a.length = 66 ∧ b.length = 66 ∧
        a.toNat = k.point.x.val ∧ b.toNat = k.point.y.val ∧
        (∀ (key : WebKey) (a' b' : Bytes) (m n : Nat), key.isP521 = true →
          parameterOctets key.x = some a' → List.replicate m 0 ++ a' = a →
          parameterOctets key.y = some b' → List.replicate n 0 ++ b' = b →
          ofWebKey key = .ok k) ∧
        ofOctets (0x04 :: (a ++ b)) = .ok k ∧
        ofPem k.toPem = .ok k ∧
        ∀ file block, readKeyFile file = .ok block →
          block.content = Asn1.publicKeyDer (0x04 :: (a ++ b)) → ofPem file = .ok k) ∧
    (∀ (key key' : WebKey) (k k' : PublicKey), ofWebKey key = .ok k → ofWebKey key' = .ok k' →
      ∃ a b a' b', parameterOctets key.x = some a ∧ parameterOctets key.y = some b ∧
        parameterOctets key'.x = some a' ∧ parameterOctets key'.y = some b' ∧
        (k = k' ↔ a.toNat = a'.toNat ∧ b.toNat = b'.toNat)) ∧
    ∀ (key : WebKey) (b : Bytes),
      parameterOctets key.x = some b ∨ parameterOctets key.y = some b → 66 < b.length →
        ∃ fault, ofWebKey key = .error (.invalidKey fault) := by
  refine ⟨⟨ofWebKey_toWebKey k kid, coordinateOctets k.point.x, coordinateOctets k.point.y,
    parameterOctets_coordinateOctets _, parameterOctets_coordinateOctets _,
    length_coordinateOctets _, length_coordinateOctets _, toNat_coordinateOctets _,
    toNat_coordinateOctets _, ?_, ofOctets_encode k, ofPem_toPem k,
    fun file block hfile hblock => ofPem_of_block k hfile hblock⟩, ?_, ?_⟩
  · intro key a b m n hkey hx ha hy hb
    obtain ⟨hfitsx, hvalx⟩ := spells_of_replicate_append ha
    obtain ⟨hfitsy, hvaly⟩ := spells_of_replicate_append hb
    exact (ofWebKey_eq_ok_iff key k).mpr ⟨hkey, a, b, hx, hy, hfitsx, hfitsy, hvalx, hvaly⟩
  · intro key key' k k' hk hk'
    obtain ⟨-, a, b, h⟩ := (ofWebKey_eq_ok_iff key k).mp hk
    obtain ⟨-, a', b', h'⟩ := (ofWebKey_eq_ok_iff key' k').mp hk'
    exact ⟨a, b, a', b', h.x, h.y, h'.x, h'.y, eq_iff_of_spelled h h'⟩
  · intro key b hb hlength
    exact ofWebKey_of_oversized hb hlength

/-! The first coordinate of the generator starts with a zero.  A key without this zero, in the other
alphabet and with padding, is the same; a zero in front of the second coordinate is one too many. -/

def shortCoordinate : Bytes := (coordinateOctets generator.x).drop 1

def strippedKey : WebKey where
  kty := "EC"
  kid := none
  crv := some "P-521"
  x := some (String.ofList ((Base64.encodePadded shortCoordinate).map fun b => Char.ofNat b.toNat))
  y := some (Base64.encode (coordinateOctets generator.y))
  d := none
  algorithm := none
  use := none

def oversizedKey : WebKey :=
  { strippedKey with y := some (Base64.encode (0 :: coordinateOctets generator.y)) }

theorem ofWebKey_strippedKey :
    ofWebKey strippedKey = .ok ⟨generator⟩ ∧
      (∃ a a', parameterOctets strippedKey.x = some a ∧
        parameterOctets (toWebKey ⟨generator⟩ "k").x = some a' ∧ a.toNat = a'.toNat) ∧
      ∃ fault, ofWebKey oversizedKey = .error (.invalidKey fault) := by
  obtain ⟨⟨hexport, a, b, ha, hb, -, -, -, -, himport, -⟩, heq, hoversized⟩ :=
    forms_agree ⟨generator⟩ "k"
  obtain rfl := Option.some.inj ((parameterOctets_coordinateOctets generator.x).symm.trans ha)
  have hshort : parameterOctets strippedKey.x = some shortCoordinate := by decide +kernel
  have hzero : List.replicate 1 0 ++ shortCoordinate = coordinateOctets generator.x := by
    decide +kernel
  have hstripped : ofWebKey strippedKey = .ok ⟨generator⟩ :=
    himport strippedKey shortCoordinate b 1 0 (by decide) hshort hzero hb rfl
  refine ⟨hstripped, ?_, ?_⟩
  · obtain ⟨c, _, c', _, hc, -, hc', -, hiff⟩ := heq _ _ _ _ hstripped hexport
    exact ⟨c, c', hc, hc', (hiff.mp rfl).1⟩
  · have hlong : parameterOctets oversizedKey.y = some (0 :: coordinateOctets generator.y) := by
      rw [parameterOctets, oversizedKey, Option.bind_some, Base64.decode?_encode]
    refine hoversized oversizedKey _ (Or.inr hlong) ?_
    rw [List.length_cons, length_coordinateOctets]
    decide

end PublicKey

end RequestSigning
