import RequestSigning.Bytes

/-!
# Base64

Three octets are four digits of six bits.  A last group of one or two octets is two or three
digits, whose unused bits are zero.  Two alphabets differ in the digits 62 and 63:

* `encode`, `decode?`  the unpadded form with the `url` alphabet.  Reading also takes the
                       characters of the `standard` alphabet, mixed in any way, and the one or
                       two `=` that fill up the last group;
* `encodePadded`, `decodePadded?`  the form of PEM files: `standard` alphabet, padding always
                       there.

`decodeDigits_encodeDigits` says that no octet is lost in between.
-/

namespace RequestSigning.Base64

/-! ## alphabets -/

/-- the two characters by which alphabets differ -/
structure Alphabet where
  char62 : Char
  char63 : Char

/-- the alphabet that is safe in URLs -/
def url : Alphabet := ⟨'-', '_'⟩

/-- the alphabet of mail and of PEM files -/
def standard : Alphabet := ⟨'+', '/'⟩

def Alphabet.char (a : Alphabet) (digit : Nat) : Char :=
  if digit < 26 then Char.ofNat (digit + 65)
  else if digit < 52 then Char.ofNat (digit + 71)
  else if digit < 62 then Char.ofNat (digit - 4)
  else if digit = 62 then a.char62
  else a.char63

def Alphabet.digit? (a : Alphabet) (b : UInt8) : Option Nat :=
  if byte 'A' ≤ b ∧ b ≤ byte 'Z' then some (b.toNat - 65)
  else if byte 'a' ≤ b ∧ b ≤ byte 'z' then some (b.toNat - 71)
  else if byte '0' ≤ b ∧ b ≤ byte '9' then some (b.toNat + 4)
  else if b = byte a.char62 then some 62
  else if b = byte a.char63 then some 63
  else none

/-! ## groups -/

def encodeDigits : Bytes → List Nat
  | a :: b :: c :: rest =>
    a.toNat / 4 :: (a.toNat % 4 * 16 + b.toNat / 16) :: (b.toNat % 16 * 4 + c.toNat / 64)
      :: c.toNat % 64 :: encodeDigits rest
  | [a, b] => [a.toNat / 4, a.toNat % 4 * 16 + b.toNat / 16, b.toNat % 16 * 4]
  | [a] => [a.toNat / 4, a.toNat % 4 * 16]
  | [] => []

/-- the octets of a list of digits below 64; a last group of one digit and unused bits that are
not zero are refused -/
def decodeDigits : List Nat → Option Bytes
  | i :: j :: k :: l :: rest =>
    (decodeDigits rest).map fun bytes =>
      UInt8.ofNat (i * 4 + j / 16) :: UInt8.ofNat (j % 16 * 16 + k / 4)
        :: UInt8.ofNat (k % 4 * 64 + l) :: bytes
  | [i, j, k] =>
    if k % 4 = 0 then some [UInt8.ofNat (i * 4 + j / 16), UInt8.ofNat (j % 16 * 16 + k / 4)]
    else none
  | [i, j] => if j % 16 = 0 then some [UInt8.ofNat (i * 4 + j / 16)] else none
  | [_] => none
  | [] => some []

private theorem ofNat_eq (a : UInt8) (n : Nat) (h : n = a.toNat) : UInt8.ofNat n = a := by
  subst h; simp

theorem decodeDigits_encodeDigits (b : Bytes) : decodeDigits (encodeDigits b) = some b := by
  fun_induction encodeDigits b with
  | case1 a b c rest ih =>
    have ha := a.toNat_lt; have hb := b.toNat_lt; have hc := c.toNat_lt
    simp only [decodeDigits, ih, Option.map_some]
    rw [ofNat_eq a _ (by omega), ofNat_eq b _ (by omega), ofNat_eq c _ (by omega)]
  | case2 a b =>
    have ha := a.toNat_lt; have hb := b.toNat_lt
    simp only [decodeDigits]
    rw [if_pos (by omega), ofNat_eq a _ (by omega), ofNat_eq b _ (by omega)]
  | case3 a =>
    have ha := a.toNat_lt
    simp only [decodeDigits]
    rw [if_pos (by omega), ofNat_eq a _ (by omega)]
  | case4 => rfl

/-- the octets of text in one alphabet, without padding -/
def Alphabet.decode? (a : Alphabet) (s : Bytes) : Option Bytes :=
  (s.mapM a.digit?).bind decodeDigits

/-! ## padding -/

def pad : UInt8 := byte '='

/-- an octet string without the padding at its end, and the length of that padding -/
def splitPadding (s : Bytes) : Bytes × Nat :=
  let body := (s.reverse.dropWhile (· = pad)).reverse
  (body, s.length - body.length)

/-- a text without its padding; there is none, or one or two signs that make the length a multiple
of four -/
def dropPadding (s : Bytes) : Option Bytes :=
  let (body, padding) := splitPadding s
  if padding = 0 ∨ (padding ≤ 2 ∧ s.length % 4 = 0) then some body else none

/-! ## the unpadded form -/

/-- the octet of the `url` alphabet for one of the `standard` alphabet -/
def toUrl (b : UInt8) : UInt8 :=
  if b = byte '+' then byte '-' else if b = byte '/' then byte '_' else b

/-- the unpadded text of an octet string -/
def encode (b : Bytes) : String := String.ofList ((encodeDigits b).map url.char)

/-- the octet string of a text, with the liberties that other encoders need -/
def decode? (s : Bytes) : Option Bytes :=
  (dropPadding s).bind fun body => url.decode? (body.map toUrl)

/-! ## the padded form -/

def encodePadded (b : Bytes) : Bytes :=
  let digits := (encodeDigits b).map fun d => byte (standard.char d)
  digits ++ List.replicate ((4 - digits.length % 4) % 4) pad

def decodePadded? (s : Bytes) : Option Bytes :=
  if s.length % 4 = 0 then (dropPadding s).bind standard.decode? else none

end RequestSigning.Base64
