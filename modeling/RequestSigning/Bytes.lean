/-!
# Octet strings

Messages, header values, keys and signatures are octet strings.  This module holds the type
and the two ways in which octets stand for something else:

* `byte`, `Bytes.ofText`        text as its UTF-8 octets;
* `Bytes.toNat`, `Bytes.ofNat`  numbers, the most significant octet first.

`Bytes.toNat_ofNat` says that the second pair is inverse up to the number of octets.
-/

namespace RequestSigning

abbrev Bytes := List UInt8

def byte (c : Char) : UInt8 := UInt8.ofNat c.toNat

namespace Bytes

/-! ## text -/

/-- the UTF-8 octets of a list of characters -/
def ofChars (cs : List Char) : Bytes := cs.flatMap String.utf8EncodeChar

def ofText (s : String) : Bytes := ofChars s.toList

theorem ofChars_nil : ofChars [] = [] := rfl
theorem ofChars_cons (c : Char) (cs : List Char) :
    ofChars (c :: cs) = String.utf8EncodeChar c ++ ofChars cs := rfl
theorem ofChars_append (a b : List Char) : ofChars (a ++ b) = ofChars a ++ ofChars b := by
  simp [ofChars, List.flatMap_append]

/-! ## numbers -/

/-- the number that the octets spell, the first octet being the most significant -/
def toNat (b : Bytes) : Nat := b.foldl (fun n x => 256 * n + x.toNat) 0

/-- what an octet counts with `len` octets behind it -/
def weight (len : Nat) : Nat := Nat.pow 256 len

/-- the last `len` octets of a number, the most significant first -/
def ofNat : Nat → Nat → Bytes
  | 0, _ => []
  | len + 1, n => UInt8.ofNat (n / weight len) :: ofNat len n

theorem weight_zero : weight 0 = 1 := rfl
theorem weight_succ (len : Nat) : weight (len + 1) = weight len * 256 := rfl

theorem length_ofNat (len n : Nat) : (ofNat len n).length = len := by
  induction len with
  | zero => rfl
  | succ len ih => simp [ofNat, ih]

private theorem foldl_digits (b : Bytes) (n : Nat) :
    b.foldl (fun n x => 256 * n + x.toNat) n = weight b.length * n + toNat b := by
  unfold toNat
  induction b generalizing n with
  | nil => simp [weight_zero]
  | cons x b ih =>
    rw [List.foldl_cons, List.foldl_cons, ih, ih (256 * 0 + x.toNat), List.length_cons,
      weight_succ]
    simp only [Nat.mul_add, Nat.mul_zero, Nat.zero_add, Nat.mul_assoc, Nat.add_assoc]

theorem toNat_nil : toNat [] = 0 := rfl
theorem toNat_cons (x : UInt8) (b : Bytes) :
    toNat (x :: b) = weight b.length * x.toNat + toNat b := by
  have h := foldl_digits b x.toNat
  simpa [toNat] using h

theorem toNat_ofNat (len n : Nat) : toNat (ofNat len n) = n % weight len := by
  induction len with
  | zero => simp [ofNat, toNat_nil, weight_zero, Nat.mod_one]
  | succ len ih =>
    have h : (UInt8.ofNat (n / weight len)).toNat = n / weight len % 256 := by simp
    rw [ofNat, toNat_cons, length_ofNat, ih, h, weight_succ, Nat.mod_mul]
    omega

end Bytes

end RequestSigning
