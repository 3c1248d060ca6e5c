import RequestSigning.Bytes
import RequestSigning.Json.Value

/-!
# JSON numbers, reading side

`scanNumber` takes a number off the front of a text and keeps its digits.  `Numeral.value?` gives
the value: an integer if the numeral has neither fraction nor exponent and fits 64 bits, and a
double otherwise.  A double is computed from a significand of 64 bits and a power of ten in at
most a few roundings, so that it may differ from the nearest double in its last bit; a numeral
whose double would be infinite has no value.
-/

namespace RequestSigning.Json

/-- the parts of a number as it is written -/
structure Numeral where
  negative : Bool
  whole : List Nat
  fraction : Option (List Nat)
  /-- whether the exponent is negative, and its digits -/
  exponent : Option (Bool × List Nat)

def isDigit (b : UInt8) : Bool := byte '0' ≤ b && b ≤ byte '9'

def scanDigits (s : Bytes) : List Nat × Bytes :=
  ((s.takeWhile isDigit).map fun b => b.toNat - 48, s.dropWhile isDigit)

/-- the digits at the front of a text, at least one -/
def scanSomeDigits (s : Bytes) : Option (List Nat × Bytes) :=
  match scanDigits s with
  | ([], _) => none
  | result => some result

/-- the digits before the point: no further digit follows a leading zero -/
def scanWhole (s : Bytes) : Option (List Nat × Bytes) :=
  match scanDigits s with
  | ([], _) => none
  | (0 :: _ :: _, _) => none
  | result => some result

/-- the point and the digits behind it, if there is a point -/
def scanFraction : Bytes → Option (Option (List Nat) × Bytes)
  | b :: rest =>
    if b = byte '.' then (scanSomeDigits rest).map fun (digits, rest) => (some digits, rest)
    else some (none, b :: rest)
  | [] => some (none, [])

/-- the sign of an exponent, plus if there is none -/
def scanSign : Bytes → Bool × Bytes
  | b :: rest =>
    if b = byte '-' then (true, rest)
    else if b = byte '+' then (false, rest)
    else (false, b :: rest)
  | [] => (false, [])

/-- the exponent, if there is one -/
def scanExponent : Bytes → Option (Option (Bool × List Nat) × Bytes)
  | b :: rest =>
    if b = byte 'e' ∨ b = byte 'E' then
      let (negative, rest) := scanSign rest
      (scanSomeDigits rest).map fun (digits, rest) => (some (negative, digits), rest)
    else some (none, b :: rest)
  | [] => some (none, [])

def scanNumber (s : Bytes) : Option (Numeral × Bytes) := do
  let (negative, s) := match s with
    | b :: rest => if b = byte '-' then (true, rest) else (false, s)
    | [] => (false, s)
  let (whole, s) ← scanWhole s
  let (fraction, s) ← scanFraction s
  let (exponent, s) ← scanExponent s
  some (⟨negative, whole, fraction, exponent⟩, s)

/-! ## values -/

/-- the number that a list of digits spells -/
def spelt (digits : List Nat) : Nat := digits.foldl (fun n d => n * 10 + d) 0

/-- the digits as far as the number they spell stays below 2⁶⁴, and those that are left -/
def significand (n : Nat) : List Nat → Nat × List Nat
  | [] => (n, [])
  | d :: rest => if n * 10 + d < UInt64.size then significand (n * 10 + d) rest else (n, d :: rest)

def powerOfTen (e : Nat) : Float := Float.ofScientific 1 false e

/-- `x · 10 ^ e` for a finite `x`, unless that is infinite; each step takes off 308 decimal
places -/
def scaleDown (fuel : Nat) (x : Float) (e : Int) : Option Float :=
  if -308 ≤ e ∧ e ≤ 308 then
    if 0 ≤ e then
      let y := x * powerOfTen e.toNat
      if y.isInf then none else some y
    else some (x / powerOfTen (-e).toNat)
  else if x == 0 then some x
  else if 0 ≤ e then none
  else
    match fuel with
    | 0 => some 0
    | fuel + 1 => scaleDown fuel (x / powerOfTen 308) (e + 308)

/-- the greatest exponent that is kept apart from the greater ones -/
def exponentBound : Int := 0x7FFFFFFF

/-- an exponent clipped to 32 bits -/
def clipExponent (e : Int) : Int := max (-exponentBound - 1) (min exponentBound e)

/-- the double of a significand, a power of ten from the places of the digits, and the written
exponent.  An exponent beyond 32 bits gives zero or no value. -/
def doubleOf? (n : Nat) (places : Int) (exponent : Option (Bool × List Nat)) : Option Float :=
  let x := Float.ofNat n
  match exponent with
  | none => scaleDown 8 x places
  | some (negative, digits) =>
    let e : Int := Int.ofNat (spelt digits)
    if exponentBound < e then if n ≠ 0 ∧ negative = false then none else some 0
    else scaleDown 8 x (clipExponent (if negative then places - e else places + e))

/-- the double of a numeral without its sign, unless that is infinite -/
def Numeral.magnitude? (t : Numeral) : Option Float :=
  let (n, left) := significand 0 t.whole
  let (n, rest) := significand n (t.fraction.getD [])
  let behind := (t.fraction.getD []).length - rest.length
  doubleOf? n ((left.length : Int) - behind) t.exponent

/-- the integer of a numeral without fraction and exponent, if 64 bits can hold it.  Minus zero is
no integer. -/
def Numeral.int? (t : Numeral) : Option Int :=
  let n := spelt t.whole
  if t.fraction.isSome || t.exponent.isSome then none
  else if t.negative then
    if 0 < n ∧ n ≤ 0x8000000000000000 then some (-Int.ofNat n) else none
  else if n < UInt64.size then some (Int.ofNat n)
  else none

/-- the double of a numeral, unless that is infinite -/
def Numeral.double? (t : Numeral) : Option Float :=
  t.magnitude?.map fun x => if t.negative then -x else x

def Numeral.value? (t : Numeral) : Option Value :=
  match t.int? with
  | some n => some (.int n)
  | none => t.double?.map .double

end RequestSigning.Json
