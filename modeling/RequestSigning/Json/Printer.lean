import RequestSigning.Decimal.Shortest
import RequestSigning.Json.Value

/-!
# Writing JSON

`Value.render` writes a value without white space, `Value.pretty` with one line for each item and
two spaces for each level.  Members come in the order in which the object has them.

A double is written with the digits of `Decimal.Shortest`, positionally from 10⁻⁵ up to but not
including 10¹⁶ and with an exponent otherwise.
-/

namespace RequestSigning.Json

/-! ## doubles -/

/-- the layout of a decimal: `digits` are its digits, and `0.digits · 10 ^ point` its value -/
def layout (digits : List Char) (point : Int) : List Char :=
  if -5 < point ∧ point ≤ 0 then '0' :: '.' :: (List.replicate (-point).toNat '0' ++ digits)
  else if 0 < point ∧ point < digits.length then
    digits.take point.toNat ++ '.' :: digits.drop point.toNat
  else if 0 < point ∧ point ≤ 16 then
    digits ++ (List.replicate (point.toNat - digits.length) '0' ++ ['.', '0'])
  else
    let mantissa := match digits with
      | d :: e :: rest => d :: '.' :: e :: rest
      | short => short
    let exponent := point - 1
    mantissa ++ 'e' :: (if exponent < 0 then '-' else '+') :: (Nat.repr exponent.natAbs).toList

/-- the text of a finite double -/
def doubleChars (x : Float) : List Char :=
  let bits := x.toBits.toNat
  let magnitude := bits % 0x8000000000000000
  let sign := if bits / 0x8000000000000000 = 0 then [] else ['-']
  if magnitude = 0 then sign ++ ['0', '.', '0']
  else
    let decimal := (Decimal.Binary.ofBits magnitude).shortest
    let digits := (Nat.repr decimal.digits).toList
    sign ++ layout digits (decimal.scale + digits.length)

/-! ## strings -/

def hexChar (n : Nat) : Char := Char.ofNat (if n < 10 then n + 48 else n + 87)

def escape (c : Char) : List Char :=
  if c = '"' then ['\\', '"']
  else if c = '\\' then ['\\', '\\']
  else if c = '\n' then ['\\', 'n']
  else if c = '\r' then ['\\', 'r']
  else if c = '\t' then ['\\', 't']
  else if c = '\x08' then ['\\', 'b']
  else if c = '\x0c' then ['\\', 'f']
  else if c.toNat < 0x20 then ['\\', 'u', '0', '0', hexChar (c.toNat / 16), hexChar (c.toNat % 16)]
  else [c]

/-- a text between quotation marks -/
def stringChars (s : String) : List Char := '"' :: (s.toList.flatMap escape ++ ['"'])

/-! ## values without white space -/

def commas : List (List Char) → List Char
  | [] => []
  | [part] => part
  | part :: parts => part ++ ',' :: commas parts

mutual

def Value.chars : Value → List Char
  | .null => "null".toList
  | .bool true => "true".toList
  | .bool false => "false".toList
  | .int n => n.repr.toList
  | .double x => doubleChars x
  | .string s => stringChars s
  | .array items => '[' :: (commas (itemChars items) ++ [']'])
  | .object members => '\x7b' :: (commas (memberChars members) ++ ['\x7d'])

def itemChars : List Value → List (List Char)
  | [] => []
  | item :: items => item.chars :: itemChars items

def memberChars : List (String × Value) → List (List Char)
  | [] => []
  | (name, v) :: members => (stringChars name ++ ':' :: v.chars) :: memberChars members

end

def Value.render (v : Value) : String := String.ofList v.chars

/-! ## values with one line for each item -/

/-- a line break and the spaces of a level -/
def lineBreak (level : Nat) : List Char := '\n' :: List.replicate (2 * level) ' '

/-- parts on lines of their own between an opening and a closing character -/
def block (opening closing : Char) (level : Nat) (parts : List (List Char)) : List Char :=
  match parts with
  | [] => [opening, closing]
  | parts =>
    opening :: (commas (parts.map (lineBreak (level + 1) ++ ·)) ++ lineBreak level ++ [closing])

mutual

/-- the characters of a value on a level -/
def Value.prettyChars : Value → Nat → List Char
  | .null, _ => "null".toList
  | .bool true, _ => "true".toList
  | .bool false, _ => "false".toList
  | .int n, _ => n.repr.toList
  | .double x, _ => doubleChars x
  | .string s, _ => stringChars s
  | .array items, level => block '[' ']' level (prettyItems items (level + 1))
  | .object members, level => block '\x7b' '\x7d' level (prettyMembers members (level + 1))

def prettyItems : List Value → Nat → List (List Char)
  | [], _ => []
  | item :: items, level => item.prettyChars level :: prettyItems items level

def prettyMembers : List (String × Value) → Nat → List (List Char)
  | [], _ => []
  | (name, v) :: members, level =>
    (stringChars name ++ ':' :: ' ' :: v.prettyChars level) :: prettyMembers members level

end

/-- the text of a value with one line for each item -/
def Value.pretty (v : Value) : String := String.ofList (v.prettyChars 0)

end RequestSigning.Json
