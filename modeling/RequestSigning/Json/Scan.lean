import RequestSigning.Json.Number
import RequestSigning.Text.Utf8

/-!
# The parts of a JSON text

Each scanner takes one part off the front of an octet string and gives what is left.

* `skipBlank`, `expect?`, `literal?`  white space, one octet, one word;
* `readString`                        the text of a string, behind its opening quotation mark;
* `skipString`                        the same part, checked for its form only: escapes may be lone
                                      surrogates and octets need not be UTF-8;
* `skip`                              a value of any kind and depth, checked for its form only.
-/

namespace RequestSigning.Json

/-- a reader takes something off the front of a text, or refuses the text -/
abbrev Reader (α : Type) := Bytes → Option (α × Bytes)

/-! ## white space, punctuation and words -/

/-- space, tab, line feed and carriage return -/
def isBlank (b : UInt8) : Bool := b = 0x20 || b = 0x09 || b = 0x0A || b = 0x0D

/-- a text without the white space at its front -/
def skipBlank (s : Bytes) : Bytes := s.dropWhile isBlank

/-- what follows a given octet, white space before it left out -/
def expect? (b : UInt8) (s : Bytes) : Option Bytes :=
  match skipBlank s with
  | c :: rest => if c = b then some rest else none
  | [] => none

def literal? : List Char → Bytes → Option Bytes
  | [], s => some s
  | c :: word, b :: rest => if b = byte c then literal? word rest else none
  | _ :: _, [] => none

/-! ## strings -/

def hexDigit? (b : UInt8) : Option Nat :=
  if byte '0' ≤ b ∧ b ≤ byte '9' then some (b.toNat - 48)
  else if byte 'a' ≤ b ∧ b ≤ byte 'f' then some (b.toNat - 87)
  else if byte 'A' ≤ b ∧ b ≤ byte 'F' then some (b.toNat - 55)
  else none

def unit? (a b c d : UInt8) : Option Nat := do
  some ((((← hexDigit? a) * 16 + (← hexDigit? b)) * 16 + (← hexDigit? c)) * 16 + (← hexDigit? d))

/-- the character that a backslash and a letter stand for -/
def escaped? (b : UInt8) : Option UInt8 :=
  if b = byte '"' ∨ b = byte '\\' ∨ b = byte '/' then some b
  else if b = byte 'b' then some 0x08
  else if b = byte 'f' then some 0x0C
  else if b = byte 'n' then some 0x0A
  else if b = byte 'r' then some 0x0D
  else if b = byte 't' then some 0x09
  else none

/-- the octets of the character with a code point -/
def octetsOf (codePoint : Nat) : Bytes := String.utf8EncodeChar (Char.ofNat codePoint)

/-- the octets before an octet string that is still to be read -/
def prepend (b : Bytes) : Option (Bytes × Bytes) → Option (Bytes × Bytes) :=
  Option.map fun (content, rest) => (b ++ content, rest)

/-- the octets of a string, behind its opening quotation mark.  A code point above U+FFFF is
written as a pair of surrogates, and no surrogate stands alone. -/
def scanString : Reader Bytes
  | [] => none
  | b :: rest =>
    if b = byte '"' then some ([], rest)
    else if b = byte '\\' then
      match rest with
      | [] => none
      | e :: rest =>
        if e = byte 'u' then
          match rest with
          | h₁ :: h₂ :: h₃ :: h₄ :: rest =>
            match unit? h₁ h₂ h₃ h₄ with
            | none => none
            | some high =>
              if high < 0xD800 ∨ 0xDFFF < high then prepend (octetsOf high) (scanString rest)
              else if 0xDBFF < high then none
              else
                match rest with
                | c₁ :: c₂ :: l₁ :: l₂ :: l₃ :: l₄ :: rest =>
                  match unit? l₁ l₂ l₃ l₄ with
                  | none => none
                  | some low =>
                    if c₁ = byte '\\' ∧ c₂ = byte 'u' ∧ 0xDC00 ≤ low ∧ low ≤ 0xDFFF then
                      prepend (octetsOf (0x10000 + (high - 0xD800) * 0x400 + (low - 0xDC00)))
                        (scanString rest)
                    else none
                | _ => none
          | _ => none
        else
          match escaped? e with
          | some x => prepend [x] (scanString rest)
          | none => none
    else if b < 0x20 then none
    else prepend [b] (scanString rest)

def readString : Reader String := fun s => do
  let (content, rest) ← scanString s
  some (← Utf8.text? content, rest)

/-- what follows a string, from behind its opening quotation mark -/
def skipString : Bytes → Option Bytes
  | [] => none
  | b :: rest =>
    if b = byte '"' then some rest
    else if b = byte '\\' then
      match rest with
      | [] => none
      | e :: rest =>
        if e = byte 'u' then
          match rest with
          | h₁ :: h₂ :: h₃ :: h₄ :: rest =>
            if (unit? h₁ h₂ h₃ h₄).isSome then skipString rest else none
          | _ => none
        else if (escaped? e).isSome then skipString rest
        else none
    else if b < 0x20 then none
    else skipString rest

/-! ## whole values -/

/-- what follows a value other than an array or an object -/
def skipScalar : Bytes → Option Bytes
  | [] => none
  | b :: rest =>
    if b = byte '"' then skipString rest
    else if b = byte 'n' then literal? "null".toList (b :: rest)
    else if b = byte 't' then literal? "true".toList (b :: rest)
    else if b = byte 'f' then literal? "false".toList (b :: rest)
    else (scanNumber (b :: rest)).map (·.2)

/-- what follows the name of a member and its colon -/
def skipName (s : Bytes) : Option Bytes := do
  expect? (byte ':') (← skipString (← expect? (byte '"') s))

/-- an array or object whose end has not been read yet -/
inductive Frame where
  | array
  | object

/-- where skipping goes on behind a value -/
inductive Next where
  /-- all is read that was open -/
  | done (rest : Bytes)
  /-- a value comes next -/
  | value (frames : List Frame) (rest : Bytes)

/-- behind a value: ends of what is open, until a comma or the end of everything.  The innermost
frame comes first. -/
def afterValue : List Frame → Bytes → Option Next
  | [], s => some (.done s)
  | .array :: frames, s =>
    match skipBlank s with
    | [] => none
    | b :: rest =>
      if b = byte ',' then some (.value (.array :: frames) rest)
      else if b = byte ']' then afterValue frames rest
      else none
  | .object :: frames, s =>
    match skipBlank s with
    | [] => none
    | b :: rest =>
      if b = byte ',' then (skipName rest).map (.value (.object :: frames))
      else if b = byte '\x7d' then afterValue frames rest
      else none

/-- behind an opening bracket: the end of an empty array or the first item -/
def enterArray (frames : List Frame) (s : Bytes) : Option Next :=
  match expect? (byte ']') s with
  | some rest => afterValue frames rest
  | none => some (.value (.array :: frames) s)

/-- behind an opening brace: the end of an empty object or the first member -/
def enterObject (frames : List Frame) (s : Bytes) : Option Next :=
  match expect? (byte '\x7d') s with
  | some rest => afterValue frames rest
  | none => (skipName s).map (.value (.object :: frames))

/-- the front of a value: all of it, or the opening of an array or object -/
def skipFront (frames : List Frame) (s : Bytes) : Option Next :=
  match skipBlank s with
  | [] => none
  | b :: rest =>
    if b = byte '[' then enterArray frames rest
    else if b = byte '\x7b' then enterObject frames rest
    else (skipScalar (b :: rest)).bind (afterValue frames)

/-- what follows a value and the ends of what is open around it; every round reads an octet at
least -/
def skipFrames : Nat → List Frame → Bytes → Option Bytes
  | 0, _, _ => none
  | fuel + 1, frames, s =>
    match skipFront frames s with
    | some (.value frames rest) => skipFrames fuel frames rest
    | some (.done rest) => some rest
    | none => none

def skip (s : Bytes) : Option Bytes := skipFrames (s.length + 1) [] s

end RequestSigning.Json
