import RequestSigning.Bytes

/-!
# UTF-8, reading side

Octets are read one at a time.  Between characters nothing is pending; after the first octet
of a longer character the reader holds a `Pending`: the bits so far, the number of octets still
owed and the range of the next one.  The ranges leave out overlong forms, surrogates and
everything above U+10FFFF.

`scan` gives one entry per character and one empty entry per maximal ill-formed part, so that

* `decode?`      accepts exactly the well-formed texts;
* `decodeLossy`  puts one U+FFFD in place of each ill-formed part.
-/

namespace RequestSigning.Utf8

/-- a character whose last octets have not been read yet -/
structure Pending where
  value : Nat
  /-- the number of octets still owed, at least one -/
  owed : Nat
  low : UInt8
  high : UInt8

/-- what one octet adds to the result, and what is pending after it -/
abbrev Step := List (Option Char) × Option Pending

/-- an octet read between characters -/
def lead (b : UInt8) : Step :=
  if b < 0x80 then ([some (Char.ofNat b.toNat)], none)
  else if b < 0xC2 then ([none], none)
  else if b < 0xE0 then ([], some ⟨b.toNat - 0xC0, 1, 0x80, 0xBF⟩)
  else if b < 0xF0 then
    ([], some ⟨b.toNat - 0xE0, 2, if b = 0xE0 then 0xA0 else 0x80, if b = 0xED then 0x9F else 0xBF⟩)
  else if b < 0xF5 then
    ([], some ⟨b.toNat - 0xF0, 3, if b = 0xF0 then 0x90 else 0x80, if b = 0xF4 then 0x8F else 0xBF⟩)
  else ([none], none)

/-- a further octet of a pending character; an octet out of range ends the ill-formed part before
it and is read anew -/
def extend (p : Pending) (b : UInt8) : Step :=
  if p.low ≤ b ∧ b ≤ p.high then
    let value := 64 * p.value + (b.toNat - 0x80)
    if p.owed ≤ 1 then ([some (Char.ofNat value)], none)
    else ([], some ⟨value, p.owed - 1, 0x80, 0xBF⟩)
  else
    let (out, next) := lead b
    (none :: out, next)

/-- one octet in either state -/
def step : Option Pending → UInt8 → Step
  | none, b => lead b
  | some p, b => extend p b

/-- the characters of an octet string, with an empty entry for each maximal ill-formed part -/
def scan : Option Pending → Bytes → List (Option Char)
  | none, [] => []
  | some _, [] => [none]
  | state, b :: rest =>
    let (out, next) := step state b
    out ++ scan next rest

/-- the characters of a well-formed octet string -/
def decode? (b : Bytes) : Option (List Char) := (scan none b).mapM id

/-- the text of a well-formed octet string -/
def text? (b : Bytes) : Option String := (decode? b).map String.ofList

/-- the text of any octet string, with U+FFFD for each maximal ill-formed part -/
def decodeLossy (b : Bytes) : String :=
  String.ofList ((scan none b).map (·.getD '\uFFFD'))

theorem scan_nil : scan none [] = [] := rfl
theorem scan_cons (state : Option Pending) (b : UInt8) (rest : Bytes) :
    scan state (b :: rest) = (step state b).1 ++ scan (step state b).2 rest := by
  cases state <;> rfl

end RequestSigning.Utf8
