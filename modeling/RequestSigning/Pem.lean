import RequestSigning.Base64

/-!
# PEM files

A PEM file holds octets as base64 text between two marks:

    -----BEGIN PUBLIC KEY-----
    MIGbMBAGByqGSM49AgEGBSuBBAAjA4GGAAQ…
    -----END PUBLIC KEY-----

Both marks have the same label.  Text may come before the first mark, but only a line end may
follow the second.  All lines of base64 but the last have 64 characters; a line ends with a line
feed, a carriage return, or both.  The last line may be followed by a blank one.
-/

namespace RequestSigning.Pem

/-- a label and the octets behind it -/
structure Block where
  label : String
  content : Bytes

/-! ## marks and line ends -/

def beginMark : Bytes := Bytes.ofText "-----BEGIN "

def endMark : Bytes := Bytes.ofText "-----END "

/-- the end of both marks -/
def dashes : Bytes := Bytes.ofText "-----"

def lineFeed : UInt8 := 0x0A
def carriageReturn : UInt8 := 0x0D

/-- what follows a given start -/
def after? (start s : Bytes) : Option Bytes :=
  if start.isPrefixOf s then some (s.drop start.length) else none

/-- what stands before a given end -/
def before? (stop s : Bytes) : Option Bytes :=
  if stop.isSuffixOf s then some (s.take (s.length - stop.length)) else none

/-- what follows a line end -/
def afterLineEnd? (s : Bytes) : Option Bytes :=
  match s with
  | b :: c :: rest =>
    if b = carriageReturn ∧ c = lineFeed then some rest
    else if b = lineFeed ∨ b = carriageReturn then some (c :: rest)
    else none
  | [b] => if b = lineFeed ∨ b = carriageReturn then some [] else none
  | [] => none

/-- what stands before a line end -/
def beforeLineEnd? (s : Bytes) : Option Bytes :=
  ((before? [carriageReturn, lineFeed] s).or (before? [lineFeed] s)).or (before? [carriageReturn] s)

/-! ## parts -/

/-- what follows the first line feed that a mark follows; no zero octet comes before it -/
def skipLines : Bytes → Option Bytes
  | [] => none
  | b :: rest =>
    if b = 0 then none
    else if b = lineFeed ∧ beginMark.isPrefixOf rest then some rest
    else skipLines rest

/-- the text from the first mark on -/
def skipPreamble (s : Bytes) : Option Bytes :=
  if beginMark.isPrefixOf s then some s else skipLines s

/-- whether an octet may stand in a label: printable ASCII, but neither a blank nor a dash -/
def isLabelOctet (b : UInt8) : Bool := 0x21 ≤ b && b ≤ 0x7E && b ≠ byte '-'

/-- the octets up to the first dash; a single blank may stand behind another octet -/
def takeLabel (blankAllowed : Bool) : Bytes → Option (Bytes × Bytes)
  | [] => some ([], [])
  | b :: rest =>
    if b = byte '-' then some ([], b :: rest)
    else if isLabelOctet b then
      (takeLabel true rest).map fun (label, rest) => (b :: label, rest)
    else if blankAllowed && (b = byte ' ' || b = byte '\t') then
      (takeLabel false rest).map fun (label, rest) => (b :: label, rest)
    else none

def lineLength : Nat := 64

/-- a text without one line end at its end -/
def dropLineEnd (s : Bytes) : Bytes := (beforeLineEnd? s).getD s

/-- the lines of a text.  All but the last are full, and the last may have one more line end. -/
def lines : Nat → Bytes → Option (List Bytes)
  | 0, _ => none
  | fuel + 1, s =>
    match s, s.drop lineLength with
    | [], _ => some []
    | s, [] => some [dropLineEnd s]
    | s, more => do
      let rest ← lines fuel (← afterLineEnd? more)
      some (s.take lineLength :: rest)

/-- the octets of the base64 text between the marks; behind padding there is no blank line of its
own -/
def decodeBody (s : Bytes) : Option Bytes := do
  let lines ← lines (s.length + 1) s
  let text := lines.flatten
  if text = [] ∨ (lines.getLast? = some [] ∧ Base64.pad ∈ text) then none
  else Base64.decodePadded? text

/-! ## files -/

/-- a text in lines of 64 characters, each with a line feed behind it -/
def wrap : Nat → Bytes → Bytes
  | 0, _ => []
  | fuel + 1, s =>
    match s with
    | [] => []
    | s => s.take lineLength ++ lineFeed :: wrap fuel (s.drop lineLength)

def Block.encode (b : Block) : Bytes :=
  let text := Base64.encodePadded b.content
  let label := Bytes.ofText b.label
  beginMark ++ label ++ dashes ++ lineFeed :: wrap text.length text
    ++ endMark ++ label ++ dashes ++ [lineFeed]

def decode? (file : Bytes) : Option Block := do
  let s ← after? beginMark (← skipPreamble file)
  let (label, s) ← takeLabel false s
  let s ← afterLineEnd? (← after? dashes s)
  let s ← before? dashes (dropLineEnd s)
  let s ← before? endMark (← before? label s)
  let content ← decodeBody (← beforeLineEnd? s)
  some ⟨String.ofList (label.map fun b => Char.ofNat b.toNat), content⟩

end RequestSigning.Pem
