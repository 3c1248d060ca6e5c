import RequestSigning.Text.AsciiCase

/-!
# Methods and header fields

Methods and field names are tokens, non-empty texts of letters, digits and some signs.  Names are
kept in small letters.  Values may hold any octets but control characters other than the tab.
-/

namespace RequestSigning.Http

def isTokenChar (c : Char) : Bool :=
  c.isAlphanum || "!#$%&'*+-.^_\x60|~".toList.contains c

def isToken (s : String) : Bool := !s.toList.isEmpty && s.toList.all isTokenChar

structure Method where
  name : String
  valid : isToken name = true

def Method.ofText? (s : String) : Option Method :=
  if h : isToken s = true then some ⟨s, h⟩ else none

/-! ## names -/

def maxNameLength : Nat := 65535

/-- whether a text is a token without capitals, and not too long -/
def isFieldName (s : String) : Bool :=
  isToken s && s.toList.all (fun c => c.toLower = c) && decide (s.toList.length ≤ maxNameLength)

/-- the name of a field, in small letters -/
structure FieldName where
  text : String
  valid : isFieldName text = true
  deriving DecidableEq

/-- the name of a text in any case -/
def FieldName.ofText? (s : String) : Option FieldName :=
  if h : isFieldName (Text.fold s) = true then some ⟨Text.fold s, h⟩ else none

/-! ## values -/

def isValueOctet (b : UInt8) : Bool := (0x20 ≤ b && b ≠ 0x7F) || b = 0x09

structure FieldValue where
  octets : Bytes
  valid : octets.all isValueOctet = true

def FieldValue.ofOctets? (b : Bytes) : Option FieldValue :=
  if h : b.all isValueOctet = true then some ⟨b, h⟩ else none

/-- whether an octet is printable ASCII or a tab -/
def isVisibleOctet (b : UInt8) : Bool := (0x20 ≤ b && b < 0x7F) || b = 0x09

/-- the text of a value of printable ASCII and tabs -/
def FieldValue.text? (v : FieldValue) : Option String :=
  if v.octets.all isVisibleOctet then
    some (String.ofList (v.octets.map fun b => Char.ofNat b.toNat))
  else none

end RequestSigning.Http
