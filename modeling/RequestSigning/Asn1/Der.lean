import RequestSigning.Bytes

/-!
# DER elements

An element is a tag, the length of its content, and the content.  Lengths are written in the
shortest way; tags take one octet.  `Element.encode` writes an element, `readElement` takes one off
the front of an octet string, and `exactly` asks that nothing follows.
-/

namespace RequestSigning.Asn1

/-- a tag and the content that it marks -/
structure Element where
  tag : UInt8
  content : Bytes
  deriving DecidableEq

/-- a reader takes something off the front of an octet string, or refuses the octet string -/
abbrev Reader (α : Type) := Bytes → Option (α × Bytes)

/-! ## tags -/

def integerTag : UInt8 := 0x02
def bitStringTag : UInt8 := 0x03
def octetStringTag : UInt8 := 0x04
def oidTag : UInt8 := 0x06
def sequenceTag : UInt8 := 0x30

/-- the tags that have a meaning everywhere -/
def universalTags : List UInt8 :=
  [0x01, 0x02, 0x03, 0x04, 0x05, 0x06, 0x09, 0x0A, 0x0C, 0x12, 0x13, 0x14, 0x15, 0x16, 0x17, 0x18,
    0x1A, 0x1E, 0x30, 0x31]

/-- the number of a tag within its class -/
def tagNumber (tag : UInt8) : Nat := tag.toNat % 32

/-- whether a tag is known, or belongs to a class of private meaning and takes one octet -/
def isTag (tag : UInt8) : Bool :=
  if tag < 0x40 then universalTags.contains tag else tagNumber tag ≠ 31

/-- whether a tag has a meaning within the surrounding element only -/
def isContextual (tag : UInt8) : Bool := 0x80 ≤ tag && tag < 0xC0

/-- the tag of a contextual element that holds one whole element -/
def explicitTag (number : Nat) : UInt8 := 0xA0 + UInt8.ofNat number

/-! ## elements -/

/-- a length: one octet below 128, or the number of octets, up to four, and as many octets as the
length needs -/
def readLength : Reader Nat
  | [] => none
  | b :: rest =>
    if b < 0x80 then some (b.toNat, rest)
    else
      let count := b.toNat - 128
      let octets := rest.take count
      let length := Bytes.toNat octets
      if 1 ≤ count ∧ count ≤ 4 ∧ octets.length = count ∧ 128 ≤ length
          ∧ Bytes.weight (count - 1) ≤ length ∧ length < 0x10000000 then
        some (length, rest.drop count)
      else none

/-- the octets that a length of at least 128 needs -/
def lengthWidth (n : Nat) : Nat :=
  if n < 0x100 then 1 else if n < 0x10000 then 2 else if n < 0x1000000 then 3 else 4

/-- a length below 2²⁸, as `readLength` reads it -/
def lengthOctets (n : Nat) : Bytes :=
  if n < 128 then [UInt8.ofNat n]
  else UInt8.ofNat (128 + lengthWidth n) :: Bytes.ofNat (lengthWidth n) n

def Element.encode (e : Element) : Bytes := e.tag :: (lengthOctets e.content.length ++ e.content)

def readElement : Reader Element
  | [] => none
  | tag :: rest => do
    let (length, rest) ← readLength rest
    if isTag tag ∧ length ≤ rest.length then some (⟨tag, rest.take length⟩, rest.drop length)
    else none

def readContent (tag : UInt8) : Reader Bytes := fun s => do
  let (e, rest) ← readElement s
  if e.tag = tag then some (e.content, rest) else none

/-- what a reader gives when it takes everything -/
def exactly {α : Type} (reader : Reader α) (s : Bytes) : Option α := do
  let (x, rest) ← reader s
  if rest = [] then some x else none

/-- the contextual element with a number, if it comes next; contextual elements with lower numbers
before it are passed over -/
def findContextual (number : Nat) : Nat → Reader (Option Element)
  | 0, s => some (none, s)
  | fuel + 1, s =>
    match s with
    | [] => some (none, [])
    | tag :: _ =>
      if isContextual tag ∧ tagNumber tag ≤ number then do
        let (e, rest) ← readElement s
        if tagNumber tag = number then some (some e, rest) else findContextual number fuel rest
      else some (none, s)

def readContextual (number : Nat) : Reader (Option Element) := fun s =>
  findContextual number s.length s

/-! ## bit strings -/

/-- a bit string: its octets and the number of bits of the last one that do not count -/
structure BitString where
  unused : Nat
  octets : Bytes

/-- the bit string of the content of an element -/
def BitString.ofContent? : Bytes → Option BitString
  | [] => none
  | unused :: octets =>
    if unused ≤ 7 ∧ (unused = 0 ∨ octets ≠ []) then some ⟨unused.toNat, octets⟩ else none

/-- the octets of a bit string all of whose bits count -/
def BitString.whole? (b : BitString) : Option Bytes :=
  if b.unused = 0 then some b.octets else none

end RequestSigning.Asn1
