/-!
# Blank characters

A character is blank when it has the Unicode property White_Space.  `trim` removes blank
characters from both ends of a text.
-/

namespace RequestSigning.Text

/-- the code points with the property White_Space, as closed ranges -/
def blankRanges : List (Nat × Nat) :=
  [(0x09, 0x0D), (0x20, 0x20), (0x85, 0x85), (0xA0, 0xA0), (0x1680, 0x1680), (0x2000, 0x200A),
    (0x2028, 0x2029), (0x202F, 0x202F), (0x205F, 0x205F), (0x3000, 0x3000)]

/-- whether a character has the property White_Space -/
def isBlank (c : Char) : Bool :=
  blankRanges.any fun (low, high) => low ≤ c.toNat && c.toNat ≤ high

/-- a list of characters without the blank ones at its end -/
def trimEnd (cs : List Char) : List Char := (cs.reverse.dropWhile isBlank).reverse

/-- a list of characters without the blank ones at its two ends -/
def trimChars (cs : List Char) : List Char := trimEnd (cs.dropWhile isBlank)

/-- a text without the blank characters at its two ends -/
def trim (s : String) : String := String.ofList (trimChars s.toList)

theorem toList_trim (s : String) : (trim s).toList = trimChars s.toList := String.toList_ofList

end RequestSigning.Text
