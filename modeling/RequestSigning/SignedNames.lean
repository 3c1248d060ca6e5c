import RequestSigning.Text.Blank
import RequestSigning.Text.Split

/-!
# The list of signed names

A token carries the names of the signed headers in one text, with commas between them.  Reading
such a text drops blank characters around a name and names that are empty.
-/

namespace RequestSigning.SignedNames

def join (names : List String) : String :=
  String.ofList (Text.join ',' (names.map String.toList))

/-- the names in a text, trimmed, without the empty ones -/
def split (value : String) : List String :=
  (((Text.splitOn ',' value.toList).map Text.trimChars).filter (· ≠ [])).map String.ofList

theorem join_nil : join [] = "" := rfl

end RequestSigning.SignedNames
