import RequestSigning.Token

/-!
# Inspecting a token

`inspect` is the report of the command: the claims of a token, with a warning that the signature
has not been checked.
-/

namespace RequestSigning

/-- what follows the claims -/
def unverifiedNotice : String := "(unverified, the signature hasn't been checked)"

def inspect (token : String) : Except Error String := do
  let claims ← Token.claimsOf token
  return claims.toValue.pretty ++ "\n" ++ unverifiedNotice ++ "\n"

/-- what a command does: the text that it prints, and whether it succeeds -/
structure Outcome where
  success : Bool
  output : String

/-- the command with its arguments, of which only the first counts -/
def inspectCommand : List String → Outcome
  | [] => ⟨false, ""⟩
  | token :: _ =>
    match inspect token with
    | .ok report => ⟨true, report⟩
    | .error _ => ⟨false, ""⟩

end RequestSigning
