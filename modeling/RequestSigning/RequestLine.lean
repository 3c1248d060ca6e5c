import RequestSigning.Error

/-!
# Method and path

The first line of what is signed is the method and the path of the request.  A method is a
non-empty text without ASCII white space, a path starts with a slash.

`toggleSlash?` is the other spelling of a path: verification retries with it, because servers add
and remove a slash at the end.
-/

namespace RequestSigning

def defaultMethod : String := "POST"

/-- space, tab, line feed, form feed and carriage return -/
def isAsciiBlank (c : Char) : Bool :=
  c = ' ' || c = '\t' || c = '\n' || c = '\x0c' || c = '\r'

/-- a method that the request line can hold -/
def ValidMethod (method : String) : Prop :=
  method.toList ≠ [] ∧ method.toList.any isAsciiBlank = false

instance (method : String) : Decidable (ValidMethod method) :=
  inferInstanceAs (Decidable (_ ∧ _))

/-- a path that the request line can hold -/
def ValidPath (path : String) : Prop := path.toList.head? = some '/'

instance (path : String) : Decidable (ValidPath path) := inferInstanceAs (Decidable (_ = _))

def checkMethod (method : String) : Except Error String :=
  if ValidMethod method then .ok method else .error (.invalidArgument (.invalidMethod method))

def checkPath : Option String → Except Error String
  | none => .error (.invalidArgument .pathMissing)
  | some path =>
    if ValidPath path then .ok path else .error (.invalidArgument (.pathNotAbsolute path))

/-- the path without the slash at its end, or with one more if it has none; the root path has no
other spelling -/
def toggleSlash? (path : String) : Option String :=
  match path.toList.reverse with
  | ['/'] => none
  | '/' :: rest => some (String.ofList rest.reverse)
  | _ => some (path.push '/')

end RequestSigning
