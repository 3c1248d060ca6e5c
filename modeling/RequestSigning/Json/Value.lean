import RequestSigning.Text.AsciiCase

/-!
# JSON values

Integers of 64 bits stay integers, every other number is a double.  The members of an object that
has been read are sorted by name, and each name occurs once (`insertMember`); an object that is
to be written may have its members in any order.
-/

namespace RequestSigning.Json

inductive Value where
  | null
  | bool (b : Bool)
  | int (n : Int)
  | double (x : Float)
  | string (s : String)
  | array (items : List Value)
  | object (members : List (String × Value))

namespace Value

def text? : Value → Option String
  | string s => some s
  | _ => none

end Value

/-- the list of members, sorted by name, with a value for a name in place of an earlier one -/
def insertMember {α : Type} (name : String) (v : α) : List (String × α) → List (String × α)
  | [] => [(name, v)]
  | (other, w) :: rest =>
    if name = other then (name, v) :: rest
    else if name < other then (name, v) :: (other, w) :: rest
    else (other, w) :: insertMember name v rest

/-- the members in order of their names, the last one of each name -/
def sortMembers {α : Type} (members : List (String × α)) : List (String × α) :=
  members.foldl (fun sorted member => insertMember member.1 member.2 sorted) []

end RequestSigning.Json
