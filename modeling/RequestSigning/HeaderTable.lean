import RequestSigning.Error
import RequestSigning.Text.AsciiCase
import RequestSigning.Text.Blank
import Std.Data.TreeMap

/-!
# Header tables

A table holds the headers of a request in the order in which their names first came.  Names are
trimmed, and two names that differ only in the case of ASCII letters are one (`HeaderTable.key`).
The entries are an array, and an index from keys to positions makes look-ups short.

* `exchange`   the last value of a name wins, at the position of the first;
* `insert`     the same without the value that was replaced;
* `insertNew`  refuses a name that is there;
* `select`     the values of given names, in the order and spelling of those.
-/

namespace RequestSigning

/-- headers in order of their first insertion, with an index by key -/
structure HeaderTable where
  /-- trimmed names as they were last spelt, and values -/
  entries : Array (String × Bytes)
  /-- the position of each key -/
  index : Std.TreeMap String Nat

namespace HeaderTable

/-- what two names are compared by -/
def key (name : String) : String := Text.fold (Text.trim name)

def empty : HeaderTable := ⟨#[], ∅⟩

instance : EmptyCollection HeaderTable := ⟨empty⟩

def toList (t : HeaderTable) : List (String × Bytes) := t.entries.toList

def names (t : HeaderTable) : List String := t.toList.map (·.1)

def size (t : HeaderTable) : Nat := t.entries.size

def isEmpty (t : HeaderTable) : Bool := t.entries.isEmpty

def contains (t : HeaderTable) (name : String) : Bool := t.index.contains (key name)

def get? (t : HeaderTable) (name : String) : Option Bytes :=
  (t.index[key name]?).bind fun i => (t.entries[i]?).map (·.2)

/-- the earlier value of a name, if there is one, and the table with a new value in place of it or
at the end -/
def exchange (t : HeaderTable) (name : String) (value : Bytes) : Option Bytes × HeaderTable :=
  match t.index[key name]? with
  | some i =>
    ((t.entries[i]?).map (·.2),
      { t with entries := t.entries.setIfInBounds i (Text.trim name, value) })
  | none =>
    (none,
      { entries := t.entries.push (Text.trim name, value)
        index := t.index.insert (key name) t.entries.size })

def insert (t : HeaderTable) (name : String) (value : Bytes) : HeaderTable :=
  (t.exchange name value).2

def insertNew (t : HeaderTable) (name : String) (value : Bytes) : Except Error HeaderTable :=
  if t.contains name then .error (.invalidArgument (.duplicateHeader (Text.trim name)))
  else .ok (t.insert name value)

def insertAll (t : HeaderTable) (headers : List (String × Bytes)) : HeaderTable :=
  headers.foldl (fun t header => t.insert header.1 header.2) t

/-- the table of a list of headers, of which the last of a name counts -/
def ofList (headers : List (String × Bytes)) : HeaderTable := empty.insertAll headers

def getSigned (t : HeaderTable) (name : String) : Except Error (String × Bytes) :=
  match t.get? name with
  | some value => .ok (name, value)
  | none => .error (.missingSignedHeader name)

/-- the headers with the given names, in the order and spelling of those; the first name that is
not there is the error -/
def select (t : HeaderTable) (names : List String) : Except Error (List (String × Bytes)) :=
  names.mapM t.getSigned

theorem insertAll_nil (t : HeaderTable) : t.insertAll [] = t := rfl
theorem insertAll_cons (t : HeaderTable) (header : String × Bytes)
    (headers : List (String × Bytes)) :
    t.insertAll (header :: headers) = (t.insert header.1 header.2).insertAll headers := rfl

end HeaderTable

end RequestSigning
