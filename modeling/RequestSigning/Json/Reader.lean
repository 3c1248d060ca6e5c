import RequestSigning.Json.Scan

/-!
# Reading JSON

* `readValue`  a value that is kept, down to a given number of nested arrays and objects;
* `record`     what a record needs to know of an object: the values of its known members.  Unknown
               members are skipped and a known one occurs once at most.  In place of an object
               there may be an array with the values in the order of the fields, the last ones
               left out or not;
* `document`   a whole text, with nothing but white space around the value.
-/

namespace RequestSigning.Json

/-! ## sequences -/

/-- items with commas between them, as far as the closing octet -/
def items {α : Type} (close : UInt8) (item : Reader α) : Nat → Reader (List α)
  | 0, _ => none
  | fuel + 1, s => do
    let (x, rest) ← item s
    match skipBlank rest with
    | [] => none
    | b :: rest =>
      if b = byte ',' then
        let (xs, rest) ← items close item fuel rest
        some (x :: xs, rest)
      else if b = close then some ([x], rest)
      else none

/-- what stands between an opening octet, which has been read, and the closing one -/
def sequence {α : Type} (close : UInt8) (item : Reader α) : Reader (List α) := fun s =>
  match expect? close s with
  | some rest => some ([], rest)
  | none => items close item (s.length + 1) s

/-! ## values -/

/-- the name of a member with its colon -/
def readName : Reader String := fun s => do
  let (name, rest) ← readString (← expect? (byte '"') s)
  some (name, ← expect? (byte ':') rest)

def readMember {α : Type} (value : Reader α) : Reader (String × α) := fun s => do
  let (name, rest) ← readName s
  let (v, rest) ← value rest
  some ((name, v), rest)

/-- a value that nests arrays and objects to the given depth at most -/
def readValue (depth : Nat) : Reader Value := fun s =>
  match skipBlank s with
  | [] => none
  | b :: rest =>
    if b = byte '"' then (readString rest).map fun (text, rest) => (.string text, rest)
    else if b = byte '[' then
      match depth with
      | 0 => none
      | depth + 1 =>
        (sequence (byte ']') (readValue depth) rest).map fun (xs, rest) => (.array xs, rest)
    else if b = byte '\x7b' then
      match depth with
      | 0 => none
      | depth + 1 =>
        (sequence (byte '\x7d') (readMember (readValue depth)) rest).map fun (members, rest) =>
          (.object (sortMembers members), rest)
    else if b = byte 'n' then (literal? "null".toList (b :: rest)).map (.null, ·)
    else if b = byte 't' then (literal? "true".toList (b :: rest)).map (.bool true, ·)
    else if b = byte 'f' then (literal? "false".toList (b :: rest)).map (.bool false, ·)
    else do
      let (numeral, rest) ← scanNumber (b :: rest)
      some (← numeral.value?, rest)

def readText : Reader String := fun s => do readString (← expect? (byte '"') s)

/-- nothing for the word `null`, and something for every other value -/
def optional {α : Type} (value : Reader α) : Reader (Option α) := fun s =>
  match skipBlank s with
  | [] => none
  | b :: rest =>
    if b = byte 'n' then (literal? "null".toList (b :: rest)).map (none, ·)
    else (value (b :: rest)).map fun (v, rest) => (some v, rest)

def readArray {α : Type} (item : Reader α) : Reader (List α) := fun s => do
  sequence (byte ']') item (← expect? (byte '[') s)

/-! ## records -/

/-- the names of a record and how their values are read, in order -/
abbrev Fields (α : Type) := List (String × Reader α)

/-- a member whose name is known, or nothing for one that is skipped -/
def readKnown {α : Type} (fields : Fields α) : Reader (Option (String × α)) := fun s => do
  let (name, rest) ← readName s
  match fields.lookup name with
  | some value => (value rest).map fun (v, rest) => (some (name, v), rest)
  | none => (skip rest).map (none, ·)

/-- the values of an array in the order of the fields, behind its opening bracket or a comma; there
are no more values than fields -/
def readPositional {α : Type} : Fields α → Reader (List (String × α))
  | [], _ => none
  | (name, value) :: fields, s => do
    let (v, rest) ← value s
    match skipBlank rest with
    | [] => none
    | b :: rest =>
      if b = byte ',' then
        let (vs, rest) ← readPositional fields rest
        some ((name, v) :: vs, rest)
      else if b = byte ']' then some ([(name, v)], rest)
      else none

/-- the known members of an object or array, each one once at most -/
def record {α : Type} (fields : Fields α) : Reader (List (String × α)) := fun s =>
  match skipBlank s with
  | [] => none
  | b :: rest =>
    if b = byte '\x7b' then do
      let (members, rest) ← sequence (byte '\x7d') (readKnown fields) rest
      let known := members.filterMap id
      if (known.map (·.1)).Nodup then some (known, rest) else none
    else if b = byte '[' then
      match expect? (byte ']') rest with
      | some rest => some ([], rest)
      | none => readPositional fields rest
    else none

/-! ## documents -/

/-- the value that a whole text holds -/
def document {α : Type} (value : Reader α) (s : Bytes) : Option α := do
  let (v, rest) ← value s
  if skipBlank rest = [] then some v else none

end RequestSigning.Json
