import RequestSigning.Bytes

/-!
# Request targets

The target of a request has one of four forms:

* an asterisk;
* a path, which starts with a slash, and perhaps a query;
* a scheme, an authority, a path that may be empty, and perhaps a query;
* an authority alone.

A fragment is dropped.  Nothing is decoded: the path of a target is the text that it was written
with, a slash for an empty path behind an authority, and empty for an authority alone.
-/

namespace RequestSigning.Http

inductive Target where
  | asterisk
  | origin (path : String) (query : Option String)
  | absolute (scheme authority path : String) (query : Option String)
  | authority (authority : String)

namespace Target

def path : Target → String
  | asterisk => "*"
  | origin path _ => path
  | absolute _ _ path _ => if path = "" then "/" else path
  | authority _ => ""

/-! ## paths and queries -/

/-- whether a character is neither a blank nor a control character of ASCII -/
def isGraphic (c : Char) : Bool := 0x21 ≤ c.toNat && c ≠ '\x7f'

def isPathChar (c : Char) : Bool := isGraphic c && !"#<>?\x60".toList.contains c

def isQueryChar (c : Char) : Bool := isGraphic c && !"\"#<>".toList.contains c

/-- the path and the query of a text, without its fragment -/
def splitPath (cs : List Char) : Option (String × Option String) :=
  let isEnd (c : Char) : Bool := c = '?' || c = '#'
  let path := cs.takeWhile fun c => !isEnd c
  if path.all isPathChar then
    match cs.dropWhile fun c => !isEnd c with
    | '?' :: rest =>
      let query := rest.takeWhile (· ≠ '#')
      if query.all isQueryChar then some (String.ofList path, some (String.ofList query)) else none
    | _ => some (String.ofList path, none)
  else none

/-! ## authorities -/

/-- what has been seen of an authority -/
structure Seen where
  /-- the colons since the last at sign or closing bracket -/
  colons : Nat
  opened : Bool
  closed : Bool
  /-- whether there was a percent sign since the last at sign or closing bracket -/
  percent : Bool
  /-- whether the last character was an at sign -/
  atSign : Bool

def isAuthorityChar (c : Char) : Bool :=
  0x21 ≤ c.toNat && c.toNat ≤ 0x7E && !"\"<>\\^\x60\x7b|\x7d".toList.contains c

/-- one more character of an authority -/
def see (s : Seen) (c : Char) : Option Seen :=
  if !isAuthorityChar c then none
  else if c = ':' then
    if s.colons < 8 then some { s with colons := s.colons + 1, atSign := false } else none
  else if c = '[' then
    if s.percent || s.opened then none else some { s with opened := true, atSign := false }
  else if c = ']' then
    if s.opened && !s.closed then
      some { s with closed := true, colons := 0, percent := false, atSign := false }
    else none
  else if c = '@' then some { s with colons := 0, percent := false, atSign := true }
  else if c = '%' then some { s with percent := true, atSign := false }
  else some { s with atSign := false }

/-- whether a text is an authority: brackets come in one pair, a percent sign only before an at
sign or inside the brackets, and one colon at most behind those -/
def isAuthority (cs : List Char) : Bool :=
  match cs.foldlM see ⟨0, false, false, false, false⟩ with
  | none => false
  | some s => s.opened == s.closed && s.colons ≤ 1 && !s.atSign && !s.percent

/-- the characters before the first slash, question mark or number sign, and the others -/
def splitAuthority (cs : List Char) : List Char × List Char :=
  cs.span fun c => c ≠ '/' && c ≠ '?' && c ≠ '#'

/-! ## schemes -/

def isSchemeChar (c : Char) : Bool := c.isAlphanum || "+-.~".toList.contains c

/-- the scheme before a colon and two slashes, and what follows those -/
def splitScheme (cs : List Char) : Option (List Char × List Char) :=
  match cs.dropWhile isSchemeChar with
  | ':' :: '/' :: '/' :: rest => some (cs.takeWhile isSchemeChar, rest)
  | _ => none

def maxSchemeLength : Nat := 64

/-! ## targets -/

/-- the greatest number of octets in a target -/
def maxLength : Nat := 65534

/-- a target with an authority -/
def ofAuthority? (cs : List Char) : Option Target :=
  match splitScheme cs with
  | some (scheme, rest) => do
    let (host, rest) := splitAuthority rest
    if scheme.length ≤ maxSchemeLength ∧ isAuthority host ∧ host ≠ [] then
      let (path, query) ← splitPath rest
      some (.absolute (String.ofList scheme) (String.ofList host) path query)
    else none
  | none =>
    if isAuthority cs ∧ (splitAuthority cs).2 = [] then some (.authority (String.ofList cs))
    else none

def ofText? (s : String) : Option Target :=
  if maxLength < (Bytes.ofText s).length then none
  else
    match s.toList with
    | [] => none
    | ['*'] => some .asterisk
    | '/' :: rest => (splitPath ('/' :: rest)).map fun (path, query) => .origin path query
    | cs => ofAuthority? cs

end Target

end RequestSigning.Http
