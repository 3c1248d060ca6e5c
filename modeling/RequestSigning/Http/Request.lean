import RequestSigning.Http.Field
import RequestSigning.Http.Target

/-!
# HTTP requests

A request has its fields in the order in which they were added; a name may occur many times.
`get?` gives the first value of a name, `set` puts one value in place of all values of a name.
-/

namespace RequestSigning.Http

abbrev Field := FieldName × FieldValue

structure Request where
  method : Method
  target : Target
  fields : List Field
  body : Bytes

def field? (name : String) (value : Bytes) : Option Field := do
  some (← FieldName.ofText? name, ← FieldValue.ofOctets? value)

namespace Request

/-- the request with the given parts, if all of them are well formed -/
def build? (method target : String) (fields : List (String × Bytes)) (body : Bytes) :
    Option Request := do
  let method ← Method.ofText? method
  let target ← Target.ofText? target
  let fields ← fields.mapM fun (name, value) => field? name value
  some ⟨method, target, fields, body⟩

/-- the first value of a name -/
def get? (r : Request) (name : FieldName) : Option FieldValue :=
  (r.fields.find? fun field => field.1 = name).map (·.2)

/-- the first value of a name in any case; a text that is no name has none -/
def lookup? (r : Request) (name : String) : Option FieldValue :=
  (FieldName.ofText? name).bind r.get?

/-- a list of fields with one value of a name, at the place of the first or at the end -/
def setField (name : FieldName) (value : FieldValue) : List Field → List Field
  | [] => [(name, value)]
  | field :: fields =>
    if field.1 = name then (name, value) :: fields.filter fun f => f.1 ≠ name
    else field :: setField name value fields

def set (r : Request) (name : FieldName) (value : FieldValue) : Request :=
  { r with fields := setField name value r.fields }

def headers (r : Request) : List (String × Bytes) :=
  r.fields.map fun field => (field.1.text, field.2.octets)

end Request

end RequestSigning.Http
