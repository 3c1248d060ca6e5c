import RequestSigning.Text.AsciiCase

/-!
# What is signed of a request

The payload is the request line, one line per signed header in the order of signing, and the
body.  The method is written in capitals; all else stands as it is, nothing is escaped.

    POST /payments
    Idempotency-Key: 619410b3
    the body …
-/

namespace RequestSigning.Payload

def newline : UInt8 := byte '\n'

/-- the method in capitals, a space, the path and a line feed -/
def requestLine (method path : String) : Bytes :=
  (Bytes.ofText method).map Text.upperByte ++ byte ' ' :: (Bytes.ofText path ++ [newline])

/-- the name, a colon, a space, the value and a line feed -/
def headerLine (header : String × Bytes) : Bytes :=
  Bytes.ofText header.1 ++ byte ':' :: byte ' ' :: (header.2 ++ [newline])

def build (method path : String) (headers : List (String × Bytes)) (body : Bytes) : Bytes :=
  requestLine method path ++ (headers.flatMap headerLine ++ body)

theorem build_nil (method path : String) (body : Bytes) :
    build method path [] body = requestLine method path ++ body := rfl

end RequestSigning.Payload
