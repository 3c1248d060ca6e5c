import RequestSigning.Inspect

/-!
# The command

`inspect` prints the claims of the token in its first argument, and fails without a word on its
standard output if there is none or it cannot be read.
-/

open RequestSigning

def main (args : List String) : IO UInt32 := do
  let outcome := inspectCommand args
  IO.print outcome.output
  if outcome.success then return 0
  else
    IO.eprintln "a signature token is expected as the first argument"
    return 1
