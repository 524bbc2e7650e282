import ArithJit.Command

/-!
# The executable
-/

/-- Runs the command and writes what it has to say. -/
def main (args : List String) : IO UInt32 := do
  let outcome := ArithJit.Command.run args
  IO.print outcome.output
  match outcome.complaint with
  | .ok text => IO.eprint text
  | .error fault => IO.eprintln fault.message
  return UInt32.ofNat outcome.exitCode
