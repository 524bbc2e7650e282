import ArithJit.Diagnostic
import ArithJit.Session

/-!
# The command line

The command takes a program as its first argument, prints everything on the way and the result, and
ends with the result as its exit code.
-/

namespace ArithJit.Command

/-- What a command has written and how it ended. -/
structure Outcome where
  /-- The exit code, between 0 and 255. -/
  exitCode : Nat
  /-- The standard output. -/
  output : String
  /-- What went to the standard error, or the fault that stopped the command. -/
  complaint : Except Fault String
deriving Repr

/-- The program that runs when none is given. -/
def defaultSource : String := "x = 10; x + 5;"

/-- The exit code of a result: its lowest eight bits. -/
def exitCode (n : Int32) : Nat :=
  n.toUInt32.toNat % 256

/-- The exit code of a command that a fault has stopped. -/
def faultCode : Nat := 101

/-- Runs the command. -/
def run (args : List String) : Outcome :=
  let source := args.head?.getD defaultSource
  let session := Session.new (.ofSettings [.dumpAll])
  let output := session.printed source
  match (session.run source).1 with
  | .ok report =>
    let result := report.result?.getD 0
    ⟨exitCode result, output ++ s!"-- result --\n{result.toInt}\n", .ok ""⟩
  | .error (.fault f) => ⟨faultCode, output, .error f⟩
  | .error (.error e) =>
    match Diagnostic.report e source with
    | .ok text => ⟨1, output, .ok text⟩
    | .error f => ⟨faultCode, output, .error f⟩

end ArithJit.Command
