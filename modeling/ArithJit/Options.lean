/-!
# Options of a run

What a run prints on its way, and which of its two results it computes.
-/

namespace ArithJit

/-- The options of a run. -/
structure Options where
  /-- Print the bytecode. -/
  dumpBytecode : Bool := false
  /-- Print the machine instructions. -/
  dumpInstructions : Bool := false
  /-- Print the machine code. -/
  dumpCode : Bool := false
  /-- Call the machine code. -/
  execute : Bool := true
  /-- Evaluate the program too, and compare. -/
  crossCheck : Bool := true
deriving DecidableEq, Repr

namespace Options

/-- A change of the options. -/
inductive Setting where
  /-- Print the bytecode or not. -/
  | dumpBytecode (on : Bool)
  /-- Print the machine instructions or not. -/
  | dumpInstructions (on : Bool)
  /-- Print the machine code or not. -/
  | dumpCode (on : Bool)
  /-- Print all three. -/
  | dumpAll
  /-- Call the machine code or not. -/
  | execute (on : Bool)
  /-- Evaluate the program too or not. -/
  | crossCheck (on : Bool)
deriving DecidableEq, Repr

/-- Changes the options. -/
def set (o : Options) : Setting → Options
  | .dumpBytecode on => { o with dumpBytecode := on }
  | .dumpInstructions on => { o with dumpInstructions := on }
  | .dumpCode on => { o with dumpCode := on }
  | .dumpAll => { o with dumpBytecode := true, dumpInstructions := true, dumpCode := true }
  | .execute on => { o with execute := on }
  | .crossCheck on => { o with crossCheck := on }

/-- The options after some changes of the default; the last change of an option counts. -/
def ofSettings (settings : List Setting) : Options :=
  settings.foldl set {}

end Options

end ArithJit
