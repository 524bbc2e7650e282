import ArithJit.Machine.Allocation
import ArithJit.Machine.Encoding
import ArithJit.Machine.Frame
import ArithJit.Machine.Selection

/-!
# Functions

Bytecode becomes a function in three passes: instructions are selected, temporaries are given
registers, and the code is put into a frame that restores the registers it uses.
-/

namespace ArithJit.Machine

/-- The machine code of a function, with its frame. -/
structure Function where
  /-- The instructions. -/
  code : List Instruction
  /-- The size of the frame in bytes. -/
  frameSize : Nat
  /-- The registers that the temporaries were given. -/
  allocation : Allocation
deriving DecidableEq, Repr

/-- The selector after a piece of bytecode. -/
def select (bytecode : List Bytecode.Instruction) : Except Failure Selector :=
  match (Selector.steps bytecode).run .empty with
  | .ok _ s => .ok s
  | .error e _ => .error e

/-- Gives a selected piece of code registers and a frame. -/
def Selector.toFunction (s : Selector) : Except Fault Function := do
  let frameSize ← s.frameSize
  let (code, _, allocation) ← Allocator.fresh.allocate s.code.toList
  return ⟨insertFrame code (Int32.ofNat frameSize) allocation.calleeSaved, frameSize, allocation⟩

namespace Function

/-- The function that a piece of bytecode becomes. -/
def ofBytecode (bytecode : List Bytecode.Instruction) : Except Failure Function := do
  let s ← select bytecode
  Failure.ofFault s.toFunction

/-- The bytes of a function. -/
def encode (f : Function) : Except Fault Code :=
  Code.ofInstructions f.code

end Function

end ArithJit.Machine
