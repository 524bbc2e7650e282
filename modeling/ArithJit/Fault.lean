import ArithJit.Error
import ArithJit.Machine.Instruction
import ArithJit.Value

/-!
# Faults

A `Fault` is not the program's error: an invariant of the compiler is broken, or a number has left the
range of the machine. Most faults cannot come out of the passes when they are run one after the other;
they show that a pass was given something that no earlier pass produces. A `Failure` is either an error
of the program or a fault.
-/

namespace ArithJit

/-- A checked arithmetic operation. -/
inductive CheckedOperation where
  /-- Addition. -/
  | add
  /-- Subtraction. -/
  | sub
  /-- Multiplication. -/
  | mul
  /-- Change of sign. -/
  | neg
deriving DecidableEq, Repr

/-- The operation as a verb. -/
def CheckedOperation.verb : CheckedOperation → String
  | add => "add"
  | sub => "subtract"
  | mul => "multiply"
  | neg => "negate"

/-- What went wrong inside the compiler. -/
inductive Fault where
  /-- A number left its range. -/
  | overflow (operation : CheckedOperation)
  /-- A text of a length that memory cannot hold was asked for. -/
  | capacity
  /-- There is no element with this index. -/
  | indexOutOfBounds (length index : Nat)
  /-- A range of elements starts after the last of them. -/
  | rangeStartOutOfBounds (length start : Nat)
  /-- A range of elements ends after the last of them. -/
  | rangeEndOutOfBounds (length stop : Nat)
  /-- An integer token holds a character that is no digit. -/
  | notADigit
  /-- The forest has no node with this number. -/
  | missingNode (index : Nat)
  /-- A visit of the forest went down too many levels. -/
  | tooDeep
  /-- A literal that bytecode cannot express. -/
  | nonIntegerLiteral (value : Value)
  /-- An assignment to an operand that is no stack slot. -/
  | notASlot (target : Bytecode.Operand)
  /-- An opcode that does not compute a word from two words. -/
  | notArithmetic (opcode : Bytecode.Opcode)
  /-- A reservation that names no temporary. -/
  | pushWithoutDestination
  /-- A reservation of no bytes. -/
  | pushSize (size : Bytecode.Operand)
  /-- A slot that is reserved a second time. -/
  | slotReservedTwice (slot : Temp)
  /-- A slot that is used before it is reserved. -/
  | slotNotReserved (slot : Temp)
  /-- Operands that no instruction has. -/
  | illegalOperands (op0 op1 : Machine.Operand)
  /-- A register that the pool does not manage. -/
  | unmanagedRegister (register : Machine.Register)
  /-- A register that is given back a second time. -/
  | freedTwice (register : Machine.Register)
  /-- All registers are taken. -/
  | outOfRegisters (temp : Temp) (live : Nat)
  /-- A temporary that is read before it is defined. -/
  | undefinedTemp (temp : Temp)
  /-- An instruction that has no encoding. -/
  | noEncoding (opcode : Machine.Opcode) (form : Machine.Form)
  /-- A register operand that was given no register. -/
  | unallocated (operand : Machine.Operand)
  /-- Another operand stands where a register has to be. -/
  | expectedRegister (operand : Machine.Operand)
  /-- Another operand stands where a memory operand has to be. -/
  | expectedMemory (operand : Machine.Operand)
  /-- Another operand stands where a constant has to be. -/
  | expectedImmediate (operand : Machine.Operand)
  /-- A memory operand whose base is the stack pointer. -/
  | stackPointerBase
  /-- The processor met bytes that it cannot execute. -/
  | illegalInstruction
deriving DecidableEq, Repr

namespace Fault

/-- The wording of a broken invariant. -/
def broken (what : String) : String :=
  s!"JITC internal error: {what}! Aborting..."

/-- The wording of a fault. -/
def message : Fault → String
  | overflow operation => s!"attempt to {operation.verb} with overflow"
  | capacity => "capacity overflow"
  | indexOutOfBounds length index =>
    s!"index out of bounds: the len is {length} but the index is {index}"
  | rangeStartOutOfBounds length start =>
    s!"range start index {start} out of range for slice of length {length}"
  | rangeEndOutOfBounds length stop =>
    s!"range end index {stop} out of range for slice of length {length}"
  | notADigit => "internal error: entered unreachable code: tokenizer only emits digits"
  | missingNode index => broken s!"AST node NodeId({index}) does not exist"
  | tooDeep => "stack overflow"
  | nonIntegerLiteral value => broken s!"cannot lower non-integer literal `{value.text}`"
  | notASlot target => broken s!"assignment target {target.debugText} is not a stack slot"
  | notArithmetic opcode => broken s!"`{opcode.mnemonic}` is not a binary arithmetic opcode"
  | pushWithoutDestination => broken "push without a destination register"
  | pushSize size => broken s!"push needs a positive size, got {size.debugText}"
  | slotReservedTwice slot => broken s!"stack slot for {slot.text} reserved twice"
  | slotNotReserved slot => broken s!"stack slot {slot.text} used before it was pushed"
  | illegalOperands op0 op1 =>
    broken s!"illegal x64 operand combination `{op0.debugText}`, `{op1.debugText}`"
  | unmanagedRegister register =>
    broken s!"register {register.text} is not managed by the allocation pool"
  | freedTwice register => broken s!"register {register.text} freed twice"
  | outOfRegisters temp live =>
    broken s!"ran out of physical registers while allocating {temp.text} ({live} live, no spilling)"
  | undefinedTemp temp => broken s!"virtual register {temp.text} is read before it is defined"
  | noEncoding opcode form =>
    broken s!"no encoding for `{opcode.mnemonic}` with operand form {form.debugText}"
  | unallocated operand => broken s!"register operand {operand.text} reached the encoder unallocated"
  | expectedRegister operand => broken s!"expected register operand, got {operand.debugText}"
  | expectedMemory operand => broken s!"expected memory operand, got {operand.debugText}"
  | expectedImmediate operand => broken s!"expected immediate operand, got {operand.debugText}"
  | stackPointerBase => broken "rsp-based memory operands need a SIB byte"
  | illegalInstruction => "illegal instruction"

end Fault

/-- Why a pass gave no result. -/
inductive Failure where
  /-- The program is wrong. -/
  | error (error : Error)
  /-- The compiler is wrong, or the machine is too small. -/
  | fault (fault : Fault)
deriving DecidableEq, Repr

namespace Failure

/-- The wording of a failure. -/
def message : Failure → String
  | error e => e.message
  | fault f => f.message

/-- A result that can only be spoilt by a fault, as one that can fail. -/
def ofFault {α : Type} : Except Fault α → Except Failure α
  | .ok a => .ok a
  | .error f => .error (.fault f)

end Failure

end ArithJit
