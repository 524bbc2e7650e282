import ArithJit.Assoc
import ArithJit.Fault

/-!
# Selecting machine instructions

Bytecode becomes machine instructions over temporaries. A stack slot becomes memory below the frame
pointer, at a displacement that is fixed when the slot is reserved; an operator becomes a copy of its
left operand and a two-operand instruction. Division has no machine code here.
-/

namespace ArithJit.Machine

/-- An instruction with two operands of a legal form. -/
def Instruction.ofOperands (opcode : Opcode) (op0 op1 : Operand) : Except Fault Instruction :=
  match Form.ofOperands? op0 op1 with
  | some form => .ok ⟨opcode, op0, op1, form⟩
  | none => .error (.illegalOperands op0 op1)

/-- The most bytes that can lie below the frame pointer. -/
def stackLimit : Nat := 0x80000000

/-- Machine code under selection. -/
structure Selector where
  /-- The instructions so far. -/
  code : Array Instruction := #[]
  /-- The displacement of each slot, in the order in which the slots were reserved. -/
  slots : List (Temp × Int32) := []
  /-- The number of bytes that are reserved below the frame pointer. -/
  reserved : Nat := 0
deriving Repr

/-- A step of a selection, which may fail and keeps what was selected before. -/
abbrev Select (α : Type) := EStateM Failure Selector α

namespace Selector

/-- The selector without instructions. -/
def empty : Selector := {}

/-- The displacement of the end of the reserved bytes. -/
def stackPointer (s : Selector) : Int32 :=
  Int32.ofInt (-s.reserved)

/-- The size of the frame: the reserved bytes, rounded up to a multiple of sixteen. The result and the
numbers on the way to it have to be 32-bit integers. -/
def frameSize (s : Selector) : Except Fault Nat :=
  if stackLimit ≤ s.reserved then .error (.overflow .neg)
  else if stackLimit ≤ s.reserved + 15 then .error (.overflow .add)
  else .ok ((s.reserved + 15) / 16 * 16)

/-- Stops a selection with a fault. -/
def fault {α : Type} (f : Fault) : Select α :=
  throw (.fault f)

/-- Appends an instruction with two operands. -/
def emit (opcode : Opcode) (op0 op1 : Operand) : Select Unit := do
  match Instruction.ofOperands opcode op0 op1 with
  | .ok i => modify fun s => { s with code := s.code.push i }
  | .error f => fault f

/-- The machine operand for a bytecode operand. -/
def convert : Bytecode.Operand → Select Operand
  | .none => return .none
  | .register temp .slot => do
    match Assoc.find? temp (← get).slots with
    | some disp => return .mem .rbp disp
    | none => fault (.slotNotReserved temp)
  | .register temp .word => return .temp temp
  | .immediate value _ => return .imm value

/-- Reserves the bytes of a slot. -/
def reserve (dest size : Bytecode.Operand) : Select Unit := do
  match dest.temp? with
  | none => fault .pushWithoutDestination
  | some temp =>
    match size with
    | .immediate bytes _ =>
      if bytes ≤ 0 then
        fault (.pushSize size)
      let s ← get
      let reserved := s.reserved + bytes.toInt.toNat
      if stackLimit < reserved then
        fault (.overflow .sub)
      if Assoc.contains temp s.slots then
        fault (.slotReservedTwice temp)
      set { s with reserved, slots := Assoc.insert temp (Int32.ofInt (-reserved)) s.slots }
    | _ => fault (.pushSize size)

/-- The machine opcode of an arithmetic operator, if it has one. -/
def arithmeticOpcode? : Arithmetic → Option Opcode
  | .add => some .add
  | .sub => some .sub
  | .mul => some .imul
  | .div => none

/-- Selects the machine code of one bytecode instruction. -/
def step (i : Bytecode.Instruction) : Select Unit := do
  match i.opcode with
  | .noop => emit .noop .none .none
  | .push => reserve i.dest i.src0
  | .load =>
    let dest ← convert i.dest
    let src ← convert i.src0
    emit .mov dest src
  | .store =>
    let address ← convert i.src0
    let value ← convert i.src1
    emit .mov address value
  | .arithmetic op =>
    match arithmeticOpcode? op with
    | none => throw (.error (.unsupportedOperation op.text))
    | some opcode =>
      let dest ← convert i.dest
      let left ← convert i.src0
      let right ← convert i.src1
      emit .mov dest left
      emit opcode dest right
  | .ret =>
    if !i.src0.isNone then
      emit .mov (.fixed .rax) (← convert i.src0)
    emit .ret .none .none

/-- Selects the machine code of a piece of bytecode. -/
def steps : List Bytecode.Instruction → Select Unit
  | [] => return ()
  | i :: rest => do
    step i
    steps rest

end Selector

end ArithJit.Machine
