import ArithJit.Fault
import ArithJit.Machine.Code

/-!
# Encoding instructions

An instruction becomes an opcode, a byte that names its operands, and the displacement and the constant
of the operands that have one. A prefix byte makes the instruction work on 64 bits; it is written
exactly if a frame register is an operand. Pushing and popping name their register in the opcode.
-/

namespace ArithJit.Machine

/-- How the bytes of an instruction are made. -/
inductive Pattern where
  /-- The opcode is the whole instruction. -/
  | fixed (opcode : UInt8)
  /-- The number of the register is added to the opcode. -/
  | plus (opcode : UInt8)
  /-- The register field names the first operand, the other field the second. -/
  | toRegister (opcode : List UInt8)
  /-- The register field names the second operand, the other field the first. -/
  | fromRegister (opcode : List UInt8)
  /-- The register field extends the opcode, the other field names the first operand. -/
  | extended (opcode : UInt8) (extension : Fin 8)
  /-- Both fields name the first operand. -/
  | repeated (opcode : UInt8)
deriving DecidableEq, Repr

/-- The pattern of an opcode with operands of a form, if there is such an instruction. -/
def pattern? : Opcode → Form → Option Pattern
  | .mov, .mr => some (.fromRegister [0x89])
  | .mov, .rr => some (.toRegister [0x8B])
  | .mov, .rm => some (.toRegister [0x8B])
  | .mov, .ri => some (.extended 0xC7 (octalDigit 0))
  | .mov, .mi => some (.extended 0xC7 (octalDigit 0))
  | .add, .mr => some (.fromRegister [0x01])
  | .add, .rr => some (.toRegister [0x03])
  | .add, .rm => some (.toRegister [0x03])
  | .add, .ri => some (.extended 0x81 (octalDigit 0))
  | .add, .mi => some (.extended 0x81 (octalDigit 0))
  | .sub, .mr => some (.fromRegister [0x29])
  | .sub, .rr => some (.toRegister [0x2B])
  | .sub, .rm => some (.toRegister [0x2B])
  | .sub, .ri => some (.extended 0x81 (octalDigit 5))
  | .sub, .mi => some (.extended 0x81 (octalDigit 5))
  | .imul, .rr => some (.toRegister [0x0F, 0xAF])
  | .imul, .rm => some (.toRegister [0x0F, 0xAF])
  | .imul, .ri => some (.repeated 0x69)
  | .idiv, .r => some (.extended 0xF7 (octalDigit 7))
  | .push, .r => some (.plus 0x50)
  | .pop, .r => some (.plus 0x58)
  | .ret, .bare => some (.fixed 0xC3)
  | .noop, .bare => some (.fixed 0x90)
  | _, _ => none

/-- The byte that makes an instruction work on 64 bits. -/
def widePrefix : UInt8 := 0x48

/-- Whether an instruction works on 64 bits, which is when a frame register is an operand. -/
def Instruction.isWide (i : Instruction) : Bool :=
  i.op0.register?.any Register.isFrame || i.op1.register?.any Register.isFrame

namespace Operand

/-- The register of a register operand. -/
def encodedRegister : Operand → Except Fault Register
  | .reg ⟨_, some r⟩ => .ok r
  | .reg ⟨t, .none⟩ => .error (.unallocated (.reg ⟨t, .none⟩))
  | o => .error (.expectedRegister o)

/-- The register that names an operand: the register itself, or the base of a memory operand. -/
def encodedBase : Operand → Except Fault Register
  | .mem .rsp _ => .error .stackPointerBase
  | .mem base _ => .ok base
  | o => o.encodedRegister

/-- The displacement of a memory operand. -/
def encodedDisplacement : Operand → Except Fault (List UInt8)
  | .mem _ disp => .ok (littleEndian disp)
  | o => .error (.expectedMemory o)

/-- The constant of a constant operand. -/
def encodedImmediate : Operand → Except Fault (List UInt8)
  | .imm value => .ok (littleEndian value)
  | o => .error (.expectedImmediate o)

end Operand

namespace Instruction

/-- The prefix of an instruction. -/
def encodedPrefix (i : Instruction) : List UInt8 :=
  if i.isWide then [widePrefix] else []

/-- The byte that names the operands: two bits for memory or register, and two fields. -/
def operandByte (form : Form) (register base : Fin 8) : UInt8 :=
  byte ((if form.hasMemory then 2 else 3) * 64 + register.val * 8 + base.val)

/-- The displacement and the constant of an instruction. -/
def encodedTrailer (i : Instruction) : Except Fault (List UInt8) := do
  let displacement ←
    match i.form with
    | .mr | .mi => i.op0.encodedDisplacement
    | .rm => i.op1.encodedDisplacement
    | _ => .ok []
  let immediate ← if i.form.hasImmediate then i.op1.encodedImmediate else .ok []
  return displacement ++ immediate

/-- The bytes of an instruction with an operand byte. -/
def encodedWith (i : Instruction) (opcode : List UInt8) (register base : Fin 8) :
    Except Fault (List UInt8) := do
  return i.encodedPrefix ++ opcode ++ operandByte i.form register base :: (← i.encodedTrailer)

/-- The bytes of an instruction. -/
def encode (i : Instruction) : Except Fault (List UInt8) := do
  match pattern? i.opcode i.form with
  | none => .error (.noEncoding i.opcode i.form)
  | some (.fixed opcode) => return i.encodedPrefix ++ [opcode]
  | some (.plus opcode) => return [opcode + byte (← i.op0.encodedRegister).number]
  | some (.toRegister opcode) =>
    let register ← i.op0.encodedRegister
    let base ← i.op1.encodedBase
    i.encodedWith opcode register.number base.number
  | some (.fromRegister opcode) =>
    let register ← i.op1.encodedRegister
    let base ← i.op0.encodedBase
    i.encodedWith opcode register.number base.number
  | some (.extended opcode extension) =>
    let base ← i.op0.encodedBase
    i.encodedWith [opcode] extension base.number
  | some (.repeated opcode) =>
    let register ← i.op0.encodedRegister
    i.encodedWith [opcode] register.number register.number

end Instruction

/-- The bytes of a piece of code. -/
def encodeAll : List Instruction → Except Fault (List UInt8)
  | [] => .ok []
  | i :: rest => do
    let first ← i.encode
    return first ++ (← encodeAll rest)

/-- The machine code of a list of instructions. -/
def Code.ofInstructions (code : List Instruction) : Except Fault Code := do
  return ⟨← encodeAll code⟩

end ArithJit.Machine
