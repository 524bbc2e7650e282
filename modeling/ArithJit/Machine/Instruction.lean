import ArithJit.Bytecode.Instruction
import ArithJit.Machine.Register

/-!
# Machine instructions

Instructions of the processor with at most two operands. A register operand starts out as a temporary
and is later given a register; fixed registers are no temporary at all. The kinds of the two operands
make up the form of an instruction; there are seven legal ones.
-/

namespace ArithJit.Machine

/-- What a machine instruction does. -/
inductive Opcode where
  /-- Nothing. -/
  | noop
  /-- Copy the second operand to the first. -/
  | mov
  /-- Add the second operand to the first. -/
  | add
  /-- Subtract the second operand from the first. -/
  | sub
  /-- Multiply the first operand by the second. -/
  | imul
  /-- Divide the accumulator by the operand. -/
  | idiv
  /-- Return to the caller. -/
  | ret
  /-- Push the operand on the stack. -/
  | push
  /-- Pop the operand from the stack. -/
  | pop
deriving DecidableEq, Repr

/-- The opcode as it is listed. -/
def Opcode.mnemonic : Opcode → String
  | noop => "noop"
  | mov => "mov"
  | add => "add"
  | sub => "sub"
  | imul => "imul"
  | idiv => "idiv"
  | ret => "ret"
  | push => "push"
  | pop => "pop"

/-- A register operand. -/
structure RegisterOperand where
  /-- The temporary that the operand stands for, if any. -/
  temp : Option Temp := none
  /-- The register that holds it, once it is known. -/
  register : Option Register := none
deriving DecidableEq, Repr

/-- An operand of a machine instruction. -/
inductive Operand where
  /-- No operand. -/
  | none
  /-- A register. -/
  | reg (operand : RegisterOperand)
  /-- The memory at a displacement from a base register. -/
  | mem (base : Register) (disp : Int32)
  /-- A constant. -/
  | imm (value : Int32)
deriving DecidableEq, Repr

namespace Operand

/-- A temporary that has no register yet. -/
def temp (t : Temp) : Operand :=
  .reg { temp := some t }

/-- A fixed register. -/
def fixed (r : Register) : Operand :=
  .reg { register := some r }

/-- Whether the operand is absent. -/
def isNone (o : Operand) : Bool :=
  o = none

/-- The register operand, if the operand is one. -/
def asRegister? : Operand → Option RegisterOperand
  | reg r => some r
  | _ => .none

/-- The temporary of a register operand that has one. -/
def temp? (o : Operand) : Option Temp :=
  o.asRegister?.bind RegisterOperand.temp

/-- The register of a register operand that has one. -/
def register? (o : Operand) : Option Register :=
  o.asRegister?.bind RegisterOperand.register

/-- The operand as it is listed: a register by its name if it has one, else by its temporary. -/
def text : Operand → String
  | none => ""
  | reg ⟨_, some r⟩ => r.text
  | reg ⟨some t, .none⟩ => "%" ++ t.text
  | reg ⟨.none, .none⟩ => "%?"
  | mem base disp =>
    if disp < 0 then s!"[{base.text}-{disp.toInt.natAbs}]" else s!"[{base.text}+{disp.toInt}]"
  | imm value => toString value.toInt

/-- The operand as fault messages show it. -/
def debugText : Operand → String
  | none => "None"
  | reg ⟨t, r⟩ =>
    "Register(X64RegOperand \x7b vreg: "
      ++ (match t with | some t => "Some(" ++ t.debugText ++ ")" | .none => "None")
      ++ ", phys: "
      ++ (match r with | some r => "Some(" ++ r.debugText ++ ")" | .none => "None")
      ++ " \x7d)"
  | mem base disp =>
    "Memory \x7b base: " ++ base.debugText ++ ", disp: " ++ toString disp.toInt ++ " \x7d"
  | imm value => s!"Immediate({value.toInt})"

end Operand

/-- The kinds of the operands of an instruction. -/
inductive Form where
  /-- No operands. -/
  | bare
  /-- A register. -/
  | r
  /-- A register and a register. -/
  | rr
  /-- A register and a memory operand. -/
  | rm
  /-- A memory operand and a register. -/
  | mr
  /-- A register and a constant. -/
  | ri
  /-- A memory operand and a constant. -/
  | mi
deriving DecidableEq, Repr

namespace Form

/-- The form of an instruction with these operands, if it is a legal one. -/
def ofOperands? : Operand → Operand → Option Form
  | .none, .none => some bare
  | .reg _, .none => some r
  | .reg _, .reg _ => some rr
  | .reg _, .mem .. => some rm
  | .mem .., .reg _ => some mr
  | .reg _, .imm _ => some ri
  | .mem .., .imm _ => some mi
  | _, _ => none

/-- Whether one of the operands is in memory. -/
def hasMemory : Form → Bool
  | rm | mr | mi => true
  | _ => false

/-- Whether one of the operands is a constant. -/
def hasImmediate : Form → Bool
  | ri | mi => true
  | _ => false

/-- The tag of a form with operands. -/
def tag? : Form → Option String
  | bare => none
  | r => some "R"
  | rr => some "RR"
  | rm => some "RM"
  | mr => some "MR"
  | ri => some "RI"
  | mi => some "MI"

/-- The form as fault messages show it. -/
def debugText (f : Form) : String :=
  match f.tag? with
  | some tag => "Some(" ++ tag ++ ")"
  | none => "None"

end Form

/-- A machine instruction. -/
structure Instruction where
  /-- What it does. -/
  opcode : Opcode
  /-- The first operand, which receives the result. -/
  op0 : Operand
  /-- The second operand. -/
  op1 : Operand
  /-- The form under which the instruction is encoded. -/
  form : Form
deriving DecidableEq, Repr

namespace Instruction

/-- An instruction without operands. -/
def nullary (opcode : Opcode) : Instruction :=
  ⟨opcode, .none, .none, .bare⟩

/-- An instruction on one fixed register. -/
def unary (opcode : Opcode) (r : Register) : Instruction :=
  ⟨opcode, .fixed r, .none, .r⟩

/-- The instruction as it is listed: the tag of its form in a column of five characters, the opcode and
the operands. -/
def text (i : Instruction) : String :=
  let tag := match i.form.tag? with | some tag => "(" ++ tag ++ ")" | none => ""
  tag ++ String.ofList (List.replicate (5 - tag.length) ' ')
    ++ i.opcode.mnemonic
    ++ (if i.op0.isNone then "" else " " ++ i.op0.text)
    ++ (if i.op1.isNone then "" else ", " ++ i.op1.text)

end Instruction

/-- The listing of a piece of machine code, one instruction a line. -/
def listing (code : List Instruction) : String :=
  "\n".intercalate (code.map Instruction.text)

end ArithJit.Machine
