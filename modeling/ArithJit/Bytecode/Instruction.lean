import ArithJit.Operator

/-!
# Bytecode

Three-address code over temporaries. A temporary is defined once; it holds either a 32-bit word or
the address of a stack slot that holds one. An instruction has a destination and two sources, any of
which may be absent.
-/

namespace ArithJit

/-- A temporary: a register of which there are as many as needed. -/
structure Temp where
  /-- The number of the temporary. -/
  index : Nat
deriving DecidableEq, Repr

namespace Temp

/-- The temporary as it is listed. -/
def text (t : Temp) : String :=
  s!"r{t.index}"

/-- The temporary as fault messages show it. -/
def debugText (t : Temp) : String :=
  s!"VReg({t.index})"

end Temp

namespace Bytecode

/-- What an operand holds. -/
inductive Ty where
  /-- A signed 32-bit word. -/
  | word
  /-- The address of a stack slot for such a word. -/
  | slot
deriving DecidableEq, Repr

namespace Ty

/-- Whether the operand is an address. -/
def isPointer (ty : Ty) : Bool :=
  ty = slot

/-- The size in bytes of the word, or of the word in the slot. -/
def size : Ty → Int32
  | word => 4
  | slot => 4

/-- The type as it is listed. -/
def text : Ty → String
  | word => "s32"
  | slot => "s32*"

/-- The type as fault messages show it. -/
def debugText : Ty → String
  | word => "S32"
  | slot => "S32Ptr"

end Ty

/-- An operand of a bytecode instruction. -/
inductive Operand where
  /-- No operand. -/
  | none
  /-- A temporary. -/
  | register (temp : Temp) (ty : Ty)
  /-- A constant. -/
  | immediate (value : Int32) (ty : Ty)
deriving DecidableEq, Repr

namespace Operand

/-- The type of the operand, if there is one. -/
def ty? : Operand → Option Ty
  | none => .none
  | register _ ty => some ty
  | immediate _ ty => some ty

/-- Whether the operand is absent. -/
def isNone (o : Operand) : Bool :=
  o = none

/-- Whether the operand is the address of a stack slot. -/
def isPointer (o : Operand) : Bool :=
  o.ty? = some .slot

/-- The temporary that the operand is, if it is one. -/
def temp? : Operand → Option Temp
  | register temp _ => some temp
  | _ => .none

/-- The operand as it is listed. -/
def text : Operand → String
  | none => ""
  | register temp ty => ty.text ++ " " ++ temp.text
  | immediate value ty => s!"{ty.text} {value.toInt}"

/-- The operand as fault messages show it. -/
def debugText : Operand → String
  | none => "None"
  | register temp ty => "Register \x7b id: " ++ temp.debugText ++ ", ty: " ++ ty.debugText ++ " \x7d"
  | immediate value ty =>
    "Immediate \x7b value: " ++ toString value.toInt ++ ", ty: " ++ ty.debugText ++ " \x7d"

end Operand

/-- What a bytecode instruction does. -/
inductive Opcode where
  /-- Nothing. -/
  | noop
  /-- Reserve a stack slot. -/
  | push
  /-- Read a stack slot. -/
  | load
  /-- Write a stack slot. -/
  | store
  /-- Compute a word from two words. -/
  | arithmetic (op : Arithmetic)
  /-- Return a value. -/
  | ret
deriving DecidableEq, Repr

namespace Opcode

/-- The opcode as it is listed. -/
def mnemonic : Opcode → String
  | noop => "noop"
  | push => "push"
  | load => "load"
  | store => "store"
  | arithmetic .add => "add"
  | arithmetic .sub => "sub"
  | arithmetic .mul => "mul"
  | arithmetic .div => "div"
  | ret => "return"

/-- Whether the opcode computes a word from two words. -/
def isArithmetic : Opcode → Bool
  | arithmetic _ => true
  | _ => false

end Opcode

/-- A bytecode instruction. -/
structure Instruction where
  /-- What it does. -/
  opcode : Opcode
  /-- Where the result goes. -/
  dest : Operand := .none
  /-- The first source. -/
  src0 : Operand := .none
  /-- The second source. -/
  src1 : Operand := .none
deriving DecidableEq, Repr

/-- The instruction as it is listed: `dest = opcode src0, src1`, without the parts that are absent. -/
def Instruction.text (i : Instruction) : String :=
  (if i.dest.isNone then "" else i.dest.text ++ " = ")
    ++ i.opcode.mnemonic
    ++ (if i.src0.isNone then "" else " " ++ i.src0.text)
    ++ (if i.src1.isNone then "" else ", " ++ i.src1.text)

/-- The listing of a piece of bytecode, one instruction a line. -/
def listing (code : List Instruction) : String :=
  "\n".intercalate (code.map Instruction.text)

end Bytecode

end ArithJit
