import ArithJit.Assoc
import ArithJit.Fault
import ArithJit.Syntax.Forest

/-!
# Building bytecode

A builder appends instructions and never changes one. Each name gets a stack slot the first time it is
met and keeps it; scopes play no role. The result of a name or of an assignment is the slot, which is
read into a fresh temporary only where its value is needed. The left operand of an operator is read
before the right operand is built. Each block that is not empty ends with a return of its last result.
-/

namespace ArithJit.Bytecode

/-- Bytecode under construction. -/
structure Builder where
  /-- The instructions so far. -/
  code : Array Instruction := #[]
  /-- The slot of each name, in the order in which the names were met. -/
  locals : List (Symbol × Operand) := []
  /-- The number of temporaries so far. -/
  temps : Nat := 0
deriving Repr

/-- A step of a builder, which may fault and keeps what was built before. -/
abbrev Build (α : Type) := EStateM Fault Builder α

namespace Builder

/-- The builder without instructions. -/
def empty : Builder := {}

/-- Appends an instruction. -/
def emit (i : Instruction) : Build Unit :=
  modify fun b => { b with code := b.code.push i }

/-- A temporary that was not used before. Its number is meant to fit in 32 bits, and code with more than
`2 ^ 32` temporaries is left out. -/
def fresh (ty : Ty) : Build Operand := do
  let b ← get
  set { b with temps := b.temps + 1 }
  return .register ⟨b.temps⟩ ty

/-- Reserves a stack slot for a word. -/
def push : Build Operand := do
  let dest ← fresh .slot
  emit { opcode := .push, dest, src0 := .immediate Ty.word.size .slot }
  return dest

/-- Reads a slot into a fresh temporary; any other operand is its own value. -/
def load (src : Operand) : Build Operand := do
  if src.isPointer then
    let dest ← fresh .word
    emit { opcode := .load, dest, src0 := src }
    return dest
  else
    return src

/-- Writes a value to a slot. -/
def store (address value : Operand) : Build Unit :=
  emit { opcode := .store, src0 := address, src1 := value }

/-- Computes a word from two words. -/
def arithmetic (op : Arithmetic) (left right : Operand) : Build Operand := do
  let dest ← fresh .word
  emit { opcode := .arithmetic op, dest, src0 := left, src1 := right }
  return dest

/-- Computes a word from two words by an opcode, which has to be an arithmetic one. -/
def binary (opcode : Opcode) (left right : Operand) : Build Operand :=
  match opcode with
  | .arithmetic op => arithmetic op left right
  | _ => throw (.notArithmetic opcode)

/-- Returns a value. -/
def ret (value : Operand) : Build Unit :=
  emit { opcode := .ret, src0 := value }

/-- The slot of a name. -/
def slotOf (symbol : Symbol) : Build Operand := do
  match Assoc.find? symbol (← get).locals with
  | some slot => return slot
  | none =>
    let slot ← push
    modify fun b => { b with locals := Assoc.insert symbol slot b.locals }
    return slot

/-- Gives a name an initial value. -/
def bind (symbol : Symbol) (value : Int32) : Build Operand := do
  let slot ← slotOf symbol
  store slot (.immediate value .word)
  return slot

/-- Builds a node, going down a number of levels; the result is the operand that holds its value, or
the slot that does. -/
def nodeWithin (f : Forest) : Nat → NodeId → Build Operand
  | 0, _ => throw .tooDeep
  | levels + 1, id =>
    match f.get? id with
    | none => throw (.missingNode id.index)
    | some (.literal (.integer n)) => return .immediate n .word
    | some (.literal value) => throw (.nonIntegerLiteral value)
    | some (.name symbol) => slotOf symbol
    | some (.binary left .assign right) => do
      let target ← nodeWithin f levels left
      if !target.isPointer then
        throw (.notASlot target)
      let value ← load (← nodeWithin f levels right)
      store target value
      return target
    | some (.binary left (.arithmetic op) right) => do
      let a ← load (← nodeWithin f levels left)
      let b ← load (← nodeWithin f levels right)
      arithmetic op a b
    | some (.block []) => return .none
    | some (.block children) => do
      let last ← children.foldlM (fun _ child => nodeWithin f levels child) .none
      ret last
      return last

/-- Builds a node. -/
def node (f : Forest) (id : NodeId) : Build Operand :=
  nodeWithin f f.levels id

/-- The instructions so far, as a list. -/
def instructions (b : Builder) : List Instruction :=
  b.code.toList

end Builder

end ArithJit.Bytecode
