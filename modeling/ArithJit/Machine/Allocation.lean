import ArithJit.Assoc
import ArithJit.Machine.Pool

/-!
# Giving registers to temporaries

One pass over the code, without spilling. The first operand of an instruction may define a temporary,
which then takes a register from the pool; the second operand is always read, so its temporary has to
be defined. After the instruction in which a temporary occurs for the last time, its register goes
back to the pool.
-/

namespace ArithJit.Machine

/-- What an allocation decided. -/
structure Allocation where
  /-- The register of each temporary, in the order in which they were first defined. -/
  assignments : List (Temp × Register) := []
  /-- The largest number of temporaries that hold a register at the same time. -/
  maxPressure : Nat := 0
deriving DecidableEq, Repr

/-- The registers that were given out and that a function has to restore, in the order of their
numbers. -/
def Allocation.calleeSaved (a : Allocation) : List Register :=
  Register.all.filter fun r => r.isCalleeSaved && a.assignments.any (·.2 = r)

/-- Whether an operand is a temporary, with or without a register. -/
def Operand.isTemp (o : Operand) (t : Temp) : Bool :=
  match o with
  | .reg ⟨some u, _⟩ => u = t
  | _ => false

/-- A temporary occurs in an instruction if one of the operands is it. -/
def Instruction.mentions (i : Instruction) (t : Temp) : Bool :=
  i.op0.isTemp t || i.op1.isTemp t

/-- The free registers, and the temporaries that hold the others. -/
structure Allocator where
  /-- The free registers. -/
  pool : Pool := .full
  /-- The temporaries that hold a register. -/
  live : List (Temp × Register) := []
deriving DecidableEq, Repr

namespace Allocator

/-- The allocator in which all registers are free. -/
def fresh : Allocator := {}

/-- The register of a temporary that an instruction may define, taken from the pool if the temporary
holds none. -/
def define (a : Allocator) (n : Allocation) (t : Temp) :
    Except Fault (Register × Allocator × Allocation) :=
  match Assoc.find? t a.live with
  | some r => .ok (r, a, n)
  | none =>
    match a.pool.take? with
    | none => .error (.outOfRegisters t a.live.length)
    | some (r, pool) =>
      .ok (r, ⟨pool, Assoc.insert t r a.live⟩,
        { n with assignments := Assoc.insert t r n.assignments })

/-- Gives the first operand of an instruction its register, unless it has one. -/
def assignFirst (a : Allocator) (n : Allocation) :
    Operand → Except Fault (Operand × Allocator × Allocation)
  | .reg ⟨some t, none⟩ => do
    let (r, a, n) ← a.define n t
    return (.reg ⟨some t, some r⟩, a, n)
  | o => .ok (o, a, n)

/-- Gives the second operand of an instruction the register that its temporary holds. -/
def assignSecond (a : Allocator) : Operand → Except Fault Operand
  | .reg ⟨some t, _⟩ =>
    match Assoc.find? t a.live with
    | some r => .ok (.reg ⟨some t, some r⟩)
    | none => .error (.undefinedTemp t)
  | o => .ok o

/-- Gives back the register of an operand's temporary, if the temporary does not occur in the rest of
the code. -/
def release (a : Allocator) (rest : List Instruction) (o : Operand) : Except Fault Allocator :=
  match o.temp? with
  | none => .ok a
  | some t =>
    if rest.any (·.mentions t) then .ok a
    else
      match Assoc.find? t a.live with
      | none => .ok a
      | some r => do
        let pool ← a.pool.give r
        return ⟨pool, Assoc.erase t a.live⟩

/-- Gives the operands of one instruction their registers; `rest` is the code after it. -/
def step (a : Allocator) (n : Allocation) (i : Instruction) (rest : List Instruction) :
    Except Fault (Instruction × Allocator × Allocation) := do
  let (op0, a, n) ← a.assignFirst n i.op0
  let op1 ← a.assignSecond i.op1
  let n := { n with maxPressure := max n.maxPressure a.live.length }
  let a ← a.release rest op0
  let a ← a.release rest op1
  return ({ i with op0, op1 }, a, n)

/-- Gives the operands of a piece of code their registers, after what was decided before it. -/
def allocateFrom (a : Allocator) (n : Allocation) :
    List Instruction → Except Fault (List Instruction × Allocator × Allocation)
  | [] => .ok ([], a, n)
  | i :: rest => do
    let (i, a, n) ← a.step n i rest
    let (rest, a, n) ← allocateFrom a n rest
    return (i :: rest, a, n)

/-- Gives the operands of a piece of code their registers. -/
def allocate (a : Allocator) (code : List Instruction) :
    Except Fault (List Instruction × Allocator × Allocation) :=
  a.allocateFrom {} code

end Allocator

end ArithJit.Machine
