import ArithJit.Fault

/-!
# The pool of free registers

Six registers are given out to temporaries. The pool is a stack: the register that was given back last
is given out first.
-/

namespace ArithJit.Machine

/-- The registers that are given out, the first one first. -/
def allocatable : List Register :=
  [.rax, .rcx, .rdx, .rbx, .rsi, .rdi]

/-- The registers that are free. -/
structure Pool where
  /-- The free registers, the next one to be given out first. -/
  free : List Register := allocatable
deriving DecidableEq, Repr

namespace Pool

/-- The pool in which all registers are free. -/
def full : Pool := {}

/-- The number of registers that a pool manages. -/
def capacity : Nat :=
  allocatable.length

/-- The number of free registers. -/
def available (p : Pool) : Nat :=
  p.free.length

/-- Whether a register is free. -/
def isFree (p : Pool) (r : Register) : Bool :=
  r ∈ p.free

/-- Takes a register, if one is free. -/
def take? (p : Pool) : Option (Register × Pool) :=
  match p.free with
  | [] => none
  | r :: rest => some (r, ⟨rest⟩)

/-- Gives a register back. -/
def give (p : Pool) (r : Register) : Except Fault Pool :=
  if r ∉ allocatable then .error (.unmanagedRegister r)
  else if r ∈ p.free then .error (.freedTwice r)
  else .ok ⟨r :: p.free⟩

end Pool

end ArithJit.Machine
