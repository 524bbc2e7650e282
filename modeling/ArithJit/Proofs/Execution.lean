import ArithJit.Machine.Processor
import ArithJit.Proofs.Results

/-!
# Proofs: executing lists of instructions

Instructions are executed one after the other, up to the first return. Code that was not given registers
yet runs on a machine of its own (`Virtual`), which has one register for each temporary beside the
registers of the processor.
-/

namespace ArithJit.Machine

namespace Register

theorem number_injective {q r : Register} (h : q.number = r.number) : q = r := by
  rw [← ofNumber_number q, h, ofNumber_number]

end Register

namespace State

variable {s : State} {q r : Register} {v : Word}

@[simp]
theorem get_set_self (s : State) (r : Register) (v : Word) : (s.set r v).get r = v := by
  simp [get, set]

theorem get_set_of_ne (h : q ≠ r) : (s.set r v).get q = s.get q := by
  have hn : r.number.val ≠ q.number.val :=
    fun e => h (Register.number_injective (Fin.ext e.symm))
  simp [get, set, Vector.getElem_set_ne, hn]

theorem step?_mov {i : Instruction} (h : i.opcode = .mov) (s : State) :
    s.step? i = (s.value? i.isWide i.op1).bind (s.write? i.isWide · i.op0) := by
  simp only [step?, h]
  rfl

/-- Executes instructions up to the first return, or to the end of the code. -/
def exec? : List Instruction → State → Option State
  | [], s => some s
  | i :: rest, s => if i.opcode = .ret then some s else (s.step? i).bind (exec? rest)

theorem exec?_append {before after : List Instruction} (h : ∀ i ∈ before, i.opcode ≠ .ret) (s : State) :
    exec? (before ++ after) s = (exec? before s).bind (exec? after) := by
  induction before generalizing s with
  | nil => rfl
  | cons i rest ih =>
    have hi : i.opcode ≠ .ret := h i (by simp)
    have hrest : ∀ j ∈ rest, j.opcode ≠ .ret := fun j hj => h j (by simp [hj])
    simp only [List.cons_append, exec?, hi, if_false]
    cases s.step? i with
    | none => rfl
    | some s' => exact ih hrest s'

end State

/-- A machine with a register for each temporary. -/
structure Virtual where
  temps : Temp → Word
  /-- The registers and the memory of the processor. -/
  state : State

namespace Virtual

/-- The value of an operand; a temporary without a register has its own. -/
def value? (v : Virtual) (wide : Bool) : Operand → Option Word
  | .reg ⟨some t, none⟩ => some (v.temps t)
  | o => v.state.value? wide o

/-- Changes the register of a temporary. -/
def setTemp (v : Virtual) (t : Temp) (value : Word) : Virtual where
  temps u := if u = t then value else v.temps u
  state := v.state

/-- Writes a value to an operand. -/
def write? (v : Virtual) (wide : Bool) (value : Word) : Operand → Option Virtual
  | .reg ⟨some t, none⟩ => some (v.setTemp t (if wide then value else (value.setWidth 32).setWidth 64))
  | o => (v.state.write? wide value o).map fun s => { v with state := s }

/-- Combines the values of two operands and writes the result to the first one. -/
def combine? (v : Virtual) (i : Instruction) (f : Word → Word → Word) : Option Virtual := do
  let a ← v.value? i.isWide i.op0
  let b ← v.value? i.isWide i.op1
  v.write? i.isWide (f a b) i.op0

/-- Executes one instruction. There is no stack before there is a frame. -/
def step? (v : Virtual) (i : Instruction) : Option Virtual :=
  match i.opcode with
  | .noop => some v
  | .mov => do v.write? i.isWide (← v.value? i.isWide i.op1) i.op0
  | .add => v.combine? i (· + ·)
  | .sub => v.combine? i (· - ·)
  | .imul => v.combine? i (· * ·)
  | _ => none

theorem step?_mov {i : Instruction} (h : i.opcode = .mov) (v : Virtual) :
    v.step? i = (v.value? i.isWide i.op1).bind (v.write? i.isWide · i.op0) := by
  simp only [step?, h]
  rfl

/-- Executes instructions up to the first return, or to the end of the code. -/
def exec? : List Instruction → Virtual → Option Virtual
  | [], v => some v
  | i :: rest, v => if i.opcode = .ret then some v else (v.step? i).bind (exec? rest)

theorem exec?_append {before after : List Instruction} (h : ∀ i ∈ before, i.opcode ≠ .ret) (v : Virtual) :
    exec? (before ++ after) v = (exec? before v).bind (exec? after) := by
  induction before generalizing v with
  | nil => rfl
  | cons i rest ih =>
    have hi : i.opcode ≠ .ret := h i (by simp)
    have hrest : ∀ j ∈ rest, j.opcode ≠ .ret := fun j hj => h j (by simp [hj])
    simp only [List.cons_append, exec?, hi, if_false]
    cases v.step? i with
    | none => rfl
    | some v' => exact ih hrest v'

end Virtual

end ArithJit.Machine
