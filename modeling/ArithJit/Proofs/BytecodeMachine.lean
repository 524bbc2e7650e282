import ArithJit.Bytecode.Instruction
import Mathlib.Tactic.Common

/-!
# Proofs: executing bytecode

What bytecode computes. Each temporary is a variable, and so is each stack slot; an operand of the type
of a slot stands for the content of the slot. Words are 32 bits wide and wrap around. Running ends at the
first return, or at the end of the code.
-/

namespace ArithJit.Bytecode

/-- The contents of the temporaries and of the slots. -/
structure State where
  /-- The words in temporaries. -/
  words : Temp → Int32
  /-- The words in slots, each slot named by the temporary that holds its address. -/
  slots : Temp → Int32

namespace State

/-- The value of an operand. -/
def value? (s : State) : Operand → Option Int32
  | .none => none
  | .register t .word => some (s.words t)
  | .register t .slot => some (s.slots t)
  | .immediate n _ => some n

theorem exists_value? (s : State) {o : Operand} (h : o ≠ .none) : ∃ n, s.value? o = some n := by
  cases o with
  | none => exact absurd rfl h
  | immediate n ty => exact ⟨n, rfl⟩
  | register t ty => cases ty <;> exact ⟨_, rfl⟩

/-- Changes a word. -/
def setWord (s : State) (t : Temp) (n : Int32) : State :=
  { s with words := fun u => if u = t then n else s.words u }

/-- Changes the content of a slot. -/
def setSlot (s : State) (t : Temp) (n : Int32) : State :=
  { s with slots := fun u => if u = t then n else s.slots u }

/-- Writes a value to an operand. -/
def write? (s : State) (n : Int32) : Operand → Option State
  | .register t .word => some (s.setWord t n)
  | .register t .slot => some (s.setSlot t n)
  | _ => none

variable {s s' : State} {n : Int32} {o p : Operand}

/-- Only registers are written. -/
theorem write?_eq_some (h : s.write? n o = some s') : ∃ t ty, o = .register t ty := by
  cases o with
  | register t ty => exact ⟨t, ty, rfl⟩
  | none => simp [write?] at h
  | immediate m ty => simp [write?] at h

theorem write?_eq_none (h : s.write? n o = none) (m : Int32) : s.write? m o = none := by
  cases o with
  | register t ty => cases ty <;> simp [write?] at h
  | none => rfl
  | immediate m ty => rfl

theorem value?_write?_self (h : s.write? n o = some s') : s'.value? o = some n := by
  obtain ⟨t, ty, rfl⟩ := write?_eq_some h
  cases ty <;> simp only [write?, Option.some.injEq] at h <;> subst h <;>
    simp [value?, setWord, setSlot]

theorem value?_write?_of_ne (h : s.write? n o = some s') (hne : p ≠ o) : s'.value? p = s.value? p := by
  obtain ⟨t, ty, rfl⟩ := write?_eq_some h
  cases p with
  | none => rfl
  | immediate m ty' => rfl
  | register u ty' =>
    cases ty <;> cases ty' <;> simp only [write?, Option.some.injEq] at h <;> subst h
    · have hu : u ≠ t := fun e => hne (by rw [e])
      simp [value?, setWord, hu]
    · rfl
    · rfl
    · have hu : u ≠ t := fun e => hne (by rw [e])
      simp [value?, setSlot, hu]

/-- A second write makes up for the first one. -/
theorem write?_write? (h : s.write? n o = some s') (m : Int32) : s'.write? m o = s.write? m o := by
  obtain ⟨t, ty, rfl⟩ := write?_eq_some h
  cases ty <;> simp only [write?, Option.some.injEq] at h <;> subst h <;>
    simp only [write?, Option.some.injEq, setWord, setSlot, mk.injEq, true_and, and_true] <;>
    funext u <;> by_cases hu : u = t <;> simp [hu]

/-- Executes one instruction that is not a return. -/
def step? (s : State) (i : Instruction) : Option State :=
  match i.opcode with
  | .noop => some s
  | .push => some s
  | .load => do s.write? (← s.value? i.src0) i.dest
  | .store => do s.write? (← s.value? i.src1) i.src0
  | .arithmetic op => do
    let a ← s.value? i.src0
    let b ← s.value? i.src1
    s.write? (← op.apply? a b) i.dest
  | .ret => none

/-- Runs bytecode up to the first return, or to the end; the result has what is returned, if something
is. -/
def run? : List Instruction → State → Option (State × Option Int32)
  | [], s => some (s, none)
  | i :: rest, s => if i.opcode = .ret then some (s, s.value? i.src0) else (s.step? i).bind (run? rest)

/-- Executes bytecode in which nothing is returned. -/
def exec? (code : List Instruction) (s : State) : Option State :=
  code.foldlM step? s

theorem exec?_append_singleton (code : List Instruction) (i : Instruction) (s : State) :
    exec? (code ++ [i]) s = (exec? code s).bind (step? · i) := by
  simp [exec?, List.foldlM_append, Option.bind_eq_bind]

/-- Running starts by executing what stands before the first return. -/
theorem run?_of_exec? {code rest : List Instruction} {s s' : State} (h : exec? code s = some s') :
    run? (code ++ rest) s = run? rest s' := by
  induction code generalizing s with
  | nil =>
    obtain rfl : s = s' := by simpa [exec?] using h
    rfl
  | cons i code ih =>
    obtain ⟨u, hu, h⟩ : ∃ u, s.step? i = some u ∧ exec? code u = some s' := by
      simpa [exec?, List.foldlM_cons, Option.bind_eq_some_iff] using h
    have hret : i.opcode ≠ .ret := by
      intro hret
      simp [step?, hret] at hu
    rw [List.cons_append, run?, if_neg hret, hu]
    exact ih h

end State

end ArithJit.Bytecode
