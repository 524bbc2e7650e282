import ArithJit.Proofs.Execution
import ArithJit.Proofs.MemoryCells

/-!
# Proofs: what instructions write to memory

An instruction writes at most one cell of memory, which its first operand or the stack pointer tells. All
other bytes stay. `Executes P code s t` says that code is executed from `s` to `t` without a return, and
that `P` holds of every state on the way and the instruction that is executed in it; with a `P` that
confines the cells that are written, the bytes outside stay during the whole execution.
-/

namespace ArithJit.Machine

/-! ## Addresses that do not wrap around -/

section Addresses

variable {x a : Word} {d e k : Nat}

theorem below_eq_sub (x : Word) (d : Nat) : below x d = x - BitVec.ofNat 64 d := by
  rw [below, BitVec.ofInt_neg, BitVec.ofInt_natCast, BitVec.sub_eq_add_neg]

theorem below_below (x : Word) (d e : Nat) : below (below x d) e = below x (d + e) := by
  rw [below_eq_sub, below_eq_sub, below_eq_sub, BitVec.sub_sub, BitVec.ofNat_add]

theorem toNat_below (h : d ≤ x.toNat) : (below x d).toNat = x.toNat - d := by
  have hx := x.isLt
  have hd : d % 2 ^ 64 = d := Nat.mod_eq_of_lt (by omega)
  rw [below_eq_sub, BitVec.toNat_sub, BitVec.toNat_ofNat, hd]
  omega

/-- The bytes of a cell have the addresses from its start on. -/
theorem toNat_cell {i : Nat} (hi : i < k) (hk : x.toNat + k ≤ 2 ^ 64) (ha : a = x + BitVec.ofNat 64 i) :
    x.toNat ≤ a.toNat ∧ a.toNat < x.toNat + k := by
  have hn : a.toNat = x.toNat + i := by
    rw [ha, BitVec.toNat_add, BitVec.toNat_ofNat, Nat.mod_eq_of_lt (by omega : i < 2 ^ 64),
      Nat.mod_eq_of_lt (by omega)]
  omega

end Addresses

/-! ## The cell that an instruction writes -/

namespace State

variable {s t : State} {i : Instruction} {a : Word} {wide : Bool} {o : Operand}

/-- The cell of a memory operand: its first byte and the number of its bytes. -/
def cell? (s : State) (wide : Bool) : Operand → Option (Word × Nat)
  | .mem base disp => some (s.address base disp, operandBytes wide)
  | _ => none

/-- The cell that an instruction writes in a state. -/
def written? (s : State) (i : Instruction) : Option (Word × Nat) :=
  match i.opcode with
  | .mov | .add | .sub | .imul => s.cell? i.isWide i.op0
  | .push => some (s.get .rsp - 8, 8)
  | .pop => s.pop.2.cell? true i.op0
  | .noop | .idiv | .ret => none

/-- The byte at an address is among those that an instruction writes. -/
def Writes (s : State) (i : Instruction) (a : Word) : Prop :=
  ∃ x k, s.written? i = some (x, k) ∧ ∃ j < k, a = x + BitVec.ofNat 64 j

theorem byteAt_write? {v : Word} (h : s.write? wide v o = some t)
    (ha : ∀ x k, s.cell? wide o = some (x, k) → ∀ j < k, a ≠ x + BitVec.ofNat 64 j) :
    t.memory.byteAt a = s.memory.byteAt a := by
  rcases o with _ | ⟨u, _ | r⟩ | ⟨base, disp⟩ | value
  · simp [write?] at h
  · simp [write?] at h
  · simp only [write?, Option.some.injEq] at h
    rw [← h]
    rfl
  · simp only [write?, Option.some.injEq] at h
    rw [← h]
    exact Memory.byteAt_store (ha _ _ rfl)
  · simp [write?] at h

theorem byteAt_combine? {f : Word → Word → Word} (h : s.combine? i f = some t)
    (ha : ∀ x k, s.cell? i.isWide i.op0 = some (x, k) → ∀ j < k, a ≠ x + BitVec.ofNat 64 j) :
    t.memory.byteAt a = s.memory.byteAt a := by
  simp only [combine?, Option.bind_eq_bind, Option.bind_eq_some_iff] at h
  obtain ⟨x, -, y, -, h⟩ := h
  exact byteAt_write? h ha

/-- A byte that an instruction does not write stays. -/
theorem byteAt_step? (h : s.step? i = some t) (ha : ¬ s.Writes i a) :
    t.memory.byteAt a = s.memory.byteAt a := by
  have hcell : ∀ x k, s.written? i = some (x, k) → ∀ j < k, a ≠ x + BitVec.ofNat 64 j := by
    intro x k hx j hj hja
    exact ha ⟨x, k, hx, j, hj, hja⟩
  cases hop : i.opcode with
  | noop =>
    simp only [step?, hop, Option.some.injEq] at h
    rw [h]
  | mov =>
    rw [step?_mov hop, Option.bind_eq_some_iff] at h
    obtain ⟨v, -, h⟩ := h
    simp only [written?, hop] at hcell
    exact byteAt_write? h hcell
  | add =>
    simp only [step?, hop] at h
    simp only [written?, hop] at hcell
    exact byteAt_combine? h hcell
  | sub =>
    simp only [step?, hop] at h
    simp only [written?, hop] at hcell
    exact byteAt_combine? h hcell
  | imul =>
    simp only [step?, hop] at h
    simp only [written?, hop] at hcell
    exact byteAt_combine? h hcell
  | push =>
    simp only [step?, hop, Option.bind_eq_bind, Option.bind_eq_some_iff] at h
    obtain ⟨v, -, h⟩ := h
    obtain rfl := Option.some.inj h
    simp only [written?, hop] at hcell
    exact Memory.byteAt_store (hcell _ _ rfl)
  | pop =>
    simp only [step?, hop] at h
    simp only [written?, hop] at hcell
    have hwrite := byteAt_write? h hcell
    rw [hwrite]
    rfl
  | idiv => simp [step?, hop] at h
  | ret => simp [step?, hop] at h

/-! ## Executions that are confined -/

/-- The code is executed from one state to another one without a return, and the property holds of each
state on the way and the instruction that is executed in it. -/
inductive Executes (P : State → Instruction → Prop) : List Instruction → State → State → Prop where
  | nil (s : State) : Executes P [] s s
  | cons {s u t : State} {i : Instruction} {rest : List Instruction} (stays : i.opcode ≠ .ret)
      (allowed : P s i) (step : s.step? i = some u) (more : Executes P rest u t) :
      Executes P (i :: rest) s t

variable {P Q : State → Instruction → Prop} {code more rest : List Instruction} {u : State}

theorem Executes.append (h : Executes P code s u) (h' : Executes P more u t) :
    Executes P (code ++ more) s t := by
  induction h with
  | nil s => exact h'
  | cons stays allowed step _ ih => exact .cons stays allowed step (ih h')

theorem Executes.mono (hPQ : ∀ s, ∀ i ∈ code, P s i → Q s i) (h : Executes P code s t) :
    Executes Q code s t := by
  induction h with
  | nil s => exact .nil s
  | cons stays allowed step _ ih =>
    exact .cons stays (hPQ _ _ (by simp) allowed) step (ih fun s j hj => hPQ s j (by simp [hj]))

theorem Executes.exec? (h : Executes P code s t) (rest : List Instruction) :
    State.exec? (code ++ rest) s = State.exec? rest t := by
  induction h with
  | nil s => rfl
  | cons stays _ step _ ih =>
    simp only [List.cons_append, State.exec?, stays, if_false, step, Option.bind_some]
    exact ih

/-- A byte that no instruction writes stays. -/
theorem Executes.byteAt (h : Executes P code s t) (ha : ∀ s, ∀ i ∈ code, P s i → ¬ s.Writes i a) :
    t.memory.byteAt a = s.memory.byteAt a := by
  induction h with
  | nil s => rfl
  | @cons s u t i rest _ allowed step _ ih =>
    have hfirst := byteAt_step? step (ha s i (by simp) allowed)
    have hrest := ih fun s j hj => ha s j (by simp [hj])
    rw [hrest, hfirst]

/-- Code whose instructions can be executed and keep an invariant is executed. -/
theorem exists_executes {I : State → Prop}
    (h : ∀ i ∈ code, i.opcode ≠ .ret ∧ ∀ s, I s → P s i ∧ ∃ t, s.step? i = some t ∧ I t) (hs : I s) :
    ∃ t, Executes P code s t ∧ I t := by
  induction code generalizing s with
  | nil => exact ⟨s, .nil s, hs⟩
  | cons i code ih =>
    obtain ⟨hstays, hi⟩ := h i (by simp)
    obtain ⟨hP, u, hu, hIu⟩ := hi s hs
    obtain ⟨t, ht, hIt⟩ := ih (fun j hj => h j (by simp [hj])) hIu
    exact ⟨t, .cons hstays hP hu ht, hIt⟩

end State

end ArithJit.Machine
