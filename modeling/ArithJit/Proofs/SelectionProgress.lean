import ArithJit.Machine.Function
import ArithJit.Proofs.SelectionSimulation

/-!
# Proofs: accepted bytecode runs, and so does the code that is selected for it

An instruction that has the operands its opcode uses, and that the selection accepts, can be executed: its
target is a register, since the selection refuses to write a constant. So bytecode runs to its first
return, and with the simulation the selected code does the same.
-/

namespace ArithJit

/-- The instruction has the operands that its opcode uses. A return may have none. -/
def Bytecode.Instruction.Supplied (i : Bytecode.Instruction) : Prop :=
  match i.opcode with
  | .noop => True
  | .push => i.dest ≠ .none ∧ i.src0 ≠ .none
  | .load => i.dest ≠ .none ∧ i.src0 ≠ .none
  | .store => i.src0 ≠ .none ∧ i.src1 ≠ .none
  | .arithmetic _ => i.dest ≠ .none ∧ i.src0 ≠ .none ∧ i.src1 ≠ .none
  | .ret => True

namespace Machine

open Assoc (find?)

variable {slots : List (Temp × Int32)} {o : Bytecode.Operand} {p q : Operand} {form : Form}
  {i : Bytecode.Instruction} {out : List Instruction} {code : List Bytecode.Instruction}

/-! ## Accepted instructions can be executed -/

/-- The target of an accepted instruction can be written. -/
theorem Converts.exists_write? (h : Converts slots o p) (ho : o ≠ .none)
    (hlegal : Form.ofOperands? p q = some form) (s : Bytecode.State) (n : Int32) :
    ∃ s', s.write? n o = some s' := by
  cases h with
  | none => exact absurd rfl ho
  | slot reserved => exact ⟨_, rfl⟩
  | word t => exact ⟨_, rfl⟩
  | immediate m ty => cases q <;> simp [Form.ofOperands?] at hlegal

/-- The operators that have machine code have a result on all words. -/
theorem exists_apply? {op : Arithmetic} {opcode : Opcode}
    (h : Selector.arithmeticOpcode? op = some opcode) (m n : Int32) : ∃ k, op.apply? m n = some k := by
  cases op with
  | div => simp [Selector.arithmeticOpcode?] at h
  | add => exact ⟨_, rfl⟩
  | sub => exact ⟨_, rfl⟩
  | mul => exact ⟨_, rfl⟩

theorem Emits.exists_step? (h : Emits slots i out) (hi : i.Supplied) (hret : i.opcode ≠ .ret)
    (s : Bytecode.State) : ∃ s', s.step? i = some s' := by
  cases h with
  | noop opcode => exact ⟨s, by simp [Bytecode.State.step?, opcode]⟩
  | load opcode target source legal =>
    simp only [Bytecode.Instruction.Supplied, opcode] at hi
    obtain ⟨n, hn⟩ := s.exists_value? hi.2
    obtain ⟨s', hs'⟩ := target.exists_write? hi.1 legal s n
    exact ⟨s', by simp [Bytecode.State.step?, opcode, hn, hs']⟩
  | store opcode target source legal =>
    simp only [Bytecode.Instruction.Supplied, opcode] at hi
    obtain ⟨n, hn⟩ := s.exists_value? hi.2
    obtain ⟨s', hs'⟩ := target.exists_write? hi.1 legal s n
    exact ⟨s', by simp [Bytecode.State.step?, opcode, hn, hs']⟩
  | arithmetic arith machine target first second legal legal' =>
    simp only [Bytecode.Instruction.Supplied, arith] at hi
    obtain ⟨m, hm⟩ := s.exists_value? hi.2.1
    obtain ⟨n, hn⟩ := s.exists_value? hi.2.2
    obtain ⟨k, hk⟩ := exists_apply? machine m n
    obtain ⟨s', hs'⟩ := target.exists_write? hi.1 legal s k
    exact ⟨s', by simp [Bytecode.State.step?, arith, hm, hn, hk, hs']⟩
  | result opcode => exact absurd opcode hret
  | ret opcode => exact absurd opcode hret

namespace Selector

variable {sel sel' : Selector}

/-- Bytecode that is accepted runs to its first return, or to its end. -/
theorem exists_run? (h : steps code sel = .ok () sel') (hcode : ∀ i ∈ code, i.Supplied)
    (s : Bytecode.State) : ∃ r, s.run? code = some r := by
  induction code generalizing sel s with
  | nil => exact ⟨_, rfl⟩
  | cons i code ih =>
    obtain ⟨u, hstep, hrest⟩ := steps_cons_eq_ok h
    by_cases hret : i.opcode = .ret
    · exact ⟨(s, s.value? i.src0), by simp [Bytecode.State.run?, hret]⟩
    · have hexec : ∃ s', s.step? i = some s' := by
        rcases step_eq_ok hstep with ⟨hop, -⟩ | ⟨out, hout, -⟩
        · exact ⟨s, by simp [Bytecode.State.step?, hop]⟩
        · exact hout.exists_step? (hcode i (by simp)) hret s
      obtain ⟨s', hs'⟩ := hexec
      obtain ⟨r, hr⟩ := ih hrest (fun j hj => hcode j (by simp [hj])) s'
      exact ⟨r, by simp [Bytecode.State.run?, hret, hs', hr]⟩

/-! ## Slots stay -/

theorem keepsSlots_step (h : step i sel = .ok () sel') : KeepsSlots sel.slots sel'.slots := by
  rcases step_eq_ok h with ⟨-, hreserve⟩ | ⟨out, -, rfl⟩
  · obtain ⟨t, bytes, ty, -, -, -, -, hnew, rfl⟩ := reserve_eq_ok hreserve
    exact keepsSlots_snoc hnew
  · exact fun _ _ h => h

theorem keepsSlots_steps (h : steps code sel = .ok () sel') : KeepsSlots sel.slots sel'.slots := by
  induction code generalizing sel with
  | nil =>
    obtain rfl : sel = sel' := by simpa [steps, pure, EStateM.pure] using h
    exact fun _ _ h => h
  | cons i code ih =>
    obtain ⟨u, hstep, hrest⟩ := steps_cons_eq_ok h
    intro t disp ht
    exact ih hrest t disp (keepsSlots_step hstep t disp ht)

/-- Each slot that the code reserves has a displacement. -/
theorem exists_slot (h : steps code sel = .ok () sel') (hi : i ∈ code) (hop : i.opcode = .push) :
    ∃ t disp, i.dest.temp? = some t ∧ find? t sel'.slots = some disp := by
  induction code generalizing sel with
  | nil => simp at hi
  | cons j code ih =>
    obtain ⟨u, hstep, hrest⟩ := steps_cons_eq_ok h
    rcases List.mem_cons.mp hi with rfl | hi
    · rcases step_eq_ok hstep with ⟨-, hreserve⟩ | ⟨out, hout, -⟩
      · obtain ⟨t, bytes, ty, ht, -, -, -, hnew, rfl⟩ := reserve_eq_ok hreserve
        have hfind : ∀ disp : Int32, find? t (sel.slots ++ [(t, disp)]) = some disp := by
          intro disp
          rw [← Assoc.insert_eq_append hnew, Assoc.find?_insert_self]
        exact ⟨t, _, ht, keepsSlots_steps hrest t _ (hfind _)⟩
      · cases hout <;> simp [hop] at *
    · exact ih hrest hi

end Selector

theorem select_eq_ok {sel : Selector} :
    select code = .ok sel ↔ Selector.steps code .empty = .ok () sel := by
  unfold select
  rw [EStateM.run]
  cases Selector.steps code .empty with
  | ok u s => simp
  | error e s => simp

/-- Bytecode with all its operands that is accepted runs to its first return, and the code that is
selected for it is executed to its first return. Afterwards all words and all slots that the code reserves
agree, and what is returned is in the accumulator. -/
theorem select_simulates_bytecode {sel : Selector} (h : select code = .ok sel)
    (hcode : ∀ i ∈ code, i.Supplied ∧ Selectable i) {s : Bytecode.State} {v : Virtual}
    (hs : Represents sel.slots s v) :
    (∀ i ∈ code, i.opcode = .push → ∃ t disp, i.dest.temp? = some t ∧ find? t sel.slots = some disp) ∧
    ∃ s' result v', s.run? code = some (s', result) ∧
      Virtual.exec? sel.code.toList v = some v' ∧ Represents sel.slots s' v' ∧
      ∀ n, result = some n → v'.state.result = n := by
  have hsteps := select_eq_ok.mp h
  refine ⟨fun i hi hop => Selector.exists_slot hsteps hi hop, ?_⟩
  obtain ⟨-, -, out, hout, hsim⟩ :=
    Selector.steps_simulates hsteps Selector.laid_empty fun i hi => (hcode i hi).2
  have hall : sel.code.toList = out := by simpa [Selector.empty] using hout
  obtain ⟨⟨s', result⟩, hrun⟩ := Selector.exists_run? hsteps (fun i hi => (hcode i hi).1) s
  have hrel := hsim s v hs
  rw [hrun] at hrel
  obtain ⟨v', hexec, hrep, hrax⟩ := exists_of_rel_some hrel
  refine ⟨s', result, v', hrun, by rw [hall, hexec], hrep, fun n hn => ?_⟩
  have hlow : (v'.state.get .rax).setWidth 32 = n.toBitVec := hrax n hn
  rw [State.result, hlow]
  rfl

/-- An operator whose target is a slot, which is then read into a word, doubled and returned. -/
def slotCode : List Bytecode.Instruction :=
  [{ opcode := .push, dest := .register ⟨0⟩ .slot, src0 := .immediate 4 .slot },
   { opcode := .arithmetic .sub, dest := .register ⟨0⟩ .slot, src0 := .immediate 3 .word,
     src1 := .register ⟨1⟩ .word },
   { opcode := .load, dest := .register ⟨2⟩ .word, src0 := .register ⟨0⟩ .slot },
   { opcode := .arithmetic .add, dest := .register ⟨3⟩ .word, src0 := .register ⟨2⟩ .word,
     src1 := .register ⟨0⟩ .slot },
   { opcode := .ret, src0 := .register ⟨3⟩ .word }]

theorem select_simulates_bytecode_slot :
    (∀ i ∈ slotCode, i.Supplied ∧ Selectable i) ∧
    ∃ sel s s' result v', select slotCode = .ok sel ∧ Represents sel.slots s ⟨fun _ => 7, .entry⟩ ∧
      s.run? slotCode = some (s', result) ∧
      Virtual.exec? sel.code.toList ⟨fun _ => 7, .entry⟩ = some v' ∧ Represents sel.slots s' v' ∧
      ∀ n, result = some n → v'.state.result = n := by
  have hcode : ∀ i ∈ slotCode, i.Supplied ∧ Selectable i := by
    intro i hi
    simp only [slotCode, List.mem_cons, List.not_mem_nil, or_false] at hi
    rcases hi with rfl | rfl | rfl | rfl | rfl
    all_goals refine ⟨by simp [Bytecode.Instruction.Supplied], ?_, ?_⟩ <;> simp
  obtain ⟨sel, hsel⟩ : ∃ sel, select slotCode = .ok sel := ⟨_, rfl⟩
  obtain ⟨s, hs⟩ := exists_represents sel.slots ⟨fun _ => 7, .entry⟩
  obtain ⟨-, s', result, v', hrun, hexec, hrep, hresult⟩ := select_simulates_bytecode hsel hcode hs
  exact ⟨hcode, sel, s, s', result, v', hsel, hs, hrun, hexec, hrep, hresult⟩

end Machine

end ArithJit
