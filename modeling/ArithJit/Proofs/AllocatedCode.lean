import ArithJit.Proofs.AllocationSimulation
import ArithJit.Proofs.Framing
import ArithJit.Proofs.SelectedCode

/-!
# Proofs: functions made of selected code

Code that is ready for allocation becomes a function. The allocation can fail for one reason only, that a
seventh register is needed. If it succeeds, all instructions of the function can be encoded, the last one
is the only return, and calling the function from any state leaves in the accumulator what the selected
code leaves there.
-/

namespace ArithJit.Machine

open Assoc (find?)

namespace Allocator

variable {a b : Allocator} {n m : Allocation} {t : Temp} {i j : Instruction}
  {code out before after rest : List Instruction} {f : Fault}

/-- A temporary that is read in allocable code is live. -/
theorem Carries.second_live (hcode : Allocable code) (hsplit : code = before ++ i :: rest)
    (hc : a.Carries before (i :: rest)) (ht : i.op1.temp? = some t) : find? t a.live ≠ none := by
  intro hnone
  have hmem : i ∈ code := by simp [hsplit]
  have hmention : i.mentions t = true := Instruction.mentions_iff.mpr (Or.inr ht)
  obtain ⟨-, -, hne⟩ := hcode.defined before i rest t hsplit hmention (hc.fresh hmention hnone)
  exact hne ((hcode.second i hmem).eq_temp ht)

/-- Allocable code can only need too many registers. -/
theorem allocateFrom_outOfRegisters (hcode : Allocable code) (hsplit : code = before ++ after)
    (ha : a.Balanced) (hc : a.Carries before after) (h : a.allocateFrom n after = .error f) :
    ∃ t, f = .outOfRegisters t 6 := by
  induction after generalizing before a n with
  | nil => simp [allocateFrom] at h
  | cons i rest ih =>
    have hmem : i ∈ code := by simp [hsplit]
    rcases allocateFrom_cons_error h with h1 | ⟨j, c, k, h1, h2⟩
    · rcases ha.step_error h1 with hfirst | ⟨c, k, t, p, hfirst, ht, hnone, -⟩
      · obtain ⟨t, -, ht⟩ := assignFirst_error ha hfirst
        exact ⟨t, ht⟩
      · -- the temporary was live before the first operand was assigned, so it still is
        obtain ⟨r, hr⟩ := Option.ne_none_iff_exists'.mp (hc.second_live hcode hsplit ht)
        rw [(find?_assignFirst hfirst).1 t r hr] at hnone
        simp at hnone
    · exact ih (show code = (before ++ [i]) ++ rest by simp [hsplit]) (ha.step h1)
        (hc.step ha (hcode.first i hmem) (hcode.second i hmem) h1) h2

/-- The operand `p` is the operand `o`, with a register if `o` is a temporary. -/
def Placed (o p : Operand) : Prop :=
  (p = o ∧ ∀ t, o ≠ .temp t) ∨ ∃ t r, o = .temp t ∧ p = .reg ⟨some t, some r⟩

theorem Assigned.placed {o p : Operand} (h : a.Assigned o p) : Placed o p := by
  rcases h with ⟨rfl, hne⟩ | ⟨t, r, ho, hp, -⟩
  · exact Or.inl ⟨rfl, hne⟩
  · exact Or.inr ⟨t, r, ho, hp⟩

/-- An allocation changes nothing but the registers of the operands. -/
structure Places (i j : Instruction) : Prop where
  opcode : j.opcode = i.opcode
  form : j.form = i.form
  first : Placed i.op0 j.op0
  second : Placed i.op1 j.op1

theorem step_places (h1 : i.op1.Unallocated) (h : a.step n i rest = .ok (j, b, m)) : Places i j := by
  obtain ⟨op0, d, k', op1, e, hfirst, hop1, -, -, rfl, -⟩ := step_ok h
  exact ⟨rfl, rfl, (assigned_assignFirst hfirst).placed, (assigned_assignSecond h1 hop1).placed⟩

theorem step_ret (h : a.step n (.nullary .ret) rest = .ok (j, b, m)) : j = .nullary .ret := by
  obtain ⟨op0, d, k', op1, e, hfirst, hop1, -, -, rfl, -⟩ := step_ok h
  simp only [Instruction.nullary, assignFirst, assignSecond, Except.ok.injEq, Prod.mk.injEq] at hfirst hop1
  rw [← hfirst.1, ← hop1]
  rfl

/-- The allocated code has the instructions of the code, and its return stays at its end. -/
theorem allocateFrom_append_ret (hsecond : ∀ i ∈ code, i.op1.Unallocated)
    (h : a.allocateFrom n (code ++ [.nullary .ret]) = .ok (out, b, m)) :
    ∃ body, out = body ++ [.nullary .ret] ∧ body.length = code.length ∧
      ∀ j ∈ body, ∃ i ∈ code, Places i j := by
  induction code generalizing a n out with
  | nil =>
    obtain ⟨j, c, k, out', hstep, hrest, rfl⟩ := allocateFrom_cons_ok h
    simp only [allocateFrom, Except.ok.injEq, Prod.mk.injEq] at hrest
    obtain ⟨rfl, -, -⟩ := hrest
    exact ⟨[], by rw [step_ret hstep]; rfl, rfl, by simp⟩
  | cons i rest ih =>
    obtain ⟨j, c, k, out', hstep, hrest, rfl⟩ := allocateFrom_cons_ok h
    obtain ⟨body, rfl, hlen, hbody⟩ := ih (fun j hj => hsecond j (by simp [hj])) hrest
    refine ⟨j :: body, rfl, by simp [hlen], fun l hl => ?_⟩
    rcases List.mem_cons.mp hl with rfl | hl
    · exact ⟨i, by simp, step_places (hsecond i (by simp)) hstep⟩
    · obtain ⟨i', hi', hl⟩ := hbody l hl
      exact ⟨i', by simp [hi'], hl⟩

theorem Placed.form {o o' p p' : Operand} (h : Placed o p) (h' : Placed o' p') :
    Form.ofOperands? p p' = Form.ofOperands? o o' := by
  rcases h with ⟨rfl, -⟩ | ⟨t, r, rfl, rfl⟩ <;> rcases h' with ⟨rfl, -⟩ | ⟨t', r', rfl, rfl⟩
  · rfl
  · cases p <;> rfl
  · cases p' <;> rfl
  · rfl

theorem Placed.named {o p : Operand} (ho : o.Unallocated ∨ o = .fixed .rax) (h : Placed o p) : p.Named := by
  rcases h with ⟨rfl, hne⟩ | ⟨t, r, -, rfl⟩
  · rcases ho with ho | rfl
    · cases ho with
      | none => trivial
      | temp t => exact absurd rfl (hne t)
      | mem disp => exact Register.noConfusion
      | imm value => trivial
    · rfl
  · rfl

theorem Places.regular (h : Places i j) (hi : i.Regular) : j.Regular := by
  rw [Instruction.Regular, h.form, h.first.form h.second]
  exact hi

/-- An instruction that exists can be encoded once its operands are placed. -/
theorem Places.encodable (h : Places i j) (h0 : i.op0.Unallocated ∨ i.op0 = .fixed .rax)
    (h1 : i.op1.Unallocated) (hregular : i.Regular) (hpattern : (pattern? i.opcode i.form).isSome) :
    j.Encodable where
  regular := h.regular hregular
  first := h.first.named h0
  second := h.second.named (Or.inl h1)
  pattern := by
    rw [h.opcode, h.form]
    exact hpattern

theorem lastBeforeReturn?_append_ret (h : ∀ j ∈ code ++ [i], j.opcode ≠ .ret) :
    lastBeforeReturn? (code ++ [i] ++ [.nullary .ret]) = some i := by
  rw [lastBeforeReturn?, List.takeWhile_append_of_pos (fun j hj => decide_eq_true (h j hj))]
  simp [Instruction.nullary]

end Allocator

/-! ## Functions -/

variable {code out : List Instruction} {p : Operand} {form : Form} {a : Allocator} {n : Allocation}

/-- The code, followed by the copy of an operand to the accumulator. -/
def withResult (code : List Instruction) (p : Operand) (form : Form) : List Instruction :=
  code ++ [⟨.mov, .fixed .rax, p, form⟩]

section Result

variable (h : Ready code) (hp : IsSource code p)
include h

theorem Ready.not_ret : ∀ i ∈ withResult code p form, i.opcode ≠ .ret := by
  intro i hi hret
  rcases List.mem_append.mp hi with hi | hi
  · have := h.computes.opcodes i hi
    simp [hret] at this
  · obtain rfl := List.mem_singleton.mp hi
    simp at hret

include hp

theorem Ready.allocable (form : Form) : Allocable (withResult code p form ++ [.nullary .ret]) :=
  h.computes.allocable hp.unallocated fun t ht => hp.mentions (by rw [ht, Operand.temp?_temp])

theorem Ready.complete_withResult : ∀ i ∈ withResult code p form ++ [.nullary .ret],
    Allocator.Complete i := by
  intro i hi
  simp only [withResult, List.mem_append, List.mem_singleton] at hi
  rcases hi with (hi | rfl) | rfl
  · exact h.complete i hi
  · exact fun _ => ⟨by simp [Operand.fixed], by simp [Operand.fixed], by cases hp <;> simp [Operand.temp]⟩
  · intro hi
    simp [Instruction.nullary] at hi

theorem Ready.exists_withResult (hform : Form.ofOperands? (.fixed .rax) p = some form) :
    ∀ i ∈ withResult code p form, i.Regular ∧ (pattern? i.opcode i.form).isSome := by
  intro i hi
  simp only [withResult, List.mem_append, List.mem_singleton] at hi
  rcases hi with hi | rfl
  · exact ⟨h.regular i hi, h.pattern i hi⟩
  · refine ⟨hform, ?_⟩
    cases hp <;> simp [Operand.fixed, Operand.temp, Form.ofOperands?] at hform <;> subst hform <;> rfl

/-- The allocated code computes in any state what the code computes. -/
theorem Ready.exec?_allocated {body : List Instruction}
    (halloc : Allocator.fresh.allocate (withResult code p form ++ [.nullary .ret]) =
      .ok (body ++ [.nullary .ret], a, n))
    (hret : ∀ j ∈ body, j.opcode ≠ .ret) (s : State) :
    ∃ v t, Virtual.exec? (withResult code p form ++ [.nullary .ret]) ⟨fun _ => 0, s⟩ = some v ∧
      State.exec? body s = some t ∧ t.get .rax = v.state.get .rax := by
  have hcode := h.allocable hp form
  obtain ⟨v, hv⟩ := Allocator.exec?_isSome hcode (h.complete_withResult hp) ⟨fun _ => 0, s⟩
  have hrel := Allocator.exec?_allocateFrom hcode (List.nil_append _).symm Allocator.balanced_fresh
    (v := ⟨fun _ => 0, s⟩) (s := s) ⟨rfl, rfl, fun t r ht => by simp [Allocator.fresh] at ht⟩
    (fun t ht => by simp at ht) halloc
  have hend : State.exec? (body ++ [.nullary .ret]) s = State.exec? body s := by
    rw [State.exec?_append hret]
    cases State.exec? body s <;> rfl
  rw [hv, hend] at hrel
  cases ht : State.exec? body s with
  | none =>
    rw [ht] at hrel
    cases hrel
  | some t =>
    rw [ht] at hrel
    cases hrel with
    | some hres =>
      exact ⟨v, t, hv, rfl, hres.2 ⟨_, Allocator.lastBeforeReturn?_append_ret h.not_ret, rfl⟩⟩

/-- The function that ready code becomes. All its instructions can be encoded, its last instruction is its
only return, and called in any state it computes what the code computes in some state. -/
theorem Ready.function (hform : Form.ofOperands? (.fixed .rax) p = some form)
    (halloc : Allocator.fresh.allocate (withResult code p form ++ [.nullary .ret]) = .ok (out, a, n))
    (size : Int32) :
    ∃ body, insertFrame out size n.calleeSaved = body ++ [.nullary .ret] ∧
      (∀ i ∈ body, i.opcode ≠ .ret ∧ i.Encodable) ∧ body.length ≤ code.length + 22 ∧
      ∀ s : State, ∃ u v t,
        Virtual.exec? (withResult code p form ++ [.nullary .ret]) ⟨fun _ => 0, u⟩ = some v ∧
        State.exec? body s = some t ∧ t.get .rax = v.state.get .rax := by
  have hcode := h.allocable hp form
  obtain ⟨body, rfl, hlen, hbody⟩ := Allocator.allocateFrom_append_ret
    (fun i hi => hcode.second i (List.mem_append_left _ hi)) halloc
  have hret : ∀ j ∈ body, j.opcode ≠ .ret := by
    intro j hj
    obtain ⟨i, hi, hij⟩ := hbody j hj
    rw [hij.opcode]
    exact h.not_ret i hi
  refine ⟨_, insertFrame_append_ret hret, fun j hj => ?_, ?_, fun s => ?_⟩
  · simp only [List.mem_append] at hj
    rcases hj with hj | hj | hj
    · exact ⟨prologue_not_ret hj, encodable_prologue hj⟩
    · obtain ⟨i, hi, hij⟩ := hbody j hj
      have hmem := List.mem_append_left [.nullary .ret] hi
      obtain ⟨hregular, hpattern⟩ := h.exists_withResult hp hform i hi
      exact ⟨hret j hj, hij.encodable (hcode.first i hmem) (hcode.second i hmem) hregular hpattern⟩
    · exact ⟨epilogue_not_ret hj, encodable_epilogue hj⟩
  · have hprologue := length_prologue_le size n.calleeSaved
    have hsaved := length_calleeSaved_le n
    rw [withResult, List.length_append, List.length_singleton] at hlen
    rw [List.length_append, List.length_append, length_epilogue]
    omega
  · -- the prologue leads to some state, and the code computes the same from any state
    obtain ⟨u, hu⟩ := exec?_prologue size n.calleeSaved s
    obtain ⟨v, w, hv, hw, hrax⟩ := h.exec?_allocated hp halloc hret u
    obtain ⟨t, ht, htrax⟩ := exec?_epilogue (rax_not_mem_calleeSaved n) w
    refine ⟨u, v, t, hv, ?_, htrax.trans hrax⟩
    rw [State.exec?_append fun i hi => prologue_not_ret hi, hu, Option.bind_some,
      State.exec?_append hret, hw, Option.bind_some, ht]

end Result

end ArithJit.Machine
