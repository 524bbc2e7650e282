import ArithJit.Proofs.Execution
import ArithJit.Proofs.LiveRanges

/-!
# Proofs: giving registers to temporaries keeps the meaning of code

Code over temporaries and the same code with registers are executed side by side. The two states agree
on the memory, on the frame pointer and, for each live temporary, on its value and the content of the
register that it holds (`Simulates`). Nothing is said about the other registers, so that a register may
be reused as soon as its temporary is dead.
-/

namespace ArithJit.Machine

open Assoc (find?)

/-- An operand of code that was not given registers yet. -/
inductive Operand.Unallocated : Operand → Prop where
  | none : Unallocated .none
  /-- A temporary without a register. -/
  | temp (t : Temp) : Unallocated (.temp t)
  /-- Memory of the frame. -/
  | mem (disp : Int32) : Unallocated (.mem .rbp disp)
  | imm (value : Int32) : Unallocated (.imm value)

theorem Operand.Unallocated.eq_temp {o : Operand} {t : Temp} (ho : o.Unallocated)
    (ht : o.temp? = some t) : o = .temp t := by
  cases ho with
  | temp u =>
    rw [Operand.temp?_temp, Option.some.injEq] at ht
    rw [ht]
  | none => exact absurd ht (by simp [Operand.temp?, Operand.asRegister?])
  | mem disp => exact absurd ht (by simp [Operand.temp?, Operand.asRegister?])
  | imm value => exact absurd ht (by simp [Operand.temp?, Operand.asRegister?])

/-- Code that can be given registers: it computes and returns, its only fixed register receives the
result right before a return, and a temporary is first mentioned where a copy defines it. -/
structure Allocable (code : List Instruction) : Prop where
  /-- Only copies, sums, differences, products, returns and instructions without effect occur. -/
  opcodes : ∀ i ∈ code, i.opcode ∈ [.noop, .mov, .add, .sub, .imul, .ret]
  /-- The first operand may be the accumulator; apart from that, no operand has a register. -/
  first : ∀ i ∈ code, i.op0.Unallocated ∨ i.op0 = .fixed .rax
  second : ∀ i ∈ code, i.op1.Unallocated
  /-- The accumulator is written by a copy that a return follows. -/
  result : ∀ before i after, code = before ++ i :: after → i.op0 = .fixed .rax →
    i.opcode = .mov ∧ ∃ j rest, after = j :: rest ∧ j.opcode = .ret
  /-- A temporary is first mentioned as the target of a copy that does not read it. -/
  defined : ∀ before i after t, code = before ++ i :: after → i.mentions t = true →
    (∀ j ∈ before, j.mentions t = false) → i.opcode = .mov ∧ i.op0 = .temp t ∧ i.op1 ≠ .temp t

/-- Code that computes and does not return. -/
structure Computes (code : List Instruction) : Prop where
  /-- Only copies, sums, differences, products and instructions without effect occur. -/
  opcodes : ∀ i ∈ code, i.opcode ∈ [.noop, .mov, .add, .sub, .imul]
  first : ∀ i ∈ code, i.op0.Unallocated
  second : ∀ i ∈ code, i.op1.Unallocated
  /-- A temporary is first mentioned as the target of a copy that does not read it. -/
  defined : ∀ before i after t, code = before ++ i :: after → i.mentions t = true →
    (∀ j ∈ before, j.mentions t = false) → i.opcode = .mov ∧ i.op0 = .temp t ∧ i.op1 ≠ .temp t

theorem computes_nil : Computes [] where
  opcodes := by simp
  first := by simp
  second := by simp
  defined := by
    intro before i after t h
    simp at h

/-- An instruction may follow if it mentions only temporaries that were mentioned before, or defines
one. -/
theorem Computes.snoc {code : List Instruction} {i : Instruction} (h : Computes code)
    (hop : i.opcode ∈ [.noop, .mov, .add, .sub, .imul]) (h0 : i.op0.Unallocated)
    (h1 : i.op1.Unallocated)
    (hdef : ∀ t, i.mentions t = true → (∃ j ∈ code, j.mentions t = true) ∨
      (i.opcode = .mov ∧ i.op0 = .temp t ∧ i.op1 ≠ .temp t)) : Computes (code ++ [i]) where
  opcodes j hj := by
    rcases List.mem_append.mp hj with hj | hj
    · exact h.opcodes j hj
    · obtain rfl : j = i := by simpa using hj
      exact hop
  first j hj := by
    rcases List.mem_append.mp hj with hj | hj
    · exact h.first j hj
    · obtain rfl : j = i := by simpa using hj
      exact h0
  second j hj := by
    rcases List.mem_append.mp hj with hj | hj
    · exact h.second j hj
    · obtain rfl : j = i := by simpa using hj
      exact h1
  defined before j after t hsplit hj hfresh := by
    rcases append_singleton_eq hsplit with ⟨rfl, rfl, -⟩ | ⟨rest, -, hcode⟩
    · refine (hdef t hj).resolve_left ?_
      rintro ⟨l, hl, hlt⟩
      rw [hfresh l hl] at hlt
      exact absurd hlt (by decide)
    · exact h.defined before j rest t hcode hj hfresh

/-- Code that computes an operand, followed by its return, can be given registers. -/
theorem Computes.allocable {code : List Instruction} {o : Operand} {form : Form} (h : Computes code)
    (ho : o.Unallocated) (hdef : ∀ t, o = .temp t → ∃ j ∈ code, j.mentions t = true) :
    Allocable (code ++ [⟨.mov, .fixed .rax, o, form⟩] ++ [.nullary .ret]) where
  opcodes i hi := by
    simp only [List.mem_append, List.mem_singleton] at hi
    rcases hi with (hi | rfl) | rfl
    · have := h.opcodes i hi
      simp only [List.mem_cons, List.not_mem_nil, or_false] at this ⊢
      tauto
    · simp
    · simp [Instruction.nullary]
  first i hi := by
    simp only [List.mem_append, List.mem_singleton] at hi
    rcases hi with (hi | rfl) | rfl
    · exact Or.inl (h.first i hi)
    · exact Or.inr rfl
    · exact Or.inl .none
  second i hi := by
    simp only [List.mem_append, List.mem_singleton] at hi
    rcases hi with (hi | rfl) | rfl
    · exact h.second i hi
    · exact ho
    · exact .none
  result before i after hsplit hrax := by
    rcases append_singleton_eq hsplit with ⟨-, rfl, -⟩ | ⟨rest, rfl, hcode⟩
    · simp [Instruction.nullary, Operand.fixed] at hrax
    · rcases append_singleton_eq hcode with ⟨-, rfl, rfl⟩ | ⟨rest', -, hcode'⟩
      · exact ⟨rfl, _, _, rfl, rfl⟩
      · have := h.first i (by rw [hcode']; simp)
        rw [hrax] at this
        cases this
  defined before i after t hsplit hi hfresh := by
    rcases append_singleton_eq hsplit with ⟨-, rfl, -⟩ | ⟨rest, rfl, hcode⟩
    · simp [Instruction.nullary, Instruction.mentions, Operand.isTemp] at hi
    · rcases append_singleton_eq hcode with ⟨rfl, rfl, -⟩ | ⟨rest', -, hcode'⟩
      · have hot : o.temp? = some t := by
          simpa [Instruction.mentions_iff, Operand.fixed, Operand.temp?, Operand.asRegister?] using hi
        obtain ⟨j, hj, hjt⟩ := hdef t (ho.eq_temp hot)
        rw [hfresh j hj] at hjt
        exact absurd hjt (by decide)
      · exact h.defined before i rest' t hcode' hi hfresh

/-- The last instruction before the first return. -/
def lastBeforeReturn? (code : List Instruction) : Option Instruction :=
  (code.takeWhile (·.opcode ≠ .ret)).getLast?

namespace Allocator

variable {a b c : Allocator} {n m : Allocation} {t : Temp} {r : Register} {o p : Operand}
  {i j : Instruction} {rest code out : List Instruction} {v : Virtual} {s : State}

/-- The states of the two executions agree on the memory, the frame and the live temporaries. -/
structure Simulates (a : Allocator) (v : Virtual) (s : State) : Prop where
  memory : s.memory = v.state.memory
  frame : s.get .rbp = v.state.get .rbp
  /-- A live temporary has the value of its register. -/
  live : ∀ t r, find? t a.live = some r → s.get r = v.temps t

/-- The operand `p` is the operand `o` with the register that its temporary holds. -/
def Assigned (a : Allocator) (o p : Operand) : Prop :=
  (p = o ∧ ∀ t, o ≠ .temp t) ∨
  ∃ t r, o = .temp t ∧ p = .reg ⟨some t, some r⟩ ∧ find? t a.live = some r

theorem assigned_assignFirst (h : a.assignFirst n o = .ok (p, b, m)) : b.Assigned o p := by
  rcases assignFirst_cases h with ⟨hp, -, -, hne⟩ | ⟨t, r, ho, -, -⟩
  · exact Or.inl ⟨hp, hne⟩
  · obtain ⟨r', hlive, hp⟩ := (find?_assignFirst h).2.2 t ho
    exact Or.inr ⟨t, r', ho, hp, hlive⟩

theorem assigned_assignSecond (ho : o.Unallocated) (h : a.assignSecond o = .ok p) :
    a.Assigned o p := by
  rcases assignSecond_cases h with ⟨hp, hnone⟩ | ⟨t, r, ht, hp, hlive⟩
  · refine Or.inl ⟨hp, ?_⟩
    rintro t rfl
    simp at hnone
  · exact Or.inr ⟨t, r, ho.eq_temp ht, hp, hlive⟩

/-- Registers that are given out hold no frame. -/
theorem Balanced.not_frame (ha : a.Balanced) (ht : find? t a.live = some r) : r.isFrame = false := by
  have hr := ha.allocatable ht
  revert hr
  cases r <;> decide

theorem Assigned.narrow (ha : a.Balanced) (ho : o.Unallocated) (h : a.Assigned o p) :
    p.register?.any Register.isFrame = false := by
  rcases h with ⟨rfl, hne⟩ | ⟨t, r, -, rfl, hlive⟩
  · cases ho with
    | temp u => exact absurd rfl (hne u)
    | none => rfl
    | mem disp => rfl
    | imm value => rfl
  · exact ha.not_frame hlive

theorem narrow_unallocated (ho : o.Unallocated) : o.register?.any Register.isFrame = false := by
  cases ho <;> rfl

/-! ## Reading and writing operands -/

/-- An operand has the same value with and without its register. -/
theorem Assigned.value (ho : o.Unallocated) (h : a.Assigned o p) (hm : s.memory = v.state.memory)
    (hf : s.get .rbp = v.state.get .rbp)
    (hl : ∀ t r, o = .temp t → find? t a.live = some r → s.get r = v.temps t) :
    s.value? false p = v.value? false o := by
  rcases h with ⟨rfl, hne⟩ | ⟨t, r, rfl, rfl, hlive⟩
  · cases ho with
    | temp u => exact absurd rfl (hne u)
    | none => rfl
    | mem disp => simp [Virtual.value?, State.value?, State.address, hm, hf]
    | imm value => rfl
  · simp [Virtual.value?, State.value?, Operand.temp, hl t r rfl hlive]

/-- Writing an operand with and without its register keeps the agreement, and makes the two states agree
on the operand's temporary. -/
theorem Assigned.write (ha : a.Balanced) (ho : o.Unallocated) (h : a.Assigned o p)
    (hm : s.memory = v.state.memory) (hf : s.get .rbp = v.state.get .rbp)
    (hl : ∀ t r, o ≠ .temp t → find? t a.live = some r → s.get r = v.temps t) (x : Word) :
    Option.Rel (fun v' s' => a.Simulates v' s') (v.write? false x o) (s.write? false x p) := by
  rcases h with ⟨rfl, hne⟩ | ⟨t, r, rfl, rfl, hlive⟩
  · cases ho with
    | temp u => exact absurd rfl (hne u)
    | none => exact .none
    | mem disp =>
      refine .some ⟨?_, hf, fun t r ht => hl t r (hne t) ht⟩
      simp [State.address, hm, hf]
    | imm value => exact .none
  · refine .some ⟨hm, ?_, fun u q hu => ?_⟩
    · have hr : Register.rbp ≠ r := by
        rintro rfl
        exact absurd (ha.not_frame hlive) (by decide)
      rw [State.get_set_of_ne hr]
      exact hf
    · by_cases hut : u = t
      · subst hut
        have hq : q = r := by
          rw [hlive, Option.some.injEq] at hu
          exact hu.symm
        simp [hq, Virtual.setTemp]
      · -- another live temporary holds another register
        have hqr : q ≠ r := by
          rintro rfl
          exact hut (ha.injective hu hlive)
        rw [State.get_set_of_ne hqr, hl u q (by simpa [Operand.temp] using Ne.symm hut) hu]
        simp [Virtual.setTemp, hut]

/-! ## One instruction -/

/-- A temporary that is live within the instruction was live before it, unless it is defined here. -/
theorem Simulates.kept (hs : a.Simulates v s) (hfirst : a.assignFirst n o = .ok (p, b, m))
    (ht : find? t b.live = some r) (hbefore : o = .temp t → find? t a.live ≠ none) :
    s.get r = v.temps t := by
  cases hlive : find? t a.live with
  | some q =>
    have hq := (find?_assignFirst hfirst).1 t q hlive
    rw [ht, Option.some.injEq] at hq
    rw [hq]
    exact hs.live t q hlive
  | none =>
    rcases (find?_assignFirst hfirst).2.1 t r ht with h | h
    · rw [hlive] at h
      exact absurd h (by simp)
    · exact absurd hlive (hbefore h)

theorem Simulates.step {op0 op1 : Operand} (ha : a.Balanced) (hs : a.Simulates v s)
    (hop : i.opcode ∈ [.noop, .mov, .add, .sub, .imul]) (h0 : i.op0.Unallocated)
    (h1 : i.op1.Unallocated)
    (hdef : ∀ t, i.op0 = .temp t → find? t a.live = none → i.opcode = .mov ∧ i.op1 ≠ .temp t)
    (hfirst : a.assignFirst n i.op0 = .ok (op0, b, m)) (hsecond : b.assignSecond i.op1 = .ok op1) :
    Option.Rel (fun v' s' => b.Simulates v' s') (v.step? i) (s.step? { i with op0, op1 }) := by
  have hb := ha.assignFirst hfirst
  have hp0 := assigned_assignFirst hfirst
  have hp1 := assigned_assignSecond h1 hsecond
  have hwidth : i.isWide = false := by
    simp [Instruction.isWide, narrow_unallocated h0, narrow_unallocated h1]
  have hwidth' : ({ i with op0, op1 } : Instruction).isWide = false := by
    simp [Instruction.isWide, hp0.narrow hb h0, hp1.narrow hb h1]
  have hvalue1 : s.value? false op1 = v.value? false i.op1 :=
    hp1.value h1 hs.memory hs.frame fun t r ht hlive =>
      hs.kept hfirst hlive fun h hnone => (hdef t h hnone).2 ht
  have hwrite := hp0.write hb h0 hs.memory hs.frame fun t r hne hlive =>
    hs.kept hfirst hlive fun h => absurd h hne
  -- only a copy may define a temporary, so all others read a first operand that was live before
  have hcombine : i.opcode ≠ .mov → ∀ f,
      Option.Rel (fun v' s' => b.Simulates v' s') (v.combine? i f)
        (s.combine? { i with op0, op1 } f) := by
    intro hne f
    have hvalue0 : s.value? false op0 = v.value? false i.op0 :=
      hp0.value h0 hs.memory hs.frame fun t r ht hlive =>
        hs.kept hfirst hlive fun h hnone => hne (hdef t h hnone).1
    rw [Virtual.combine?, State.combine?, hwidth, hwidth']
    simp only [hvalue0, hvalue1]
    cases v.value? false i.op0 with
    | none => exact .none
    | some x =>
      cases v.value? false i.op1 with
      | none => exact .none
      | some y => exact hwrite (f x y)
  simp only [List.mem_cons, List.not_mem_nil, or_false] at hop
  rcases hop with h | h | h | h | h
  · simp only [Virtual.step?, State.step?, h]
    by_cases hnew : ∃ t, i.op0 = .temp t ∧ find? t a.live = none
    · obtain ⟨t, ht, hnone⟩ := hnew
      exact absurd ((hdef t ht hnone).1.symm.trans h) (by decide)
    · exact .some ⟨hs.memory, hs.frame, fun t r ht =>
        hs.kept hfirst ht fun h hnone => hnew ⟨t, h, hnone⟩⟩
  · rw [Virtual.step?_mov h, State.step?_mov (i := { i with op0, op1 }) h, hwidth, hwidth', hvalue1]
    cases v.value? false i.op1 with
    | none => exact .none
    | some x => exact hwrite x
  all_goals
    simp only [Virtual.step?, State.step?, h]
    exact hcombine (by rw [h]; decide) _

/-- A copy to the accumulator, after which only the memory and the result count. -/
theorem Simulates.result {op1 : Operand} (ha : a.Balanced) (hs : a.Simulates v s)
    (hop : i.opcode = .mov) (h0 : i.op0 = .fixed .rax) (h1 : i.op1.Unallocated)
    (hsecond : a.assignSecond i.op1 = .ok op1) :
    Option.Rel (fun v' s' => s'.memory = v'.state.memory ∧ s'.get .rax = v'.state.get .rax)
      (v.step? i) (s.step? { i with op1 }) := by
  have hp1 := assigned_assignSecond h1 hsecond
  have hwidth : i.isWide = false := by
    simp only [Instruction.isWide, h0, narrow_unallocated h1]
    rfl
  have hwidth' : ({ i with op1 } : Instruction).isWide = false := by
    simp only [Instruction.isWide, h0, hp1.narrow ha h1]
    rfl
  have hvalue := hp1.value h1 hs.memory hs.frame fun t r _ hlive => hs.live t r hlive
  rw [Virtual.step?_mov hop, State.step?_mov (i := { i with op1 }) hop, hwidth, hwidth', hvalue]
  cases v.value? false i.op1 with
  | none => exact .none
  | some x =>
    simp only [Option.bind_some, h0]
    exact .some ⟨hs.memory, by simp⟩

theorem Simulates.release (ha : a.Balanced) (hs : a.Simulates v s)
    (h : a.release rest o = .ok b) : b.Simulates v s :=
  ⟨hs.memory, hs.frame, fun t r ht => hs.live t r ((find?_release ha h).mp ht).1⟩

/-! ## Whole pieces of code -/

theorem lastBeforeReturn?_cons_of_ne (hi : i.opcode ≠ .ret) :
    lastBeforeReturn? (i :: rest) = some ((lastBeforeReturn? rest).getD i) := by
  simp [lastBeforeReturn?, hi, List.getLast?_cons]

/-- Each temporary that `before` mentions and `code` still mentions is live. -/
def Carries (a : Allocator) (before code : List Instruction) : Prop :=
  ∀ t, (∃ j ∈ before, j.mentions t = true) → (∃ j ∈ code, j.mentions t = true) →
    ∃ r, find? t a.live = some r

/-- The operands of an allocable instruction are live once they are assigned. -/
theorem live_of_mentions {op0 op1 : Operand} (h0 : i.op0.Unallocated ∨ i.op0 = .fixed .rax)
    (h1 : i.op1.Unallocated) (hfirst : a.assignFirst n i.op0 = .ok (op0, b, m))
    (hsecond : b.assignSecond i.op1 = .ok op1) (ht : i.mentions t = true) :
    ∃ r, find? t b.live = some r := by
  rcases Instruction.mentions_iff.mp ht with h | h
  · rcases h0 with h0 | h0
    · obtain ⟨r, hr, -⟩ := (find?_assignFirst hfirst).2.2 t (h0.eq_temp h)
      exact ⟨r, hr⟩
    · simp [h0, Operand.fixed, Operand.temp?, Operand.asRegister?] at h
  · rcases assigned_assignSecond h1 hsecond with ⟨-, hne⟩ | ⟨u, r, hu, -, hlive⟩
    · exact absurd (h1.eq_temp h) (hne t)
    · rw [hu, Operand.temp?_temp, Option.some.injEq] at h
      exact ⟨r, h ▸ hlive⟩

theorem Carries.step {before : List Instruction} (ha : a.Balanced)
    (hc : a.Carries before (i :: rest)) (h0 : i.op0.Unallocated ∨ i.op0 = .fixed .rax)
    (h1 : i.op1.Unallocated) (h : a.step n i rest = .ok (j, b, m)) :
    b.Carries (before ++ [i]) rest := by
  obtain ⟨op0, c, k, op1, d, hfirst, hsecond, -, -, -, -⟩ := step_ok h
  obtain ⟨op0', c', k', hfirst', -, hfind⟩ := find?_step ha h
  rw [hfirst] at hfirst'
  simp only [Except.ok.injEq, Prod.mk.injEq] at hfirst'
  obtain ⟨rfl, rfl, rfl⟩ := hfirst'
  rintro t ⟨l, hl, hlt⟩ ⟨l', hl', hlt'⟩
  have hany : rest.any (·.mentions t) = true := List.any_eq_true.mpr ⟨l', hl', hlt'⟩
  have hlive : ∃ r, find? t c.live = some r := by
    rcases List.mem_append.mp hl with hl | hl
    · obtain ⟨r, hr⟩ := hc t ⟨l, hl, hlt⟩ ⟨l', List.mem_cons_of_mem _ hl', hlt'⟩
      exact ⟨r, (find?_assignFirst hfirst).1 t r hr⟩
    · obtain rfl : l = i := by simpa using hl
      exact live_of_mentions h0 h1 hfirst hsecond hlt
  obtain ⟨r, hr⟩ := hlive
  exact ⟨r, (hfind t r).mpr ⟨hr, fun _ => hany⟩⟩

/-- A temporary that is mentioned here and is not live was not mentioned before. -/
theorem Carries.fresh {before : List Instruction} (hc : a.Carries before (i :: rest))
    (ht : i.mentions t = true) (hnone : find? t a.live = none) : ∀ l ∈ before, l.mentions t = false := by
  intro l hl
  by_contra hlt
  obtain ⟨r, hr⟩ := hc t ⟨l, hl, by simpa using hlt⟩ ⟨i, by simp, ht⟩
  rw [hnone] at hr
  exact absurd hr (by simp)

/-- What two executions of a piece of code leave: the same memory, and the same result if the code copies
one to the accumulator. -/
def SameEnd (code : List Instruction) (v : Virtual) (s : State) : Prop :=
  s.memory = v.state.memory ∧
    ((∃ i, lastBeforeReturn? code = some i ∧ i.op0 = .fixed .rax) → s.get .rax = v.state.get .rax)

theorem SameEnd.cons (hret : i.opcode ≠ .ret) (hrax : i.op0 ≠ .fixed .rax) (h : SameEnd rest v s) :
    SameEnd (i :: rest) v s := by
  refine ⟨h.1, ?_⟩
  rintro ⟨l, hl, hlrax⟩
  rw [lastBeforeReturn?_cons_of_ne hret, Option.some.injEq] at hl
  cases hlast : lastBeforeReturn? rest with
  | none =>
    rw [hlast, Option.getD_none] at hl
    exact absurd (hl ▸ hlrax) hrax
  | some l' =>
    rw [hlast, Option.getD_some] at hl
    exact h.2 ⟨l', hlast, hl ▸ hlrax⟩

/-- A temporary that is given a register here is given a value here. -/
theorem Carries.defined {before : List Instruction} (hc : a.Carries before (i :: rest))
    (hcode : Allocable code) (hsplit : code = before ++ i :: rest) (t : Temp) (ht : i.op0 = .temp t)
    (hnone : find? t a.live = none) : i.opcode = .mov ∧ i.op1 ≠ .temp t := by
  have hmention : i.mentions t = true := Instruction.mentions_iff.mpr (Or.inl (by simp [ht]))
  obtain ⟨hmov, -, hne⟩ := hcode.defined before i rest t hsplit hmention (hc.fresh hmention hnone)
  exact ⟨hmov, hne⟩

/-- The copy of the result is followed by a return, so nothing else is executed. -/
theorem Simulates.exec?_result {before : List Instruction} {op0 op1 : Operand} {d : Allocator}
    {k l : Allocation} (hs : a.Simulates v s) (ha : a.Balanced) (hcode : Allocable code)
    (hsplit : code = before ++ i :: rest) (hret : i.opcode ≠ .ret) (hrax : i.op0 = .fixed .rax)
    (hfirst : a.assignFirst n i.op0 = .ok (op0, b, m)) (hsecond : b.assignSecond i.op1 = .ok op1)
    (hrest : c.allocateFrom k rest = .ok (out, d, l)) :
    Option.Rel (SameEnd (i :: rest)) (Virtual.exec? (i :: rest) v)
      (State.exec? ({ i with op0, op1 } :: out) s) := by
  obtain ⟨hmov, r, rest', rfl, hr⟩ := hcode.result before i rest hsplit hrax
  obtain ⟨r', c', k', out', hstep, -, rfl⟩ := allocateFrom_cons_ok hrest
  have hr' : r'.opcode = .ret := by
    obtain ⟨_, _, _, _, _, -, -, -, -, rfl, -⟩ := step_ok hstep
    exact hr
  have h1 := hcode.second i (by rw [hsplit]; simp)
  rcases assignFirst_cases hfirst with ⟨rfl, rfl, -, -⟩ | ⟨t, q, ht, -, -⟩
  · simp only [Virtual.exec?, State.exec?, hret, if_false]
    refine rel_bind (hs.result ha hmov hrax h1 hsecond) fun v' s' hvs => ?_
    simp only [hr, hr', if_true]
    exact .some ⟨hvs.1, fun _ => hvs.2⟩
  · rw [ht] at hrax
    simp [Operand.temp, Operand.fixed] at hrax

/-- The induction goes over the code that is left; `before` is the code that was executed. -/
theorem exec?_allocateFrom (hcode : Allocable code) {before after : List Instruction}
    (hsplit : code = before ++ after) (ha : a.Balanced) (hs : a.Simulates v s)
    (hc : a.Carries before after) (h : a.allocateFrom n after = .ok (out, b, m)) :
    Option.Rel (SameEnd after) (Virtual.exec? after v) (State.exec? out s) := by
  induction after generalizing before a n v s out with
  | nil =>
    simp only [allocateFrom, Except.ok.injEq, Prod.mk.injEq] at h
    obtain ⟨rfl, -, -⟩ := h
    refine .some ⟨hs.memory, ?_⟩
    rintro ⟨i, hi, -⟩
    simp [lastBeforeReturn?] at hi
  | cons i rest ih =>
    obtain ⟨j, c, k, out', hstep, hrest, rfl⟩ := allocateFrom_cons_ok h
    obtain ⟨op0, d, k', op1, e, hfirst, hsecond, hrel0, hrel1, rfl, -⟩ := step_ok hstep
    have hmem : i ∈ code := by rw [hsplit]; simp
    have h1 := hcode.second i hmem
    by_cases hret : i.opcode = .ret
    · simp only [Virtual.exec?, State.exec?, hret, if_true]
      refine .some ⟨hs.memory, ?_⟩
      rintro ⟨l, hl, -⟩
      simp [lastBeforeReturn?, hret] at hl
    by_cases hrax : i.op0 = .fixed .rax
    · exact hs.exec?_result ha hcode hsplit hret hrax hfirst hsecond hrest
    · have h0 : i.op0.Unallocated := (hcode.first i hmem).resolve_right hrax
      have hop : i.opcode ∈ [.noop, .mov, .add, .sub, .imul] := by
        have := hcode.opcodes i hmem
        simp only [List.mem_cons, List.not_mem_nil, or_false] at this ⊢
        tauto
      have hd := ha.assignFirst hfirst
      have hsim := hs.step ha hop h0 h1 (hc.defined hcode hsplit) hfirst hsecond
      simp only [Virtual.exec?, State.exec?, hret, if_false]
      refine rel_bind hsim fun v' s' hvs => ?_
      have hsim' := (hvs.release hd hrel0).release (hd.release hrel0) hrel1
      have hih := ih (show code = (before ++ [i]) ++ rest by simp [hsplit]) (ha.step hstep) hsim'
        (hc.step ha (Or.inl h0) h1 hstep) hrest
      exact rel_mono hih fun _ _ hend => hend.cons hret hrax

/-! ## Executions do not get stuck -/

/-- The instruction has a first operand that can be written and a second operand, if it uses them. -/
def Complete (i : Instruction) : Prop :=
  i.opcode ∈ [.mov, .add, .sub, .imul] → i.op0 ≠ .none ∧ (∀ value, i.op0 ≠ .imm value) ∧ i.op1 ≠ .none

theorem value?_isSome (ho : o.Unallocated ∨ o = .fixed .rax) (hne : o ≠ .none) (v : Virtual)
    (wide : Bool) : ∃ x, v.value? wide o = some x := by
  rcases ho with ho | rfl
  · cases ho with
    | none => exact absurd rfl hne
    | temp t => exact ⟨_, rfl⟩
    | mem disp => exact ⟨_, rfl⟩
    | imm value => exact ⟨_, rfl⟩
  · exact ⟨_, rfl⟩

theorem write?_isSome (ho : o.Unallocated ∨ o = .fixed .rax) (hne : o ≠ .none)
    (himm : ∀ value, o ≠ .imm value) (v : Virtual) (wide : Bool) (x : Word) :
    ∃ v', v.write? wide x o = some v' := by
  rcases ho with ho | rfl
  · cases ho with
    | none => exact absurd rfl hne
    | temp t => exact ⟨_, rfl⟩
    | mem disp => exact ⟨_, rfl⟩
    | imm value => exact absurd rfl (himm value)
  · exact ⟨_, rfl⟩

theorem step?_isSome (hop : i.opcode ∈ [.noop, .mov, .add, .sub, .imul, .ret]) (hret : i.opcode ≠ .ret)
    (h0 : i.op0.Unallocated ∨ i.op0 = .fixed .rax) (h1 : i.op1.Unallocated) (hi : Complete i)
    (v : Virtual) : ∃ v', v.step? i = some v' := by
  simp only [List.mem_cons, List.not_mem_nil, or_false] at hop
  by_cases hnoop : i.opcode = .noop
  · exact ⟨v, by simp [Virtual.step?, hnoop]⟩
  obtain ⟨hne0, himm, hne1⟩ := hi (by
    simp only [List.mem_cons, List.not_mem_nil, or_false]
    tauto)
  obtain ⟨x, hx⟩ := value?_isSome h0 hne0 v i.isWide
  obtain ⟨y, hy⟩ := value?_isSome (Or.inl h1) hne1 v i.isWide
  have hwrite := write?_isSome h0 hne0 himm v i.isWide
  rcases hop with h | h | h | h | h | h
  · exact absurd h hnoop
  · rw [Virtual.step?_mov h, hy]
    exact hwrite y
  · simp only [Virtual.step?, h, Virtual.combine?, hx, hy]
    exact hwrite (x + y)
  · simp only [Virtual.step?, h, Virtual.combine?, hx, hy]
    exact hwrite (x - y)
  · simp only [Virtual.step?, h, Virtual.combine?, hx, hy]
    exact hwrite (x * y)
  · exact absurd h hret

theorem exec?_isSome (hcode : Allocable code) (hall : ∀ i ∈ code, Complete i) (v : Virtual) :
    ∃ v', Virtual.exec? code v = some v' := by
  -- what is left of allocable code need not be allocable: its temporaries were defined before
  have hstep : ∀ i ∈ code, i.opcode ≠ .ret → ∀ v : Virtual, ∃ v', v.step? i = some v' :=
    fun i hi hret => step?_isSome (hcode.opcodes i hi) hret (hcode.first i hi) (hcode.second i hi)
      (hall i hi)
  clear hall hcode
  induction code generalizing v with
  | nil => exact ⟨v, rfl⟩
  | cons i rest ih =>
    by_cases hret : i.opcode = .ret
    · exact ⟨v, by simp [Virtual.exec?, hret]⟩
    · obtain ⟨v', hv'⟩ := hstep i (by simp) hret v
      simp only [Virtual.exec?, hret, if_false, hv', Option.bind_some]
      exact ih v' fun j hj => hstep j (by simp [hj])

/-- Code with registers, executed up to its first return, leaves the memory that the code over
temporaries leaves, and the same result if it has copied one to the accumulator; it gets stuck only
where an operand is missing. The two executions start with the same memory and frame; all other
registers may differ. -/
theorem registers_simulate_temps (hcode : Allocable code) (h : fresh.allocate code = .ok (out, b, n))
    (hm : s.memory = v.state.memory) (hf : s.get .rbp = v.state.get .rbp) :
    Option.Rel (fun v' s' => s'.memory = v'.state.memory ∧
        ((∃ i, lastBeforeReturn? code = some i ∧ i.op0 = .fixed .rax) →
          s'.get .rax = v'.state.get .rax))
      (Virtual.exec? code v) (State.exec? out s) ∧
    ((∀ i ∈ code, Complete i) → ∃ v' s', Virtual.exec? code v = some v' ∧ State.exec? out s = some s') := by
  have hrel := exec?_allocateFrom hcode (List.nil_append code).symm balanced_fresh
    (⟨hm, hf, fun t r ht => by simp [fresh] at ht⟩ : fresh.Simulates v s)
    (fun t ⟨j, hj, _⟩ => by simp at hj) h
  refine ⟨hrel, fun hall => ?_⟩
  obtain ⟨v', hv'⟩ := exec?_isSome hcode hall v
  rw [hv'] at hrel
  cases hs' : State.exec? out s with
  | none =>
    rw [hs'] at hrel
    cases hrel
  | some s' => exact ⟨v', s', hv', rfl⟩

/-- The code of `x + 5` for a name that has its slot at the top of the frame. -/
def sumCode : List Instruction :=
  [] ++ [⟨.mov, .temp ⟨1⟩, .mem .rbp (-4), .rm⟩] ++ [⟨.mov, .temp ⟨2⟩, .temp ⟨1⟩, .rr⟩]
    ++ [⟨.add, .temp ⟨2⟩, .imm 5, .ri⟩] ++ [⟨.mov, .fixed .rax, .temp ⟨2⟩, .rr⟩] ++ [.nullary .ret]

theorem allocable_sumCode : Allocable sumCode := by
  refine Computes.allocable (((computes_nil.snoc ?_ (.temp _) (.mem _) ?_).snoc ?_ (.temp _) (.temp _)
    ?_).snoc ?_ (.temp _) (.imm _) ?_) (.temp _) ?_
  · simp
  · intro t ht
    obtain rfl : (⟨1⟩ : Temp) = t := by simpa [Instruction.mentions, Operand.isTemp, Operand.temp] using ht
    exact Or.inr ⟨rfl, rfl, by simp [Operand.temp]⟩
  · simp
  · intro t ht
    simp only [Instruction.mentions, Operand.isTemp, Operand.temp, Bool.or_eq_true, decide_eq_true_eq]
      at ht
    rcases ht with rfl | rfl
    · exact Or.inr ⟨rfl, rfl, by simp [Operand.temp]⟩
    · exact Or.inl (by decide)
  · simp
  · intro t ht
    obtain rfl : (⟨2⟩ : Temp) = t := by simpa [Instruction.mentions, Operand.isTemp, Operand.temp] using ht
    exact Or.inl (by decide)
  · intro t ht
    obtain rfl : (⟨2⟩ : Temp) = t := by simpa [Operand.temp] using ht
    decide

/-- The temporaries start with one value, the registers with another. -/
theorem registers_simulate_temps_sum :
    Allocable sumCode ∧ ∃ out b n, fresh.allocate sumCode = .ok (out, b, n) ∧
      ∃ v' s', Virtual.exec? sumCode ⟨fun _ => 7, .entry⟩ = some v' ∧
        State.exec? out State.entry = some s' := by
  refine ⟨allocable_sumCode, _, _, _, rfl, ?_⟩
  refine (registers_simulate_temps allocable_sumCode rfl rfl rfl).2 ?_
  intro i hi
  simp only [sumCode, List.nil_append, List.mem_append, List.mem_singleton] at hi
  rcases hi with (((rfl | rfl) | rfl) | rfl) | rfl
  all_goals simp [Complete, Operand.temp, Operand.fixed, Instruction.nullary]

end Allocator

end ArithJit.Machine
