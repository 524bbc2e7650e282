import ArithJit.Proofs.Balance

/-!
# Proofs: live ranges

A temporary is live from the instruction that defines it to the last instruction that mentions it, and
it holds the same register all that time. So temporaries that are live at the same instruction have
different registers, and nothing is live at the end of the code.
-/

namespace ArithJit.Machine

theorem Operand.isTemp_iff {o : Operand} {t : Temp} : o.isTemp t = true ↔ o.temp? = some t := by
  cases o with
  | reg operand =>
    obtain ⟨u, r⟩ := operand
    cases u <;> simp [Operand.isTemp, Operand.temp?, Operand.asRegister?]
  | none => simp [Operand.isTemp, Operand.temp?, Operand.asRegister?]
  | mem base disp => simp [Operand.isTemp, Operand.temp?, Operand.asRegister?]
  | imm value => simp [Operand.isTemp, Operand.temp?, Operand.asRegister?]

theorem Instruction.mentions_iff {i : Instruction} {t : Temp} :
    i.mentions t = true ↔ i.op0.temp? = some t ∨ i.op1.temp? = some t := by
  simp [Instruction.mentions, Operand.isTemp_iff]

@[simp]
theorem Operand.temp?_temp (t : Temp) : (Operand.temp t).temp? = some t := rfl

namespace Allocator

open Assoc (find?)

variable {a b c : Allocator} {n m : Allocation} {t u : Temp} {r : Register} {o p : Operand}
  {i j : Instruction} {rest code out : List Instruction}

/-! ## What the parts of a step do to live temporaries -/

theorem temp?_assignFirst (h : a.assignFirst n o = .ok (p, b, m)) : p.temp? = o.temp? := by
  rcases assignFirst_cases h with ⟨rfl, -, -, -⟩ | ⟨t, r, rfl, rfl, -⟩
  · rfl
  · rfl

theorem temp?_assignSecond (h : a.assignSecond o = .ok p) : p.temp? = o.temp? := by
  rcases assignSecond_cases h with ⟨rfl, -⟩ | ⟨t, r, ho, rfl, -⟩
  · rfl
  · rw [ho]; rfl

/-- Assigning the first operand makes its temporary live and changes no other. -/
theorem find?_assignFirst (h : a.assignFirst n o = .ok (p, b, m)) :
    (∀ u r, find? u a.live = some r → find? u b.live = some r) ∧
    (∀ u r, find? u b.live = some r → find? u a.live = some r ∨ o = .temp u) ∧
    (∀ u, o = .temp u → ∃ r, find? u b.live = some r ∧ p = .reg ⟨some u, some r⟩) := by
  rcases assignFirst_cases h with ⟨rfl, rfl, -, hne⟩ | ⟨t, r, rfl, rfl, hd⟩
  · exact ⟨fun _ _ hu => hu, fun _ _ hu => Or.inl hu, fun u hu => absurd hu (hne u)⟩
  · rcases define_cases hd with ⟨hlive, rfl, -⟩ | ⟨hnone, free, -, rfl, -⟩
    · refine ⟨fun _ _ hu => hu, fun _ _ hu => Or.inl hu, fun u hu => ?_⟩
      cases hu
      exact ⟨r, hlive, rfl⟩
    · have hfind : ∀ u, find? u (a.live ++ [(t, r)]) = if u = t then some r else find? u a.live := by
        intro u
        rw [← Assoc.insert_eq_append hnone, Assoc.find?_insert]
      refine ⟨fun u q hu => ?_, fun u q hu => ?_, fun u hu => ?_⟩
      · have hut : u ≠ t := by
          rintro rfl
          rw [hnone] at hu
          exact absurd hu (by simp)
        simpa [hfind, hut] using hu
      · by_cases hut : u = t
        · exact Or.inr (by rw [hut])
        · simp only [hfind, hut, if_false] at hu
          exact Or.inl hu
      · cases hu
        exact ⟨r, by simp [hfind], rfl⟩

/-- Only a whole step counts the registers that are held. -/
theorem maxPressure_assignFirst (h : a.assignFirst n o = .ok (p, b, m)) : m.maxPressure = n.maxPressure := by
  rcases assignFirst_cases h with ⟨-, -, rfl, -⟩ | ⟨t, r, -, -, hd⟩
  · rfl
  · rcases define_cases hd with ⟨-, -, rfl⟩ | ⟨-, free, -, -, rfl⟩ <;> rfl

/-- A release ends the life of a temporary that the rest of the code does not mention. -/
theorem find?_release (ha : a.Balanced) (h : a.release rest o = .ok b) :
    find? t b.live = some r ↔
      find? t a.live = some r ∧ (o.temp? = some t → rest.any (·.mentions t) = true) := by
  rcases release_cases h with ⟨rfl, hnone⟩ | ⟨u, q, hu, hany, hlive, rfl⟩
  · refine ⟨fun ht => ⟨ht, fun ho => ?_⟩, fun ht => ht.1⟩
    cases hm : rest.any (·.mentions t) with
    | true => rfl
    | false =>
      rw [hnone t ho hm] at ht
      exact absurd ht (by simp)
  · by_cases htu : t = u
    · subst htu
      rw [show find? t (Assoc.erase t a.live) = none from Assoc.find?_erase_self ha.keys]
      simp only [reduceCtorEq, false_iff, not_and]
      intro _ hmention
      rw [hany] at hmention
      exact absurd (hmention hu) (by decide)
    · rw [show find? t (Assoc.erase u a.live) = find? t a.live from Assoc.find?_erase_of_ne htu _]
      refine ⟨fun ht => ⟨ht, fun ho => ?_⟩, fun ht => ht.1⟩
      rw [hu, Option.some.injEq] at ho
      exact absurd ho.symm htu

/-- After a step those temporaries are live that were live within it and are not mentioned for the last
time. -/
theorem find?_step {d : Allocator} {m' : Allocation} (ha : a.Balanced)
    (h : a.step n i rest = .ok (j, d, m')) :
    ∃ p c m, a.assignFirst n i.op0 = .ok (p, c, m) ∧ m'.assignments = m.assignments ∧
      ∀ t r, find? t d.live = some r ↔
        find? t c.live = some r ∧ (i.mentions t = true → rest.any (·.mentions t) = true) := by
  obtain ⟨op0, c, m, op1, e, h1, h2, h3, h4, -, rfl⟩ := step_ok h
  have hc := ha.assignFirst h1
  refine ⟨op0, c, m, h1, rfl, fun t r => ?_⟩
  rw [find?_release (hc.release h3) h4, find?_release hc h3, temp?_assignFirst h1,
    temp?_assignSecond h2, Instruction.mentions_iff]
  constructor
  · rintro ⟨⟨hlive, h0⟩, h1'⟩
    exact ⟨hlive, fun hm => hm.elim h0 h1'⟩
  · rintro ⟨hlive, hm⟩
    exact ⟨⟨hlive, fun h0 => hm (Or.inl h0)⟩, fun h1' => hm (Or.inr h1')⟩

/-! ## Nothing is live at the end -/

/-- Every live temporary is mentioned in the code that is left. -/
def NeededBy (a : Allocator) (code : List Instruction) : Prop :=
  ∀ t r, find? t a.live = some r → code.any (·.mentions t) = true

theorem NeededBy.step (ha : a.Balanced) (hn : a.NeededBy (i :: rest))
    (h : a.step n i rest = .ok (j, b, m)) : b.NeededBy rest := by
  obtain ⟨p, c, k, h1, -, hfind⟩ := find?_step ha h
  intro t r ht
  obtain ⟨hlive, hmention⟩ := (hfind t r).mp ht
  have hi : i.mentions t = true ∨ rest.any (·.mentions t) = true := by
    rcases (find?_assignFirst h1).2.1 t r hlive with hold | hnew
    · simpa using hn t r hold
    · exact Or.inl (Instruction.mentions_iff.mpr (Or.inl (by rw [hnew]; rfl)))
  exact hi.elim hmention id

theorem live_eq_nil (ha : a.Balanced) (hn : a.NeededBy code)
    (h : a.allocateFrom n code = .ok (out, b, m)) : b.live = [] := by
  induction code generalizing a n out with
  | nil =>
    simp only [allocateFrom, Except.ok.injEq, Prod.mk.injEq] at h
    obtain ⟨-, rfl, -⟩ := h
    cases hl : a.live with
    | nil => rfl
    | cons entry live =>
      have hfind : find? entry.1 a.live = some entry.2 := by
        rw [hl]
        simp [find?]
      exact absurd (hn _ _ hfind) (by simp)
  | cons i rest ih =>
    obtain ⟨j, c, k, out', hstep, hrest, -⟩ := allocateFrom_cons_ok h
    exact ih (ha.step hstep) (hn.step ha hstep) hrest

/-! ## Assignments last -/

/-- The registers of live temporaries are those that were recorded for them. -/
def Recorded (a : Allocator) (n : Allocation) : Prop :=
  ∀ t r, find? t a.live = some r → find? t n.assignments = some r

theorem Recorded.assignFirst (hr : a.Recorded n) (h : a.assignFirst n o = .ok (p, b, m)) :
    b.Recorded m := by
  rcases assignFirst_cases h with ⟨-, rfl, rfl, -⟩ | ⟨t, q, -, -, hd⟩
  · exact hr
  · rcases define_cases hd with ⟨-, rfl, rfl⟩ | ⟨hnone, free, -, rfl, rfl⟩
    · exact hr
    · intro u r hu
      rw [← Assoc.insert_eq_append hnone, Assoc.find?_insert] at hu
      rw [Assoc.find?_insert]
      by_cases hut : u = t
      · simpa [hut] using hu
      · simp only [hut, if_false] at hu ⊢
        exact hr u r hu

theorem Recorded.step (ha : a.Balanced) (hr : a.Recorded n)
    (h : a.step n i rest = .ok (j, b, m)) : b.Recorded m := by
  obtain ⟨p, c, k, h1, hm, hfind⟩ := find?_step ha h
  intro t r ht
  rw [hm]
  exact hr.assignFirst h1 t r ((hfind t r).mp ht).1

/-- What was recorded for a temporary stays if it is live or is not defined again. -/
theorem assignments_assignFirst (ht : find? t n.assignments = some r)
    (hlive : find? t a.live = some r ∨ o ≠ .temp t) (h : a.assignFirst n o = .ok (p, b, m)) :
    find? t m.assignments = some r := by
  rcases assignFirst_cases h with ⟨-, -, rfl, -⟩ | ⟨u, q, rfl, -, hd⟩
  · exact ht
  · rcases define_cases hd with ⟨-, -, rfl⟩ | ⟨hnone, free, -, -, rfl⟩
    · exact ht
    · have htu : t ≠ u := by
        rintro rfl
        rcases hlive with hl | hl
        · rw [hnone] at hl
          exact absurd hl (by simp)
        · exact hl rfl
      rw [Assoc.find?_insert_of_ne htu]
      exact ht

/-- The register of a live temporary is the one that the whole allocation records for it. -/
theorem assignments_allocateFrom (ha : a.Balanced) (ht : find? t n.assignments = some r)
    (hlive : find? t a.live = some r ∨ code.any (·.mentions t) = false)
    (h : a.allocateFrom n code = .ok (out, b, m)) : find? t m.assignments = some r := by
  induction code generalizing a n out with
  | nil =>
    simp only [allocateFrom, Except.ok.injEq, Prod.mk.injEq] at h
    rw [← h.2.2]
    exact ht
  | cons i rest ih =>
    obtain ⟨j, c, k, out', hstep, hrest, -⟩ := allocateFrom_cons_ok h
    obtain ⟨p, e, k', h1, hk, hfind⟩ := find?_step ha hstep
    refine ih (ha.step hstep) ?_ ?_ hrest
    · rw [hk]
      refine assignments_assignFirst ht (hlive.imp id fun hno hop => ?_) h1
      have hi : i.mentions t = true := Instruction.mentions_iff.mpr (Or.inl (by rw [hop]; rfl))
      simp [hi] at hno
    · cases hm : rest.any (·.mentions t) with
      | false => exact Or.inr rfl
      | true =>
        rcases hlive with hl | hl
        · exact Or.inl ((hfind t r).mpr ⟨(find?_assignFirst h1).1 t r hl, fun _ => hm⟩)
        · simp [hm] at hl

/-! ## Live ranges do not share registers -/

/-- Instruction `k` lies in the live range of a temporary: the first definition of the temporary is not
after it, and the last mention is not before it. A first operand that has a register defines nothing. -/
def Spans (code : List Instruction) (t : Temp) (k : Nat) : Prop :=
  (∃ j ≤ k, ∃ i, code[j]? = some i ∧ i.op0 = .temp t) ∧
  ∃ j ≥ k, ∃ i, code[j]? = some i ∧ i.mentions t = true

/-- As `Spans`, for code that is entered with live temporaries. -/
def SpansFrom (a : Allocator) (code : List Instruction) (t : Temp) (k : Nat) : Prop :=
  ((∃ r, find? t a.live = some r) ∨ ∃ j ≤ k, ∃ i, code[j]? = some i ∧ i.op0 = .temp t) ∧
  ∃ j ≥ k, ∃ i, code[j]? = some i ∧ i.mentions t = true

/-- At its first instruction, a live range holds a register once the first operand is assigned. -/
theorem SpansFrom.live (hs : a.SpansFrom (i :: rest) t 0) (h : a.assignFirst n i.op0 = .ok (p, b, m)) :
    ∃ r, find? t b.live = some r := by
  obtain ⟨hlive | ⟨j, hj, i', hi', hop⟩, -⟩ := hs
  · obtain ⟨r, hr⟩ := hlive
    exact ⟨r, (find?_assignFirst h).1 t r hr⟩
  · obtain rfl : j = 0 := by omega
    obtain rfl : i = i' := by simpa using hi'
    obtain ⟨r, hr, -⟩ := (find?_assignFirst h).2.2 t hop
    exact ⟨r, hr⟩

theorem SpansFrom.step (ha : a.Balanced) {k : Nat} (hs : a.SpansFrom (i :: rest) t (k + 1))
    (h : a.step n i rest = .ok (j, b, m)) : b.SpansFrom rest t k := by
  obtain ⟨p, c, m', h1, -, hfind⟩ := find?_step ha h
  obtain ⟨hstart, l, hl, i', hi', hmention⟩ := hs
  obtain ⟨l, rfl⟩ : ∃ l', l = l' + 1 := ⟨l - 1, by omega⟩
  rw [List.getElem?_cons_succ] at hi'
  have hrest : rest.any (·.mentions t) = true :=
    List.any_eq_true.mpr ⟨i', List.mem_of_getElem? hi', hmention⟩
  refine ⟨?_, l, by omega, i', hi', hmention⟩
  rcases hstart with ⟨r, hr⟩ | ⟨l', hl', i'', hi'', hop⟩
  · exact Or.inl ⟨r, (hfind t r).mpr ⟨(find?_assignFirst h1).1 t r hr, fun _ => hrest⟩⟩
  · cases l' with
    | zero =>
      -- the definition is this very instruction; the mention after it keeps the register
      obtain rfl : i = i'' := by simpa using hi''
      obtain ⟨r, hr, -⟩ := (find?_assignFirst h1).2.2 t hop
      exact Or.inl ⟨r, (hfind t r).mpr ⟨hr, fun _ => hrest⟩⟩
    | succ l' =>
      rw [List.getElem?_cons_succ] at hi''
      exact Or.inr ⟨l', by omega, i'', hi'', hop⟩

/-- What is live within a step stays recorded: it is live after the step or never mentioned again. -/
theorem assignments_of_assignFirst {d : Allocator} {k k' : Allocation} (ha : a.Balanced)
    (hr : a.Recorded n) (hfirst : a.assignFirst n i.op0 = .ok (p, d, k))
    (hstep : a.step n i rest = .ok (j, c, k')) (hrest : c.allocateFrom k' rest = .ok (out, b, m))
    (ht : find? t d.live = some r) : find? t m.assignments = some r := by
  obtain ⟨p', d', k'', hfirst', hk, hfind⟩ := find?_step ha hstep
  rw [hfirst, Except.ok.injEq, Prod.mk.injEq, Prod.mk.injEq] at hfirst'
  obtain ⟨rfl, rfl, rfl⟩ := hfirst'
  refine assignments_allocateFrom (ha.step hstep) ?_ ?_ hrest
  · rw [hk]
    exact hr.assignFirst hfirst t r ht
  · cases hany : rest.any (·.mentions t) with
    | false => exact Or.inr rfl
    | true => exact Or.inl ((hfind t r).mpr ⟨ht, fun _ => hany⟩)

/-- Two live ranges that meet are recorded with different registers. -/
theorem assignments_ne (ha : a.Balanced) (hr : a.Recorded n) (hne : t ≠ u) {k : Nat}
    (ht : a.SpansFrom code t k) (hu : a.SpansFrom code u k)
    (h : a.allocateFrom n code = .ok (out, b, m)) :
    ∃ p q, find? t m.assignments = some p ∧ find? u m.assignments = some q ∧ p ≠ q := by
  induction code generalizing a n out k with
  | nil =>
    obtain ⟨-, j, -, i, hi, -⟩ := ht
    simp at hi
  | cons i rest ih =>
    obtain ⟨j, c, m', out', hstep, hrest, -⟩ := allocateFrom_cons_ok h
    cases k with
    | succ k => exact ih (ha.step hstep) (hr.step ha hstep) (ht.step ha hstep) (hu.step ha hstep) hrest
    | zero =>
      obtain ⟨o, d, m'', h1, -, -⟩ := find?_step ha hstep
      obtain ⟨p, hp⟩ := ht.live h1
      obtain ⟨q, hq⟩ := hu.live h1
      refine ⟨p, q, assignments_of_assignFirst ha hr h1 hstep hrest hp,
        assignments_of_assignFirst ha hr h1 hstep hrest hq, ?_⟩
      rintro rfl
      exact hne ((ha.assignFirst h1).injective hp hq)

/-! ## Every allocation, in any order -/

/-- The allocators that allocations lead to, one after the other. -/
inductive Reached : Allocator → Prop where
  | fresh : Reached .fresh
  | allocate {a b : Allocator} {code out : List Instruction} {n : Allocation} (ha : Reached a)
      (h : a.allocate code = .ok (out, b, n)) : Reached b

/-- The allocators that an allocation passes through, also if it fails later on. -/
inductive Passes : Allocator → Allocation → List Instruction → Allocator → Prop where
  /-- The allocator before an instruction. -/
  | start (a : Allocator) (n : Allocation) (code : List Instruction) : Passes a n code a
  /-- The allocator after the first operand is assigned. -/
  | assigned {a b : Allocator} {n m : Allocation} {i : Instruction} {rest : List Instruction}
      {p : Operand} (h0 : a.assignFirst n i.op0 = .ok (p, b, m)) : Passes a n (i :: rest) b
  /-- The allocator after the first operand is released. -/
  | released {a b c : Allocator} {n m : Allocation} {i : Instruction} {rest : List Instruction}
      {p q : Operand} (h0 : a.assignFirst n i.op0 = .ok (p, b, m))
      (h1 : b.assignSecond i.op1 = .ok q) (h : b.release rest p = .ok c) : Passes a n (i :: rest) c
  /-- The allocators after the instruction. -/
  | next {a b c : Allocator} {n m : Allocation} {i j : Instruction} {rest : List Instruction}
      (h : a.step n i rest = .ok (j, b, m)) (hc : Passes b m rest c) : Passes a n (i :: rest) c

theorem Balanced.passes (ha : a.Balanced) (h : Passes a n code b) : b.Balanced := by
  induction h with
  | start => exact ha
  | assigned h0 => exact ha.assignFirst h0
  | released h0 _ h => exact (ha.assignFirst h0).release h
  | next h _ ih => exact ih (ha.step h)

/-- Between two allocations all registers are free. -/
theorem Reached.balanced (h : Reached a) : a.Balanced ∧ a.live = [] := by
  induction h with
  | fresh => exact ⟨balanced_fresh, rfl⟩
  | allocate _ h ih =>
    obtain ⟨hbal, hlive⟩ := ih
    refine ⟨hbal.allocateFrom h, live_eq_nil hbal ?_ h⟩
    intro t r ht
    simp [hlive] at ht

/-- However many pieces of code were given registers before: at every point of an allocation each
allocatable register is free or held by one temporary, no register is given back wrongly, all registers
are free at the end, and live ranges that meet have different registers. -/
theorem registers_partitioned (ha : Reached a) (code : List Instruction) :
    (∀ b, Passes a {} code b →
      (b.live.map Prod.fst).Nodup ∧
      (∀ t u r, find? t b.live = some r → find? u b.live = some r → t = u) ∧
      (∀ t r, find? t b.live = some r → r ∉ b.pool.free) ∧
      b.pool.free.Nodup ∧
      (∀ r, r ∈ allocatable ↔ r ∈ b.pool.free ∨ ∃ t, find? t b.live = some r) ∧
      (b.live.map Prod.snd ++ b.pool.free).Perm allocatable) ∧
    (∀ r, a.allocate code ≠ .error (.freedTwice r) ∧
      a.allocate code ≠ .error (.unmanagedRegister r)) ∧
    ∀ out b n, a.allocate code = .ok (out, b, n) →
      b.live = [] ∧ b.pool.free.Perm allocatable ∧
      ∀ t u k, t ≠ u → Spans code t k → Spans code u k →
        ∃ p q, find? t n.assignments = some p ∧ find? u n.assignments = some q ∧ p ≠ q := by
  obtain ⟨hbal, hlive⟩ := ha.balanced
  refine ⟨fun b hb => ?_, fun r => ?_, fun out b n h => ?_⟩
  · have hb' := hbal.passes hb
    refine ⟨hb'.keys, fun _ _ _ => hb'.injective, fun _ _ => hb'.not_free,
      (List.nodup_append.mp hb'.nodup).2.1, fun r => ?_, hb'.registers⟩
    rw [← hb'.registers.mem_iff, List.mem_append, or_comm, List.mem_map]
    refine or_congr_right ⟨?_, ?_⟩
    · rintro ⟨⟨t, q⟩, hmem, rfl⟩
      exact ⟨t, Assoc.find?_of_mem hb'.keys hmem⟩
    · rintro ⟨t, ht⟩
      exact ⟨(t, r), Assoc.mem_of_find? ht, rfl⟩
  · constructor <;> intro h
    all_goals
      rcases hbal.allocateFrom_error h with ⟨t, ht⟩ | ⟨t, ht⟩
      · exact absurd ht (by simp)
      · exact absurd ht (by simp)
  · have hempty : b.live = [] := Reached.balanced (.allocate ha h) |>.2
    have hfree := (hbal.allocateFrom h).registers
    rw [hempty] at hfree
    refine ⟨hempty, hfree, fun t u k hne ht hu => ?_⟩
    have hrec : a.Recorded {} := by
      intro t r ht
      simp [hlive] at ht
    exact assignments_ne hbal hrec hne ⟨Or.inr ht.1, ht.2⟩ ⟨Or.inr hu.1, hu.2⟩ h

/-- Code in which both temporaries die at the same instruction: their registers go back in turn, so that
the allocator that is left gives out `rcx` before `rax`. -/
def pairCode : List Instruction :=
  [⟨.mov, .temp ⟨0⟩, .imm 1, .ri⟩, ⟨.mov, .temp ⟨1⟩, .temp ⟨0⟩, .rr⟩,
   ⟨.add, .temp ⟨0⟩, .temp ⟨1⟩, .rr⟩]

/-- A second allocation, with the order of registers that the first one has left behind. -/
theorem registers_partitioned_reused :
    Reached ⟨⟨[.rcx, .rax, .rdx, .rbx, .rsi, .rdi]⟩, []⟩ ∧
    ∃ out b n, allocate ⟨⟨[.rcx, .rax, .rdx, .rbx, .rsi, .rdi]⟩, []⟩ pairCode = .ok (out, b, n) ∧
      b.live = [] ∧ b.pool.free.Perm allocatable ∧
      ∃ p q, find? ⟨0⟩ n.assignments = some p ∧ find? ⟨1⟩ n.assignments = some q ∧ p ≠ q := by
  have hreached : Reached ⟨⟨[.rcx, .rax, .rdx, .rbx, .rsi, .rdi]⟩, []⟩ :=
    .allocate .fresh (show fresh.allocate pairCode = .ok (_, _, _) from rfl)
  obtain ⟨hlive, hfree, hne⟩ := (registers_partitioned hreached pairCode).2.2 _ _ _ rfl
  refine ⟨hreached, _, _, _, rfl, hlive, hfree, ?_⟩
  exact hne ⟨0⟩ ⟨1⟩ 1 (by decide)
    ⟨⟨0, by decide, _, rfl, rfl⟩, 1, by decide, _, rfl, by decide⟩
    ⟨⟨1, by decide, _, rfl, rfl⟩, 2, by decide, _, rfl, by decide⟩

end Allocator

end ArithJit.Machine
