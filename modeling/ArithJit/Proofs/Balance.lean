import ArithJit.Machine.Allocation
import ArithJit.Proofs.Association
import ArithJit.Proofs.Results

/-!
# Proofs: the balance of free and held registers

While registers are given out, each allocatable register is either free or held by one temporary
(`Allocator.Balanced`). So giving a register back never faults, and an allocation fails only if all six
registers are held or a temporary is read that holds none. A temporary holds its register exactly as
long as the rest of the code mentions it; at the end of the code no register is held.
-/

namespace ArithJit.Machine.Allocator

open Assoc (find?)

variable {a b : Allocator} {n m : Allocation} {t u : Temp} {r : Register} {o p : Operand}
  {i j : Instruction} {rest code code' : List Instruction}

/-- Each allocatable register is free or held, and not both; no temporary holds two registers. -/
structure Balanced (a : Allocator) : Prop where
  /-- A temporary occurs once among the live ones. -/
  keys : (a.live.map Prod.fst).Nodup
  /-- The registers that are held and those that are free are the allocatable ones, each once. -/
  registers : (a.live.map Prod.snd ++ a.pool.free).Perm allocatable

theorem balanced_fresh : fresh.Balanced := ⟨by decide, List.Perm.refl _⟩

theorem Balanced.nodup (ha : a.Balanced) : (a.live.map Prod.snd ++ a.pool.free).Nodup :=
  ha.registers.symm.nodup (by decide)

/-- Two temporaries do not hold the same register. -/
theorem Balanced.injective (ha : a.Balanced) (ht : find? t a.live = some r)
    (hu : find? u a.live = some r) : t = u := by
  have hn : (a.live.map Prod.snd).Nodup := (List.nodup_append.mp ha.nodup).1
  have hp := Assoc.perm_erase ht
  by_contra hne
  -- without the entry of `t` the register occurs once less, but `u` still has it
  have hu' : find? u (Assoc.erase t a.live) = some r := by
    rw [Assoc.find?_erase_of_ne (Ne.symm hne), hu]
  have hn' := (hp.map Prod.snd).nodup hn
  rw [List.map_cons, List.nodup_cons] at hn'
  exact hn'.1 (List.mem_map.mpr ⟨_, Assoc.mem_of_find? hu', rfl⟩)

/-- A register that a temporary holds is not free. -/
theorem Balanced.not_free (ha : a.Balanced) (ht : find? t a.live = some r) : r ∉ a.pool.free := by
  intro hr
  have hd := (List.nodup_append.mp ha.nodup).2.2
  exact hd r (List.mem_map.mpr ⟨_, Assoc.mem_of_find? ht, rfl⟩) r hr rfl

/-- Only allocatable registers are held. -/
theorem Balanced.allocatable (ha : a.Balanced) (ht : find? t a.live = some r) :
    r ∈ Machine.allocatable :=
  ha.registers.mem_iff.mp
    (List.mem_append_left _ (List.mem_map.mpr ⟨_, Assoc.mem_of_find? ht, rfl⟩))

/-- If no register is free, then six temporaries hold one. -/
theorem Balanced.live_length (ha : a.Balanced) (hp : a.pool.free = []) : a.live.length = 6 := by
  have h := ha.registers.length_eq
  rw [hp, List.append_nil, List.length_map] at h
  exact h

/-! ## What the parts of a step do -/

/-- A definition finds the temporary live, or makes it live in the next free register. -/
theorem define_cases (h : a.define n t = .ok (r, b, m)) :
    (find? t a.live = some r ∧ b = a ∧ m = n) ∨
    (find? t a.live = none ∧ ∃ free, a.pool.free = r :: free ∧
      b = ⟨⟨free⟩, a.live ++ [(t, r)]⟩ ∧
      m = { n with assignments := Assoc.insert t r n.assignments }) := by
  unfold define at h
  split at h
  · next r' hr =>
    simp only [Except.ok.injEq, Prod.mk.injEq] at h
    obtain ⟨rfl, rfl, rfl⟩ := h
    exact Or.inl ⟨hr, rfl, rfl⟩
  · next hnone =>
    split at h
    · simp at h
    · next r' pool htake =>
      simp only [Except.ok.injEq, Prod.mk.injEq] at h
      obtain ⟨rfl, rfl, rfl⟩ := h
      unfold Pool.take? at htake
      split at htake
      · simp at htake
      · next r'' free hfree =>
        simp only [Option.some.injEq, Prod.mk.injEq] at htake
        obtain ⟨rfl, rfl⟩ := htake
        exact Or.inr ⟨hnone, free, hfree, by rw [Assoc.insert_eq_append hnone], rfl⟩

/-- A definition fails only if all registers are held. -/
theorem define_error {f : Fault} (ha : a.Balanced) (h : a.define n t = .error f) :
    f = .outOfRegisters t 6 := by
  unfold define at h
  split at h
  · simp at h
  · split at h
    · next htake =>
      have hfree : a.pool.free = [] := by
        unfold Pool.take? at htake
        split at htake
        · assumption
        · simp at htake
      rw [ha.live_length hfree] at h
      simpa using h.symm
    · simp at h

/-- The first operand is kept, or it is a temporary without a register and is defined. -/
theorem assignFirst_cases (h : a.assignFirst n o = .ok (p, b, m)) :
    (p = o ∧ b = a ∧ m = n ∧ ∀ t, o ≠ .temp t) ∨
    (∃ t r, o = .temp t ∧ p = .reg ⟨some t, some r⟩ ∧ a.define n t = .ok (r, b, m)) := by
  unfold assignFirst at h
  split at h
  · next t =>
    obtain ⟨⟨r, b', m'⟩, hd, h⟩ := except_bind_eq_ok.mp h
    simp only [pure, Except.pure, Except.ok.injEq, Prod.mk.injEq] at h
    obtain ⟨rfl, rfl, rfl⟩ := h
    exact Or.inr ⟨t, r, rfl, rfl, hd⟩
  · next hne =>
    simp only [Except.ok.injEq, Prod.mk.injEq] at h
    obtain ⟨rfl, rfl, rfl⟩ := h
    exact Or.inl ⟨rfl, rfl, rfl, fun t ht => hne t ht⟩

/-- The second operand is kept if it is no temporary; else its temporary is live. -/
theorem assignSecond_cases (h : a.assignSecond o = .ok p) :
    (p = o ∧ o.temp? = none) ∨
    (∃ t r, o.temp? = some t ∧ p = .reg ⟨some t, some r⟩ ∧ find? t a.live = some r) := by
  unfold assignSecond at h
  split at h
  · next t _ =>
    split at h
    · next r hr =>
      simp only [Except.ok.injEq] at h
      exact Or.inr ⟨t, r, rfl, h.symm, hr⟩
    · simp at h
  · next hne =>
    simp only [Except.ok.injEq] at h
    refine Or.inl ⟨h.symm, ?_⟩
    cases o with
    | reg operand =>
      obtain ⟨t, r⟩ := operand
      cases t with
      | none => rfl
      | some t => exact absurd rfl (hne t r)
    | none => rfl
    | mem base disp => rfl
    | imm value => rfl

/-- A release changes nothing, or it gives back the register of a temporary that the rest of the code
does not mention. -/
theorem release_cases (h : a.release rest o = .ok b) :
    (b = a ∧ ∀ t, o.temp? = some t → rest.any (·.mentions t) = false → find? t a.live = none) ∨
    (∃ t r, o.temp? = some t ∧ rest.any (·.mentions t) = false ∧ find? t a.live = some r ∧
      b = ⟨⟨r :: a.pool.free⟩, Assoc.erase t a.live⟩) := by
  unfold release at h
  split at h
  · next hnone =>
    simp only [Except.ok.injEq] at h
    exact Or.inl ⟨h.symm, fun t ht => by simp [hnone] at ht⟩
  · next t ht =>
    split at h
    · next hany =>
      simp only [Except.ok.injEq] at h
      refine Or.inl ⟨h.symm, fun u hu hno => ?_⟩
      rw [ht, Option.some.injEq] at hu
      subst hu
      rw [hany] at hno
      exact absurd hno (by decide)
    · next hany =>
      split at h
      · next hlive =>
        simp only [Except.ok.injEq] at h
        refine Or.inl ⟨h.symm, fun u hu _ => ?_⟩
        rw [ht, Option.some.injEq] at hu
        exact hu ▸ hlive
      · next r hlive =>
        refine Or.inr ⟨t, r, ht, by simpa using hany, hlive, ?_⟩
        unfold Pool.give at h
        split at h
        · simp [bind, Except.bind] at h
        · split at h
          · simp [bind, Except.bind] at h
          · simpa [bind, Except.bind, pure, Except.pure] using h.symm

/-- A step assigns the first operand, then the second, and releases both in turn. -/
theorem step_ok {d : Allocator} {m' : Allocation} (h : a.step n i rest = .ok (j, d, m')) :
    ∃ op0 b m op1 c, a.assignFirst n i.op0 = .ok (op0, b, m) ∧ b.assignSecond i.op1 = .ok op1 ∧
      b.release rest op0 = .ok c ∧ c.release rest op1 = .ok d ∧ j = { i with op0, op1 } ∧
      m' = { m with maxPressure := max m.maxPressure b.live.length } := by
  unfold step at h
  obtain ⟨⟨op0, b, m⟩, h1, h⟩ := except_bind_eq_ok.mp h
  obtain ⟨op1, h2, h⟩ := except_bind_eq_ok.mp h
  obtain ⟨c, h3, h⟩ := except_bind_eq_ok.mp h
  obtain ⟨d', h4, h⟩ := except_bind_eq_ok.mp h
  simp only [pure, Except.pure, Except.ok.injEq, Prod.mk.injEq] at h
  obtain ⟨rfl, rfl, rfl⟩ := h
  exact ⟨op0, b, m, op1, c, h1, h2, h3, h4, rfl, rfl⟩

/-- An allocation of several instructions is a step and an allocation of the rest. -/
theorem allocateFrom_cons_ok {out : List Instruction}
    (h : a.allocateFrom n (i :: rest) = .ok (out, b, m)) :
    ∃ j c k out', a.step n i rest = .ok (j, c, k) ∧ c.allocateFrom k rest = .ok (out', b, m) ∧
      out = j :: out' := by
  rw [allocateFrom] at h
  obtain ⟨⟨j, c, k⟩, h1, h⟩ := except_bind_eq_ok.mp h
  obtain ⟨⟨out', b', m'⟩, h2, h⟩ := except_bind_eq_ok.mp h
  simp only [pure, Except.pure, Except.ok.injEq, Prod.mk.injEq] at h
  obtain ⟨rfl, rfl, rfl⟩ := h
  exact ⟨j, c, k, out', h1, h2, rfl⟩

/-- If an allocation of several instructions fails, then the step or the allocation of the rest fails. -/
theorem allocateFrom_cons_error {f : Fault} (h : a.allocateFrom n (i :: rest) = .error f) :
    a.step n i rest = .error f ∨
    ∃ j c k, a.step n i rest = .ok (j, c, k) ∧ c.allocateFrom k rest = .error f := by
  rw [allocateFrom] at h
  rcases except_bind_eq_error.mp h with h | ⟨⟨j, c, k⟩, h1, h⟩
  · exact Or.inl h
  · rcases except_bind_eq_error.mp h with h | ⟨x, -, h⟩
    · exact Or.inr ⟨j, c, k, h1, h⟩
    · cases h

/-! ## The balance is kept -/

theorem Balanced.define (ha : a.Balanced) (h : a.define n t = .ok (r, b, m)) : b.Balanced := by
  rcases define_cases h with ⟨-, rfl, -⟩ | ⟨hnone, free, hfree, rfl, -⟩
  · exact ha
  · refine ⟨?_, ?_⟩
    · rw [List.map_append, List.nodup_append]
      refine ⟨ha.keys, by simp, ?_⟩
      intro x hx y hy hxy
      simp only [List.map_cons, List.map_nil, List.mem_singleton] at hy
      rw [hxy, hy] at hx
      exact Assoc.find?_eq_none.mp hnone hx
    · have hr := ha.registers
      rw [hfree] at hr
      simpa using hr

theorem Balanced.assignFirst (ha : a.Balanced) (h : a.assignFirst n o = .ok (p, b, m)) :
    b.Balanced := by
  rcases assignFirst_cases h with ⟨-, rfl, -, -⟩ | ⟨t, r, -, -, hd⟩
  · exact ha
  · exact ha.define hd

theorem Balanced.release (ha : a.Balanced) (h : a.release rest o = .ok b) : b.Balanced := by
  rcases release_cases h with ⟨rfl, -⟩ | ⟨t, r, -, -, hlive, rfl⟩
  · exact ha
  · have hp := Assoc.perm_erase hlive
    refine ⟨?_, ?_⟩
    · have hk := (hp.map Prod.fst).nodup ha.keys
      rw [List.map_cons, List.nodup_cons] at hk
      exact hk.2
    · have hr := ((hp.map Prod.snd).append_right a.pool.free).symm.trans ha.registers
      exact List.perm_middle.trans (by simpa using hr)

/-- Giving back the register of a live temporary does not fault. -/
theorem Balanced.release_ok (ha : a.Balanced) (rest : List Instruction) (o : Operand) :
    ∃ b, a.release rest o = .ok b := by
  unfold Allocator.release
  split
  · exact ⟨a, rfl⟩
  · split
    · exact ⟨a, rfl⟩
    · split
      · exact ⟨a, rfl⟩
      · next r hlive =>
        have hgive : a.pool.give r = .ok ⟨r :: a.pool.free⟩ := by
          simp [Pool.give, ha.allocatable hlive, ha.not_free hlive]
        rw [hgive]
        exact ⟨_, rfl⟩

theorem Balanced.step (ha : a.Balanced) (h : a.step n i rest = .ok (j, b, m)) : b.Balanced := by
  obtain ⟨op0, c, k, op1, d, h1, -, h3, h4, -, -⟩ := step_ok h
  exact ((ha.assignFirst h1).release h3).release h4

theorem Balanced.allocateFrom (ha : a.Balanced) (h : a.allocateFrom n code = .ok (code', b, m)) :
    b.Balanced := by
  induction code generalizing a n code' with
  | nil =>
    simp only [Allocator.allocateFrom, Except.ok.injEq, Prod.mk.injEq] at h
    exact h.2.1 ▸ ha
  | cons i rest ih =>
    obtain ⟨j, c, k, out, hstep, hrest, -⟩ := allocateFrom_cons_ok h
    exact ih (ha.step hstep) hrest

/-! ## How an allocation fails -/

theorem assignFirst_error {f : Fault} (ha : a.Balanced) (h : a.assignFirst n o = .error f) :
    ∃ t, o = .temp t ∧ f = .outOfRegisters t 6 := by
  unfold assignFirst at h
  split at h
  · next t =>
    rcases except_bind_eq_error.mp h with hd | ⟨x, -, h⟩
    · exact ⟨t, rfl, define_error ha hd⟩
    · cases h
  · cases h

theorem assignSecond_error {f : Fault} (h : a.assignSecond o = .error f) :
    ∃ t, o.temp? = some t ∧ find? t a.live = none ∧ f = .undefinedTemp t := by
  unfold assignSecond at h
  split at h
  · next t _ =>
    split at h
    · cases h
    · next hnone =>
      cases h
      exact ⟨t, rfl, hnone, rfl⟩
  · cases h

/-- A step fails because its first operand cannot be assigned, or because its second operand is not live. -/
theorem Balanced.step_error {f : Fault} (ha : a.Balanced) (h : a.step n i rest = .error f) :
    a.assignFirst n i.op0 = .error f ∨
    ∃ b m t p, a.assignFirst n i.op0 = .ok (p, b, m) ∧ i.op1.temp? = some t ∧
      find? t b.live = none ∧ f = .undefinedTemp t := by
  unfold Allocator.step at h
  rcases except_bind_eq_error.mp h with h | ⟨⟨op0, b, m⟩, h1, h⟩
  · exact Or.inl h
  · have hb := ha.assignFirst h1
    rcases except_bind_eq_error.mp h with h | ⟨op1, -, h⟩
    · obtain ⟨t, ht, hnone, hf⟩ := assignSecond_error h
      exact Or.inr ⟨b, m, t, op0, h1, ht, hnone, hf⟩
    · -- both operands are assigned, and what is left to do are two releases, which cannot fail
      obtain ⟨c, h3⟩ := hb.release_ok rest op0
      obtain ⟨d, h4⟩ := (hb.release h3).release_ok rest op1
      simp [h3, h4, bind, Except.bind, pure, Except.pure] at h

/-- An allocation fails only because a seventh register is needed, or because a temporary is read that
holds no register. -/
theorem Balanced.allocateFrom_error {f : Fault} (ha : a.Balanced)
    (h : a.allocateFrom n code = .error f) :
    (∃ t, f = .outOfRegisters t 6) ∨ ∃ t, f = .undefinedTemp t := by
  induction code generalizing a n with
  | nil => simp [Allocator.allocateFrom] at h
  | cons i rest ih =>
    rcases allocateFrom_cons_error h with h1 | ⟨j, c, k, h1, h2⟩
    · rcases ha.step_error h1 with hfirst | ⟨_, _, t, _, -, -, -, ht⟩
      · obtain ⟨t, -, ht⟩ := assignFirst_error ha hfirst
        exact Or.inl ⟨t, ht⟩
      · exact Or.inr ⟨t, ht⟩
    · exact ih (ha.step h1) h2

end ArithJit.Machine.Allocator
