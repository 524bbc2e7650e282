import ArithJit.Proofs.LiveRanges
import Mathlib.Logic.Equiv.Basic

/-!
# Proofs: using an allocator again

An allocation leaves all registers free, but in an order of its own. Nothing in an allocation depends on what
the registers are: if the registers of an allocator are renamed, then the same happens under the new names
(`corresponds_allocateFrom`). The order that was left behind is a renaming of the first one, so an allocator
that was used before does what a fresh one does, up to this renaming.
-/

namespace ArithJit.Machine

open Assoc (find?)

/-! ## Renamed results -/

/-- What two allocations made of an operand: a temporary was given a register, which differs by a renaming, or
the operand was kept. A temporary that has no register is not kept. -/
inductive Operand.Renamed (p : Register → Register) : Operand → Operand → Operand → Prop where
  | given (t : Temp) (old : Option Register) (r : Register) :
      Renamed p (.reg ⟨some t, old⟩) (.reg ⟨some t, some r⟩) (.reg ⟨some t, some (p r)⟩)
  | kept {o : Operand} (settled : ∀ t, o ≠ .temp t) : Renamed p o o o

/-- What two allocations made of an instruction. -/
structure Instruction.Renamed (p : Register → Register) (i j j' : Instruction) : Prop where
  opcode : j.opcode = i.opcode ∧ j'.opcode = i.opcode
  form : j.form = i.form ∧ j'.form = i.form
  first : i.op0.Renamed p j.op0 j'.op0
  second : i.op1.Renamed p j.op1 j'.op1

/-- What two allocations made of some code. -/
inductive CodeRenamed (p : Register → Register) :
    List Instruction → List Instruction → List Instruction → Prop where
  | nil : CodeRenamed p [] [] []
  | cons {i j j' : Instruction} {code out out' : List Instruction} (head : i.Renamed p j j')
      (tail : CodeRenamed p code out out') : CodeRenamed p (i :: code) (j :: out) (j' :: out')

/-- The allocation with other registers. -/
def Allocation.rename (p : Register → Register) (n : Allocation) : Allocation :=
  { n with assignments := n.assignments.map (Prod.map id p) }

/-- The allocator with other registers. -/
def Allocator.rename (p : Register → Register) (a : Allocator) : Allocator :=
  ⟨⟨a.pool.free.map p⟩, a.live.map (Prod.map id p)⟩

theorem Operand.Renamed.temp?_eq {p : Register → Register} {o q q' : Operand} (h : o.Renamed p q q') :
    q'.temp? = q.temp? := by
  cases h with
  | given t old r => rfl
  | kept settled => rfl

namespace Allocator

variable {a b : Allocator} {n m : Allocation} {t : Temp} {o q q' : Operand} {i : Instruction}
  {rest code : List Instruction} {p : Register → Register}

theorem Balanced.rename (ha : a.Balanced) (hp : (Machine.allocatable.map p).Perm Machine.allocatable) :
    (a.rename p).Balanced where
  keys := by
    have hkeys : (a.rename p).live.map Prod.fst = a.live.map Prod.fst := by
      simp [Allocator.rename]
    rw [hkeys]
    exact ha.keys
  registers := by
    have hall : (a.rename p).live.map Prod.snd ++ (a.rename p).pool.free =
        (a.live.map Prod.snd ++ a.pool.free).map p := by
      simp [Allocator.rename]
    rw [hall]
    exact (ha.registers.map p).trans hp

/-! ## What the parts of a step do under other names -/

theorem corresponds_define (p : Register → Register) (a : Allocator) (n : Allocation) (t : Temp) :
    Corresponds (fun x y => y = (p x.1, x.2.1.rename p, x.2.2.rename p)) (a.define n t)
      ((a.rename p).define (n.rename p) t) := by
  have hfind : find? t (a.rename p).live = (find? t a.live).map p := Assoc.find?_map p t a.live
  unfold define
  rw [hfind]
  cases find? t a.live with
  | some r => exact .ok rfl
  | none =>
    obtain ⟨⟨free⟩, live⟩ := a
    cases free with
    | nil =>
      simp only [Option.map_none, Pool.take?, rename, List.map_nil, List.length_map]
      exact .error _
    | cons r free =>
      simp only [Option.map_none, Pool.take?, rename, Allocation.rename, List.map_cons, Assoc.insert_map]
      exact .ok rfl

theorem corresponds_assignFirst (p : Register → Register) (a : Allocator) (n : Allocation) (o : Operand) :
    Corresponds (fun x y => o.Renamed p x.1 y.1 ∧ y.2 = (x.2.1.rename p, x.2.2.rename p)) (a.assignFirst n o)
      ((a.rename p).assignFirst (n.rename p) o) := by
  unfold assignFirst
  split
  · next t =>
    refine (corresponds_define p a n t).bind fun x y _ hxy => ?_
    rw [hxy]
    exact .ok ⟨.given t none x.1, rfl⟩
  · next hne => exact .ok ⟨.kept fun t ht => hne t ht, rfl⟩

theorem corresponds_assignSecond (p : Register → Register) (a : Allocator) (o : Operand) :
    Corresponds (o.Renamed p) (a.assignSecond o) ((a.rename p).assignSecond o) := by
  unfold assignSecond
  split
  · next t old =>
    have hfind : find? t (a.rename p).live = (find? t a.live).map p := Assoc.find?_map p t a.live
    rw [hfind]
    cases find? t a.live with
    | some r => exact .ok (.given t old r)
    | none => exact .error _
  · next hne => exact .ok (.kept fun t ht => hne t none ht)

/-- A release depends on the temporary of the operand only. -/
theorem corresponds_release (ha : a.Balanced) (hp : (allocatable.map p).Perm allocatable)
    (hq : q'.temp? = q.temp?) (rest : List Instruction) :
    Corresponds (fun b b' => b' = b.rename p) (a.release rest q) ((a.rename p).release rest q') := by
  have hfind : ∀ t, find? t (a.rename p).live = (find? t a.live).map p := fun t => Assoc.find?_map p t a.live
  obtain ⟨b, hb⟩ := ha.release_ok rest q
  obtain ⟨b', hb'⟩ := (ha.rename hp).release_ok rest q'
  rw [hb, hb']
  refine .ok ?_
  rcases release_cases hb with ⟨rfl, hdead⟩ | ⟨t, r, ht, hany, hlive, rfl⟩
  · rcases release_cases hb' with ⟨rfl, -⟩ | ⟨t, r, ht, hany, hlive, -⟩
    · rfl
    · rw [hfind, hdead t (hq ▸ ht) hany] at hlive
      cases hlive
  · have hlive' : find? t (a.rename p).live = some (p r) := by
      rw [hfind, hlive]
      rfl
    rcases release_cases hb' with ⟨-, hdead⟩ | ⟨t', r', ht', -, hlive'', rfl⟩
    · rw [hdead t (hq.trans ht) hany] at hlive'
      cases hlive'
    · obtain rfl : t = t' := Option.some.inj (ht.symm.trans (hq ▸ ht'))
      obtain rfl : p r = r' := Option.some.inj (hlive'.symm.trans hlive'')
      rw [rename, rename, Assoc.erase_map]
      rfl

theorem corresponds_step (ha : a.Balanced) (hp : (allocatable.map p).Perm allocatable) (n : Allocation)
    (i : Instruction) (rest : List Instruction) :
    Corresponds (fun x y => i.Renamed p x.1 y.1 ∧ y.2 = (x.2.1.rename p, x.2.2.rename p)) (a.step n i rest)
      ((a.rename p).step (n.rename p) i rest) := by
  unfold step
  refine (corresponds_assignFirst p a n i.op0).bind fun x y hx hxy => ?_
  obtain ⟨op0, b, m⟩ := x
  obtain ⟨op0', b', m'⟩ := y
  obtain ⟨hfirst, hstate⟩ := hxy
  obtain ⟨rfl, rfl⟩ := Prod.mk.inj hstate
  have hb := ha.assignFirst hx
  refine (corresponds_assignSecond p b i.op1).bind fun op1 op1' _ hsecond => ?_
  refine (corresponds_release hb hp hfirst.temp?_eq rest).bind fun c c' hc hcc => ?_
  subst hcc
  refine (corresponds_release (hb.release hc) hp hsecond.temp?_eq rest).bind fun d d' _ hdd => ?_
  subst hdd
  have hlength : (b.rename p).live.length = b.live.length := List.length_map _
  rw [hlength]
  exact .ok ⟨⟨⟨rfl, rfl⟩, ⟨rfl, rfl⟩, hfirst, hsecond⟩, rfl⟩

theorem corresponds_allocateFrom (ha : a.Balanced) (hp : (allocatable.map p).Perm allocatable) (n : Allocation)
    (code : List Instruction) :
    Corresponds (fun x y => CodeRenamed p code x.1 y.1 ∧ y.2 = (x.2.1.rename p, x.2.2.rename p))
      (a.allocateFrom n code) ((a.rename p).allocateFrom (n.rename p) code) := by
  induction code generalizing a n with
  | nil => exact .ok ⟨.nil, rfl⟩
  | cons i rest ih =>
    rw [allocateFrom, allocateFrom]
    refine (corresponds_step ha hp n i rest).bind fun x y hx hxy => ?_
    obtain ⟨j, b, m⟩ := x
    obtain ⟨j', b', m'⟩ := y
    obtain ⟨hhead, hstate⟩ := hxy
    obtain ⟨rfl, rfl⟩ := Prod.mk.inj hstate
    refine (ih (ha.step hx) m).bind fun z w _ hzw => ?_
    exact .ok ⟨.cons hhead hzw.1, hzw.2⟩

/-! ## Allocators that were used before -/

/-- A list in another order is the list with its elements renamed. -/
theorem exists_renaming {α : Type} [DecidableEq α] {l l' : List α} (h : l.Perm l') (hn : l.Nodup) :
    ∃ p : Equiv.Perm α, l.map p = l' ∧ ∀ x, x ∉ l → p x = x := by
  induction h with
  | nil => exact ⟨Equiv.refl α, rfl, fun _ _ => rfl⟩
  | cons x h ih =>
    obtain ⟨hx, hl⟩ := List.nodup_cons.mp hn
    obtain ⟨p, hp, hfix⟩ := ih hl
    refine ⟨p, by rw [List.map_cons, hfix x hx, hp], fun y hy => hfix y ?_⟩
    exact fun hmem => hy (List.mem_cons_of_mem x hmem)
  | swap x y l =>
    simp only [List.nodup_cons, List.mem_cons, not_or] at hn
    obtain ⟨⟨-, hy⟩, hx, -⟩ := hn
    refine ⟨Equiv.swap x y, ?_, fun z hz => ?_⟩
    · have hrest : l.map (Equiv.swap x y) = l := by
        conv_rhs => rw [← List.map_id l]
        refine List.map_congr_left fun z hz => ?_
        exact Equiv.swap_apply_of_ne_of_ne (fun h => hx (h ▸ hz)) fun h => hy (h ▸ hz)
      rw [List.map_cons, List.map_cons, Equiv.swap_apply_left, Equiv.swap_apply_right, hrest]
    · simp only [List.mem_cons, not_or] at hz
      exact Equiv.swap_apply_of_ne_of_ne hz.2.1 hz.1
  | trans h h' ih ih' =>
    obtain ⟨p, hp, hfix⟩ := ih hn
    obtain ⟨p', hp', hfix'⟩ := ih' (h.nodup_iff.mp hn)
    refine ⟨p.trans p', ?_, fun x hx => ?_⟩
    · rw [Equiv.coe_trans, ← List.map_map, hp, hp']
    · rw [Equiv.trans_apply, hfix x hx, hfix' x fun hmem => hx (h.mem_iff.mpr hmem)]

/-- An allocator that was used before is a fresh one with its registers renamed. -/
theorem exists_eq_rename (ha : Reached a) : ∃ p : Equiv.Perm Register,
    (∀ r, r ∉ allocatable → p r = r) ∧ (allocatable.map p).Perm allocatable ∧ a = fresh.rename p := by
  obtain ⟨hbal, hlive⟩ := ha.balanced
  have hfree : a.pool.free.Perm allocatable := by
    have h := hbal.registers
    rw [hlive] at h
    exact h
  obtain ⟨p, hp, hfix⟩ := exists_renaming hfree.symm (by decide)
  refine ⟨p, hfix, hp ▸ hfree, ?_⟩
  obtain ⟨⟨free⟩, live⟩ := a
  obtain rfl : live = [] := hlive
  obtain rfl : allocatable.map p = free := hp
  rfl

/-- An allocator that gave registers to any code before does with the next code what a fresh one does, with the
same result, but for a renaming of the six registers. -/
theorem reuse_renames_registers {a : Allocator} (ha : Reached a) :
    ∃ p : Equiv.Perm Register, (∀ r, r ∉ allocatable → p r = r) ∧ ∀ code,
      ((∃ out b n, a.allocate code = .ok (out, b, n)) ↔ ∃ out b n, fresh.allocate code = .ok (out, b, n)) ∧
      (∀ f, a.allocate code = .error f ↔ fresh.allocate code = .error f) ∧
      ∀ out b n out' b' n', fresh.allocate code = .ok (out, b, n) → a.allocate code = .ok (out', b', n') →
        n'.maxPressure = n.maxPressure ∧
        n'.assignments = n.assignments.map (fun entry => (entry.1, p entry.2)) ∧
        CodeRenamed p code out out' := by
  obtain ⟨p, hfix, hp, rfl⟩ := exists_eq_rename ha
  refine ⟨p, hfix, fun code => ?_⟩
  have hrun := corresponds_allocateFrom balanced_fresh hp {} code
  have hempty : ({} : Allocation).rename p = {} := rfl
  rw [hempty] at hrun
  unfold allocate
  generalize fresh.allocateFrom {} code = x at hrun ⊢
  generalize (fresh.rename p).allocateFrom {} code = y at hrun ⊢
  cases hrun with
  | error f => simp
  | @ok x y h =>
    obtain ⟨out, b, n⟩ := x
    obtain ⟨out', b', n'⟩ := y
    obtain ⟨hcode, hstate⟩ := h
    obtain ⟨rfl, rfl⟩ := Prod.mk.inj hstate
    refine ⟨⟨fun _ => ⟨_, _, _, rfl⟩, fun _ => ⟨_, _, _, rfl⟩⟩, by simp, ?_⟩
    intro out₁ b₁ n₁ out₂ b₂ n₂ h₁ h₂
    cases h₁
    cases h₂
    exact ⟨rfl, rfl, hcode⟩

/-- Two registers have changed their places when the same code is given registers again. -/
theorem reuse_renames_registers_pair :
    Reached ⟨⟨[.rcx, .rax, .rdx, .rbx, .rsi, .rdi]⟩, []⟩ ∧
    ∃ p : Equiv.Perm Register, p .rax = .rcx ∧ p .rcx = .rax ∧ ∃ out b n out' b' n',
      fresh.allocate pairCode = .ok (out, b, n) ∧
      allocate ⟨⟨[.rcx, .rax, .rdx, .rbx, .rsi, .rdi]⟩, []⟩ pairCode = .ok (out', b', n') ∧
      n'.maxPressure = n.maxPressure ∧ CodeRenamed p pairCode out out' := by
  have hreached : Reached ⟨⟨[.rcx, .rax, .rdx, .rbx, .rsi, .rdi]⟩, []⟩ :=
    .allocate .fresh (show fresh.allocate pairCode = .ok (_, _, _) from rfl)
  obtain ⟨p, -, hp⟩ := reuse_renames_registers hreached
  obtain ⟨hmax, hassigned, hcode⟩ := (hp pairCode).2.2 _ _ _ _ _ _ rfl rfl
  obtain ⟨hrcx, hrax⟩ : Register.rcx = p .rax ∧ Register.rax = p .rcx := by
    simpa [Assoc.insert] using hassigned
  exact ⟨hreached, p, hrcx.symm, hrax.symm, _, _, _, _, _, _, rfl, rfl, hmax, hcode⟩

end Allocator

end ArithJit.Machine
