import ArithJit.Proofs.LiveRanges

/-!
# Proofs: which registers an allocation uses

Registers come back to the pool in any order, so the pool is soon out of order. But it is a stack: the
registers that were never given out stay at its bottom, in their first order, and one of them is given out
only while all the others are held (`Used`). So code is given the first registers of that order, and as many
as it holds at once.
-/

namespace ArithJit.Machine.Allocator

open Assoc (find?)

variable {a b : Allocator} {n m : Allocation} {t : Temp} {r : Register} {o p : Operand}
  {i j : Instruction} {rest code out : List Instruction} {k : Nat}

/-! ## A temporary is recorded once -/

/-- A temporary that is recorded is live, or the code that is left does not mention it. -/
def Settled (a : Allocator) (n : Allocation) (code : List Instruction) : Prop :=
  ∀ t ∈ n.assignments.map Prod.fst, find? t a.live = none → code.any (·.mentions t) = false

theorem Settled.not_recorded (hs : a.Settled n (i :: rest)) (ht : find? t a.live = none)
    (hi : i.mentions t = true) : find? t n.assignments = none := by
  rw [Assoc.find?_eq_none]
  intro hmem
  have hnone := hs t hmem ht
  simp [hi] at hnone

theorem Settled.step (ha : a.Balanced) (hs : a.Settled n (i :: rest))
    (h : a.step n i rest = .ok (j, b, m)) : b.Settled m rest := by
  obtain ⟨p, c, k, h1, hm, hfind⟩ := find?_step ha h
  intro t ht hdead
  by_contra hrest
  rw [Bool.not_eq_false] at hrest
  -- had the temporary been live within the step, it would be live still
  have hwithin : find? t c.live = none := by
    cases hc : find? t c.live with
    | none => rfl
    | some r =>
      have hlive := (hfind t r).mpr ⟨hc, fun _ => hrest⟩
      rw [hdead] at hlive
      cases hlive
  have hbefore : find? t a.live = none := by
    cases ha' : find? t a.live with
    | none => rfl
    | some r =>
      have hlive := (find?_assignFirst h1).1 t r ha'
      rw [hwithin] at hlive
      cases hlive
  have hold : t ∈ n.assignments.map Prod.fst := by
    by_contra hnew
    rw [← Assoc.find?_eq_none] at hnew
    rw [hm] at ht
    rcases assignFirst_cases h1 with ⟨-, -, rfl, -⟩ | ⟨u, r, -, -, hd⟩
    · exact Assoc.find?_eq_none.mp hnew ht
    · rcases define_cases hd with ⟨-, -, rfl⟩ | ⟨hnone, free, -, rfl, rfl⟩
      · exact Assoc.find?_eq_none.mp hnew ht
      · by_cases hut : t = u
        · subst hut
          rw [← Assoc.insert_eq_append hnone, Assoc.find?_insert_self] at hwithin
          cases hwithin
        · refine Assoc.find?_eq_none.mp ?_ ht
          rw [Assoc.find?_insert_of_ne hut, hnew]
  have hnone := hs t hold hbefore
  simp [hrest] at hnone

/-! ## The bottom of the pool -/

/-- The first `k` registers were given out and recorded, and no others. Of these, some are free again; they lie
on top of those that were never given out. -/
structure Used (a : Allocator) (n : Allocation) (k : Nat) : Prop where
  balanced : a.Balanced
  le : k ≤ 6
  bottom : ∃ back, a.pool.free = back ++ allocatable.drop k
  recorded : ∀ r, r ∈ n.assignments.map Prod.snd ↔ r ∈ allocatable.take k

theorem used_fresh : fresh.Used {} 0 where
  balanced := balanced_fresh
  le := Nat.zero_le _
  bottom := ⟨[], rfl⟩
  recorded r := by simp

/-- The registers that are held and those that are free again are the first ones. -/
theorem Used.perm (h : a.Used n k) {back : List Register} (hfree : a.pool.free = back ++ allocatable.drop k) :
    (a.live.map Prod.snd ++ back).Perm (allocatable.take k) := by
  have hall : (a.live.map Prod.snd ++ back ++ allocatable.drop k).Perm
      (allocatable.take k ++ allocatable.drop k) := by
    rw [List.take_append_drop, List.append_assoc, ← hfree]
    exact h.balanced.registers
  exact (List.perm_append_right_iff _).mp hall

theorem Used.length (h : a.Used n k) {back : List Register} (hfree : a.pool.free = back ++ allocatable.drop k) :
    a.live.length + back.length = k := by
  have hlength := (h.perm hfree).length_eq
  have hsix : allocatable.length = 6 := rfl
  have hle := h.le
  rw [List.length_append, List.length_map, List.length_take] at hlength
  omega

/-- A register that comes back to the pool is given out again before a new one is. -/
theorem Used.retake {back : List Register} (h : a.Used n k)
    (hfree : a.pool.free = r :: back ++ allocatable.drop k) (hnone : find? t n.assignments = none)
    (hb : b.Balanced) (hpool : b.pool.free = back ++ allocatable.drop k) :
    b.Used { n with assignments := Assoc.insert t r n.assignments } k where
  balanced := hb
  le := h.le
  bottom := ⟨back, hpool⟩
  recorded q := by
    have hr : r ∈ allocatable.take k := (h.perm hfree).mem_iff.mp (by simp)
    show q ∈ (Assoc.insert t r n.assignments).map Prod.snd ↔ _
    rw [Assoc.insert_eq_append hnone, List.map_append, List.mem_append, h.recorded]
    constructor
    · rintro (hq | hq)
      · exact hq
      · rw [List.mem_singleton.mp hq]
        exact hr
    · exact Or.inl

/-- The next register is given out. -/
theorem Used.take {free : List Register} (h : a.Used n k) (hfree : allocatable.drop k = r :: free)
    (hnone : find? t n.assignments = none) (hb : b.Balanced) (hpool : b.pool.free = free) :
    b.Used { n with assignments := Assoc.insert t r n.assignments } (k + 1) where
  balanced := hb
  le := by
    have hlength := congrArg List.length hfree
    have hsix : allocatable.length = 6 := rfl
    rw [List.length_drop, List.length_cons] at hlength
    omega
  bottom := by
    refine ⟨[], ?_⟩
    rw [hpool, List.nil_append, ← List.tail_drop, hfree]
    rfl
  recorded q := by
    have hnext : allocatable[k]? = some r := by
      rw [← List.head?_drop, hfree]
      rfl
    show q ∈ (Assoc.insert t r n.assignments).map Prod.snd ↔ _
    rw [Assoc.insert_eq_append hnone, List.map_append, List.mem_append, h.recorded, List.take_add_one, hnext,
      List.mem_append]
    rfl

theorem Used.assignFirst (h : a.Used n k) (hs : a.Settled n (i :: rest))
    (h1 : a.assignFirst n i.op0 = .ok (p, b, m)) : b.Used m (max k b.live.length) := by
  obtain ⟨back, hfree⟩ := h.bottom
  have hlength := h.length hfree
  have hsame : max k a.live.length = k := by omega
  rcases assignFirst_cases h1 with ⟨-, rfl, rfl, -⟩ | ⟨t, r, ht, -, hd⟩
  · rw [hsame]
    exact h
  · have hb := h.balanced.define hd
    rcases define_cases hd with ⟨-, rfl, rfl⟩ | ⟨hdead, free, hpool, rfl, rfl⟩
    · rw [hsame]
      exact h
    · have hi : i.mentions t = true := Instruction.mentions_iff.mpr (Or.inl (by rw [ht]; rfl))
      have hnone := hs.not_recorded hdead hi
      rw [hpool] at hfree
      cases back with
      | nil =>
        -- all that was given out is held, so the pressure grows as well
        have hmax : max k (a.live ++ [(t, r)]).length = k + 1 := by
          rw [List.length_append, List.length_singleton]
          simp only [List.length_nil] at hlength
          omega
        rw [hmax]
        exact h.take hfree.symm hnone hb rfl
      | cons q back =>
        obtain ⟨rfl, rfl⟩ := List.cons.inj hfree
        have hmax : max k (a.live ++ [(t, r)]).length = k := by
          rw [List.length_append, List.length_singleton]
          rw [List.length_cons] at hlength
          omega
        rw [hmax]
        exact h.retake hpool hnone hb rfl

theorem Used.release (h : a.Used n k) (hr : a.release rest o = .ok b) : b.Used n k := by
  have hb := h.balanced.release hr
  rcases release_cases hr with ⟨rfl, -⟩ | ⟨t, r, -, -, -, rfl⟩
  · exact h
  · obtain ⟨back, hfree⟩ := h.bottom
    exact ⟨hb, h.le, ⟨r :: back, by rw [hfree]; rfl⟩, h.recorded⟩

/-- A step counts as many held registers as it needs new ones. -/
theorem Used.step (h : a.Used n n.maxPressure) (hs : a.Settled n (i :: rest))
    (hstep : a.step n i rest = .ok (j, b, m)) : b.Used m m.maxPressure := by
  obtain ⟨op0, c, m', op1, d, h1, -, h3, h4, -, rfl⟩ := step_ok hstep
  have hpressure := maxPressure_assignFirst h1
  have hc := h.assignFirst hs h1
  have hd := (hc.release h3).release h4
  rw [← hpressure] at hd
  exact ⟨hd.balanced, hd.le, hd.bottom, hd.recorded⟩

theorem Used.allocateFrom (h : a.Used n n.maxPressure) (hs : a.Settled n code)
    (hrun : a.allocateFrom n code = .ok (out, b, m)) : b.Used m m.maxPressure := by
  induction code generalizing a n out with
  | nil =>
    simp only [Allocator.allocateFrom, Except.ok.injEq, Prod.mk.injEq] at hrun
    obtain ⟨-, rfl, rfl⟩ := hrun
    exact h
  | cons i rest ih =>
    obtain ⟨j, c, k, out', hstep, hrest, -⟩ := allocateFrom_cons_ok hrun
    exact ih (h.step hs hstep) (hs.step h.balanced hstep) hrest

/-! ## The registers of an allocation -/

/-- Of the first registers, those that a function has to restore are the fourth one and those after it. -/
theorem filter_isCalleeSaved_take (hk : k ≤ 6) :
    (Register.all.filter fun r => r.isCalleeSaved && decide (r ∈ allocatable.take k)) =
      [.rbx, .rsi, .rdi].take (k - 3) := by
  revert hk
  revert k
  decide

/-- A full pool gives code the first registers of its order, and as many of them as are held at once. So the
function has to restore the registers from the fourth one on. -/
theorem assigned_registers_first {code out : List Instruction} {b : Allocator} {n : Allocation}
    (h : fresh.allocate code = .ok (out, b, n)) :
    n.maxPressure ≤ allocatable.length ∧
    (∀ r, r ∈ n.assignments.map Prod.snd ↔ r ∈ allocatable.take n.maxPressure) ∧
    n.calleeSaved = [.rbx, .rsi, .rdi].take (n.maxPressure - 3) := by
  have hsettled : fresh.Settled {} code := by
    intro t ht
    simp at ht
  have hused : b.Used n n.maxPressure := used_fresh.allocateFrom hsettled h
  refine ⟨hused.le, hused.recorded, ?_⟩
  rw [← filter_isCalleeSaved_take hused.le, Allocation.calleeSaved]
  refine List.filter_congr fun r _ => ?_
  have hany : n.assignments.any (·.2 = r) = decide (r ∈ allocatable.take n.maxPressure) := by
    rw [Bool.eq_iff_iff, decide_eq_true_iff, ← hused.recorded, List.any_eq_true, List.mem_map]
    simp only [decide_eq_true_iff]
  rw [hany]

/-- Code that holds four registers at once, in which the registers come back out of order. -/
def shuffledCode : List Instruction :=
  [⟨.mov, .temp ⟨0⟩, .imm 1, .ri⟩, ⟨.mov, .temp ⟨1⟩, .imm 2, .ri⟩,
   ⟨.mov, .temp ⟨2⟩, .imm 3, .ri⟩, ⟨.add, .temp ⟨0⟩, .temp ⟨1⟩, .rr⟩,
   ⟨.mov, .temp ⟨3⟩, .temp ⟨2⟩, .rr⟩, ⟨.mov, .temp ⟨4⟩, .imm 4, .ri⟩,
   ⟨.mov, .temp ⟨5⟩, .imm 5, .ri⟩, ⟨.mov, .temp ⟨6⟩, .temp ⟨4⟩, .rr⟩,
   ⟨.add, .temp ⟨6⟩, .temp ⟨3⟩, .rr⟩, ⟨.add, .temp ⟨6⟩, .temp ⟨5⟩, .rr⟩]

theorem assigned_registers_first_shuffled :
    ∃ out b n, fresh.allocate shuffledCode = .ok (out, b, n) ∧ n.maxPressure = 4 ∧
      (∀ r, r ∈ n.assignments.map Prod.snd ↔ r ∈ [.rax, .rcx, .rdx, .rbx]) ∧ n.calleeSaved = [.rbx] := by
  obtain ⟨out, b, n, h, hfour⟩ : ∃ out b n, fresh.allocate shuffledCode = .ok (out, b, n) ∧ n.maxPressure = 4 :=
    ⟨_, _, _, rfl, by decide⟩
  obtain ⟨-, hregisters, hsaved⟩ := assigned_registers_first h
  rw [hfour] at hregisters hsaved
  exact ⟨out, b, n, h, hfour, hregisters, hsaved⟩

end ArithJit.Machine.Allocator
