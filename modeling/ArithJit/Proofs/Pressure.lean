import ArithJit.Proofs.LiveRanges
import Mathlib.Data.Finset.Card
import Mathlib.Data.Finset.Option

/-!
# Proofs: the pressure on the registers

Which temporaries hold a register at an instruction depends on nothing but the temporaries that the
instructions mention. A `Touch` is what is left of an instruction when all else is forgotten, and `peak`
is the largest number of temporaries that are live at once. An allocation without a read of an undefined
temporary runs out of registers if the peak is above six, and else records the peak.

The peak of code that is put together from pieces is the largest one of the pieces, where what is live
around a piece adds to its own need (`Segment`).
-/

namespace ArithJit.Machine

open Assoc (find?)

/-- The temporaries of an instruction. -/
structure Touch where
  /-- The one that the instruction may define. -/
  first : Option Temp := none
  /-- The one that it reads. -/
  second : Option Temp := none
deriving DecidableEq, Repr

def Touch.mentions (x : Touch) (t : Temp) : Bool :=
  x.first = some t || x.second = some t

def Instruction.touch (i : Instruction) : Touch :=
  ⟨i.op0.temp?, i.op1.temp?⟩

/-- The temporaries that are live within an instruction: those before it, and the one it may define. -/
def liveWithin (live : Finset Temp) (x : Touch) : Finset Temp :=
  live ∪ x.first.toFinset

/-- The temporaries that are live after an instruction: those within it that it does not mention for the
last time. -/
def liveAfter (live : Finset Temp) (x : Touch) (rest : List Touch) : Finset Temp :=
  (liveWithin live x).filter fun t => x.mentions t → rest.any (·.mentions t)

/-- The largest number of temporaries that are live within one instruction. -/
def peak (live : Finset Temp) : List Touch → Nat
  | [] => 0
  | x :: rest => max (liveWithin live x).card (peak (liveAfter live x rest) rest)

theorem Touch.mentions_iff {x : Touch} {t : Temp} :
    x.mentions t = true ↔ x.first = some t ∨ x.second = some t := by
  simp [Touch.mentions]

theorem Instruction.mentions_touch (i : Instruction) (t : Temp) : i.touch.mentions t = i.mentions t := by
  rw [Bool.eq_iff_iff, Touch.mentions_iff, Instruction.mentions_iff]
  rfl

theorem any_mentions_touch (code : List Instruction) (t : Temp) :
    (code.map Instruction.touch).any (·.mentions t) = code.any (·.mentions t) := by
  simp only [List.any_map, Function.comp_def, Instruction.mentions_touch]

theorem mem_liveWithin {live : Finset Temp} {x : Touch} {t : Temp} :
    t ∈ liveWithin live x ↔ t ∈ live ∨ x.first = some t := by
  simp [liveWithin]

theorem mem_liveAfter {live : Finset Temp} {x : Touch} {rest : List Touch} {t : Temp} :
    t ∈ liveAfter live x rest ↔ (t ∈ live ∨ x.first = some t) ∧
      (x.mentions t = true → rest.any (·.mentions t) = true) := by
  rw [liveAfter, Finset.mem_filter, mem_liveWithin]

namespace Allocator

variable {a b : Allocator} {n m : Allocation} {t : Temp} {o p : Operand} {i j : Instruction}
  {rest code out : List Instruction}

/-- The temporaries that hold a register. -/
def held (a : Allocator) : Finset Temp :=
  (a.live.map Prod.fst).toFinset

theorem mem_held : t ∈ a.held ↔ ∃ r, find? t a.live = some r := by
  rw [held, List.mem_toFinset, ← Option.ne_none_iff_exists', ne_eq, Assoc.find?_eq_none, not_not]

theorem Balanced.card_held (ha : a.Balanced) : a.held.card = a.live.length := by
  rw [held, List.toFinset_card_of_nodup ha.keys, List.length_map]

theorem Balanced.live_length_le (ha : a.Balanced) : a.live.length ≤ 6 := by
  have h := ha.registers.length_eq
  rw [List.length_append, List.length_map] at h
  have hsix : Machine.allocatable.length = 6 := rfl
  omega

/-- The operand has no register if it is a temporary. -/
def Free (o : Operand) : Prop :=
  ∀ t, o.temp? = some t → o = .temp t

theorem held_assignFirst (ho : Free i.op0) (h : a.assignFirst n i.op0 = .ok (p, b, m)) :
    b.held = liveWithin a.held i.touch := by
  obtain ⟨hkept, hnew, hdefined⟩ := find?_assignFirst h
  ext t
  rw [mem_liveWithin, mem_held, mem_held]
  constructor
  · rintro ⟨r, hr⟩
    rcases hnew t r hr with hold | hop
    · exact Or.inl ⟨r, hold⟩
    · exact Or.inr (by rw [Instruction.touch, hop]; rfl)
  · rintro (⟨r, hr⟩ | ht)
    · exact ⟨r, hkept t r hr⟩
    · obtain ⟨r, hr, -⟩ := hdefined t (ho t ht)
      exact ⟨r, hr⟩

/-- A step makes live what its instruction may define, counts, and lets go of what is not mentioned again. -/
theorem Balanced.held_step (ha : a.Balanced) (ho : Free i.op0) (h : a.step n i rest = .ok (j, b, m)) :
    b.held = liveAfter a.held i.touch (rest.map Instruction.touch) ∧
    (liveWithin a.held i.touch).card ≤ 6 ∧
    m.maxPressure = max n.maxPressure (liveWithin a.held i.touch).card := by
  obtain ⟨op0, c, k, op1, d, hfirst, -, -, -, -, hm⟩ := step_ok h
  obtain ⟨op0', c', k', hfirst', -, hfind⟩ := find?_step ha h
  rw [hfirst, Except.ok.injEq, Prod.mk.injEq, Prod.mk.injEq] at hfirst'
  obtain ⟨rfl, rfl, rfl⟩ := hfirst'
  have hheld := held_assignFirst ho hfirst
  have hcard := (ha.assignFirst hfirst).card_held
  have hpressure := maxPressure_assignFirst hfirst
  refine ⟨?_, ?_, ?_⟩
  · ext t
    rw [mem_liveAfter, mem_held, Instruction.mentions_touch, any_mentions_touch, ← mem_liveWithin, ← hheld,
      mem_held]
    constructor
    · rintro ⟨r, hr⟩
      exact ⟨⟨r, ((hfind t r).mp hr).1⟩, ((hfind t r).mp hr).2⟩
    · rintro ⟨⟨r, hr⟩, hmention⟩
      exact ⟨r, (hfind t r).mpr ⟨hr, hmention⟩⟩
  · rw [← hheld, hcard]
    exact (ha.assignFirst hfirst).live_length_le
  · rw [hm, ← hheld, hcard, hpressure]

/-- If a definition finds no free register, then six other temporaries are live. -/
theorem Balanced.card_of_define_error {f : Fault} (ha : a.Balanced) (h : a.define n t = .error f) :
    t ∉ a.held ∧ a.held.card = 6 := by
  rw [mem_held, ha.card_held]
  unfold Allocator.define at h
  split at h
  · cases h
  · next hnone =>
    split at h
    · next htake =>
      have hfree : a.pool.free = [] := by
        unfold Pool.take? at htake
        split at htake
        · assumption
        · cases htake
      refine ⟨?_, ha.live_length hfree⟩
      rintro ⟨r, hr⟩
      rw [hnone] at hr
      cases hr
    · cases h

theorem Balanced.seven_of_step_error {u : Temp} {l : Nat} (ha : a.Balanced)
    (h : a.step n i rest = .error (.outOfRegisters u l)) : 6 < (liveWithin a.held i.touch).card := by
  rcases ha.step_error h with hfirst | ⟨c, k, t, p, -, -, -, hf⟩
  · obtain ⟨t, ht, -⟩ := assignFirst_error ha hfirst
    have hdefine : a.define n t = .error (.outOfRegisters u l) := by
      rw [ht] at hfirst
      rcases except_bind_eq_error.mp hfirst with hd | ⟨x, -, hx⟩
      · exact hd
      · cases hx
    obtain ⟨hnot, hcard⟩ := ha.card_of_define_error hdefine
    have htouch : liveWithin a.held i.touch = insert t a.held := by
      ext v
      rw [mem_liveWithin, Finset.mem_insert, Instruction.touch, ht, Operand.temp?_temp, Option.some.injEq,
        or_comm, eq_comm]
    rw [htouch, Finset.card_insert_of_notMem hnot]
    omega
  · cases hf

/-- A successful allocation records the peak, which is at most six. -/
theorem Balanced.peak_of_allocateFrom (ha : a.Balanced) (ho : ∀ i ∈ code, Free i.op0)
    (h : a.allocateFrom n code = .ok (out, b, m)) :
    peak a.held (code.map Instruction.touch) ≤ 6 ∧
    m.maxPressure = max n.maxPressure (peak a.held (code.map Instruction.touch)) := by
  induction code generalizing a n out with
  | nil =>
    simp only [Allocator.allocateFrom, Except.ok.injEq, Prod.mk.injEq] at h
    obtain ⟨-, -, rfl⟩ := h
    simp [peak]
  | cons i rest ih =>
    obtain ⟨j, c, k, out', hstep, hrest, -⟩ := allocateFrom_cons_ok h
    obtain ⟨hheld, hsix, hmax⟩ := ha.held_step (ho i (by simp)) hstep
    obtain ⟨hsix', hmax'⟩ := ih (ha.step hstep) (fun l hl => ho l (by simp [hl])) hrest
    rw [hheld] at hsix' hmax'
    rw [List.map_cons, peak, hmax', hmax]
    omega

/-- If an allocation runs out of registers, then the peak is above six. -/
theorem Balanced.peak_of_outOfRegisters {l : Nat} (ha : a.Balanced) (ho : ∀ i ∈ code, Free i.op0)
    (h : a.allocateFrom n code = .error (.outOfRegisters t l)) :
    6 < peak a.held (code.map Instruction.touch) := by
  induction code generalizing a n with
  | nil => simp [Allocator.allocateFrom] at h
  | cons i rest ih =>
    rw [List.map_cons, peak]
    rcases allocateFrom_cons_error h with hstep | ⟨j, c, k, hstep, hrest⟩
    · have hseven := ha.seven_of_step_error hstep
      omega
    · obtain ⟨hheld, -, -⟩ := ha.held_step (ho i (by simp)) hstep
      have hseven := ih (ha.step hstep) (fun l hl => ho l (by simp [hl])) hrest
      rw [hheld] at hseven
      omega

end Allocator

/-! ## Segments of code -/

/-- Some code mentions a temporary. -/
def Touched (code : List Touch) (t : Temp) : Prop :=
  code.any (·.mentions t) = true

instance (code : List Touch) (t : Temp) : Decidable (Touched code t) :=
  inferInstanceAs (Decidable (_ = _))

theorem touched_append {code code' : List Touch} {t : Temp} :
    Touched (code ++ code') t ↔ Touched code t ∨ Touched code' t := by
  simp [Touched]

theorem touched_cons {x : Touch} {code : List Touch} {t : Temp} :
    Touched (x :: code) t ↔ (x.first = some t ∨ x.second = some t) ∨ Touched code t := by
  simp only [Touched, List.any_cons, Bool.or_eq_true, Touch.mentions_iff]

theorem not_touched_nil {t : Temp} : ¬ Touched [] t := by
  simp [Touched]

/-- A piece of code that mentions no temporaries but its own, which are numbered from `low` to `high`. Of
these, the code around it mentions the results only. The code needs `need` registers above those that are
held around it. -/
structure Segment (low high : Nat) (results : Finset Temp) (need : Nat) (code : List Touch) : Prop where
  le : low ≤ high
  own : ∀ t, Touched code t → low ≤ t.index ∧ t.index < high
  within : ∀ t ∈ results, low ≤ t.index ∧ t.index < high
  counted : results.card ≤ need
  peak_append : ∀ live rest, rest ≠ [] → (∀ t ∈ live, t.index < low) →
    (∀ t, Touched rest t → low ≤ t.index → t.index < high → t ∈ results) →
    peak live (code ++ rest) = max (live.card + need) (peak (live ∪ results.filter (Touched rest)) rest)

variable {low mid high n n' : Nat} {r r' live : Finset Temp} {code code' rest : List Touch}
  {o p : Option Temp}

/-- A result that the code behind reads stays live. -/
theorem filter_touched (h : ∀ t, o = some t → Touched code t) :
    o.toFinset.filter (Touched code) = o.toFinset := by
  rw [Finset.filter_eq_self]
  intro t ht
  exact h t (by simpa using ht)

theorem Segment.disjoint (h : Segment low high r n code) (hlive : ∀ t ∈ live, t.index < low) :
    Disjoint live r := by
  rw [Finset.disjoint_left]
  intro t ht hr
  have hlow := (h.within t hr).1
  have hlt := hlive t ht
  omega

/-- One piece of code after the other, where the results of the first one are not read. -/
theorem Segment.append (h : Segment low mid r n code) (h' : Segment mid high r' n' code') :
    Segment low high r' (max n n') (code ++ code') where
  le := Nat.le_trans h.le h'.le
  own t ht := by
    have hle := h.le
    have hle' := h'.le
    rcases touched_append.mp ht with ht | ht
    · have := h.own t ht
      omega
    · have := h'.own t ht
      omega
  within t ht := by
    have hle := h.le
    have := h'.within t ht
    omega
  counted := Nat.le_trans h'.counted (Nat.le_max_right _ _)
  peak_append live rest hne hlive hrest := by
    have hle := h.le
    have hle' := h'.le
    have hnone : ∀ t, Touched (code' ++ rest) t → low ≤ t.index → ¬ t.index < mid := by
      intro t ht hl hm
      rcases touched_append.mp ht with ht | ht
      · have := h'.own t ht
        omega
      · have := h'.within t (hrest t ht hl (by omega))
        omega
    have hdead : r.filter (Touched (code' ++ rest)) = ∅ := by
      rw [Finset.filter_eq_empty_iff]
      intro t ht htouched
      exact hnone t htouched (h.within t ht).1 (h.within t ht).2
    rw [List.append_assoc, h.peak_append live (code' ++ rest) (by simp [hne]) hlive
      fun t ht hl hm => absurd hm (hnone t ht hl), hdead, Finset.union_empty,
      h'.peak_append live rest hne (fun t ht => Nat.lt_of_lt_of_le (hlive t ht) hle)
      fun t ht hl hh => hrest t ht (by omega) hh]
    omega

/-- A cell is read into the next temporary. -/
theorem Segment.load (h : Segment low high ∅ n code) :
    Segment low (high + 1) {⟨high⟩} (max n 1) (code ++ [⟨some ⟨high⟩, none⟩]) where
  le := Nat.le_succ_of_le h.le
  own t ht := by
    have hle := h.le
    rw [touched_append, touched_cons] at ht
    rcases ht with ht | (ht | ht) | ht
    · have := h.own t ht
      omega
    · obtain rfl := Option.some.inj ht
      exact ⟨hle, Nat.lt_succ_self _⟩
    · cases ht
    · exact absurd ht not_touched_nil
  within t ht := by
    obtain rfl := Finset.mem_singleton.mp ht
    exact ⟨h.le, Nat.lt_succ_self _⟩
  counted := by
    rw [Finset.card_singleton]
    omega
  peak_append live rest hne hlive hrest := by
    have hle := h.le
    have hnew : (⟨high⟩ : Temp) ∉ live := by
      intro ht
      have : high < low := hlive _ ht
      omega
    have hbefore := h.peak_append live (⟨some ⟨high⟩, none⟩ :: rest) (by simp) hlive fun t ht hl hh => by
      rcases touched_cons.mp ht with (ht | ht) | ht
      · obtain rfl := Option.some.inj ht
        exact absurd hh (Nat.lt_irrefl _)
      · cases ht
      · obtain rfl := Finset.mem_singleton.mp (hrest t ht hl (by omega))
        exact absurd hh (Nat.lt_irrefl _)
    have hwithin : liveWithin live ⟨some ⟨high⟩, none⟩ = insert ⟨high⟩ live := by
      ext t
      simp [mem_liveWithin, or_comm, eq_comm]
    have hafter : liveAfter live ⟨some ⟨high⟩, none⟩ rest =
        live ∪ Finset.filter (Touched rest) {⟨high⟩} := by
      ext t
      rw [mem_liveAfter, Touch.mentions_iff, Finset.mem_union, Finset.mem_filter, Finset.mem_singleton, Touched]
      by_cases ht : t = ⟨high⟩
      · subst ht
        simp [hnew]
      · simp [ht, Ne.symm ht]
    rw [List.append_assoc, List.singleton_append, hbefore, Finset.filter_empty, Finset.union_empty, peak,
      hwithin, hafter, Finset.card_insert_of_notMem hnew]
    omega

/-- A result is written to a cell. -/
theorem Segment.store (h : Segment low high o.toFinset n code) :
    Segment low high ∅ n (code ++ [⟨none, o⟩]) where
  le := h.le
  own t ht := by
    rw [touched_append, touched_cons] at ht
    rcases ht with ht | (ht | ht) | ht
    · exact h.own t ht
    · cases ht
    · exact h.within t (by simpa using ht)
    · exact absurd ht not_touched_nil
  within t ht := absurd ht (Finset.notMem_empty t)
  counted := Nat.zero_le _
  peak_append live rest hne hlive hrest := by
    have hcounted := h.counted
    have hbefore := h.peak_append live (⟨none, o⟩ :: rest) (by simp) hlive fun t ht hl hh => by
      rcases touched_cons.mp ht with (ht | ht) | ht
      · cases ht
      · simpa using ht
      · exact absurd (hrest t ht hl hh) (Finset.notMem_empty t)
    have hkept : o.toFinset.filter (Touched (⟨none, o⟩ :: rest)) = o.toFinset :=
      filter_touched fun t ht => touched_cons.mpr (Or.inl (Or.inr ht))
    have hwithin : liveWithin (live ∪ o.toFinset) ⟨none, o⟩ = live ∪ o.toFinset := by
      ext t
      simp [mem_liveWithin]
    have hafter : liveAfter (live ∪ o.toFinset) ⟨none, o⟩ rest = live := by
      ext t
      rw [mem_liveAfter, Touch.mentions_iff, Finset.mem_union, Option.mem_toFinset, Option.mem_def]
      constructor
      · rintro ⟨(ht | ht) | ht, hmention⟩
        · exact ht
        · -- the result is mentioned here for the last time
          have hin := h.within t (by simpa using ht)
          have htouched : Touched rest t := hmention (Or.inr ht)
          exact absurd (hrest t htouched hin.1 hin.2) (Finset.notMem_empty t)
        · cases ht
      · intro ht
        refine ⟨Or.inl (Or.inl ht), fun hm => ?_⟩
        rcases hm with hm | hm
        · cases hm
        · exact absurd (by simpa using hm) (Finset.disjoint_left.mp (h.disjoint hlive) ht)
    have hcard : (live ∪ o.toFinset).card = live.card + o.toFinset.card :=
      Finset.card_union_of_disjoint (h.disjoint hlive)
    rw [List.append_assoc, List.singleton_append, hbefore, hkept, peak, hwithin, hafter, hcard,
      Finset.filter_empty, Finset.union_empty]
    omega

/-- Two pieces of code, where the result of the first one is held while the second one runs, and both
results are read afterwards. -/
theorem Segment.peak_both (h : Segment low mid o.toFinset n code) (h' : Segment mid high p.toFinset n' code')
    (hlive : ∀ t ∈ live, t.index < low) (ho : ∀ t, o = some t → Touched rest t)
    (hp : ∀ t, p = some t → Touched rest t) (hne : rest ≠ [])
    (hrest : ∀ t, Touched rest t → low ≤ t.index → t.index < high → o = some t ∨ p = some t) :
    peak live (code ++ (code' ++ rest)) = max (live.card + max n (o.toFinset.card + n'))
      (peak (live ∪ o.toFinset ∪ p.toFinset) rest) := by
  have hle := h.le
  have hle' := h'.le
  have hlive' : ∀ t ∈ live ∪ o.toFinset, t.index < mid := by
    intro t ht
    rcases Finset.mem_union.mp ht with ht | ht
    · exact Nat.lt_of_lt_of_le (hlive t ht) hle
    · exact (h.within t ht).2
  have hfirst := h.peak_append live (code' ++ rest) (by simp [hne]) hlive fun t ht hl hm => by
    rcases touched_append.mp ht with ht | ht
    · have := h'.own t ht
      omega
    · rcases hrest t ht hl (by omega) with ht | ht
      · simpa using ht
      · have := h'.within t (by simpa using ht)
        omega
  have hsecond := h'.peak_append (live ∪ o.toFinset) rest hne hlive' fun t ht hl hh => by
    rcases hrest t ht (by omega) hh with ht | ht
    · have := (h.within t (by simpa using ht)).2
      omega
    · simpa using ht
  rw [filter_touched fun t ht => touched_append.mpr (Or.inr (ho t ht))] at hfirst
  rw [filter_touched hp, Finset.card_union_of_disjoint (h.disjoint hlive)] at hsecond
  rw [hfirst, hsecond]
  omega

/-- The two instructions of an operator: within the first one the operands and the target are live, within
the second one the target and the right operand. -/
theorem peak_compute {d : Temp} (hlo : Disjoint live o.toFinset) (hlp : Disjoint live p.toFinset)
    (hop : Disjoint o.toFinset p.toFinset) (hd : d ∉ live ∪ o.toFinset ∪ p.toFinset)
    (ho : ∀ t, o = some t → ¬ Touched rest t) (hp : ∀ t, p = some t → ¬ Touched rest t) :
    peak (live ∪ o.toFinset ∪ p.toFinset) (⟨some d, o⟩ :: ⟨some d, p⟩ :: rest) =
      max (live.card + (1 + o.toFinset.card + p.toFinset.card))
        (max (live.card + (1 + p.toFinset.card)) (peak (live ∪ Finset.filter (Touched rest) {d}) rest)) := by
  simp only [Finset.mem_union, Option.mem_toFinset, Option.mem_def, not_or] at hd
  obtain ⟨⟨hdl, hdo⟩, hdp⟩ := hd
  have hlo' : ∀ t ∈ live, o ≠ some t := by
    intro t ht hot
    exact Finset.disjoint_left.mp hlo ht (by simpa using hot)
  have hlp' : ∀ t ∈ live, p ≠ some t := by
    intro t ht hpt
    exact Finset.disjoint_left.mp hlp ht (by simpa using hpt)
  have hop' : ∀ t, o = some t → p ≠ some t := by
    intro t hot hpt
    exact Finset.disjoint_left.mp hop (by simpa using hot) (by simpa using hpt)
  have hwithin : liveWithin (live ∪ o.toFinset ∪ p.toFinset) ⟨some d, o⟩ =
      insert d (live ∪ o.toFinset ∪ p.toFinset) := by
    ext t
    simp [mem_liveWithin, or_comm, eq_comm]
  have hafter : liveAfter (live ∪ o.toFinset ∪ p.toFinset) ⟨some d, o⟩ (⟨some d, p⟩ :: rest) =
      insert d (live ∪ p.toFinset) := by
    ext t
    simp only [mem_liveAfter, Touch.mentions_iff, Finset.mem_insert, Finset.mem_union, Option.mem_toFinset,
      Option.mem_def, Option.some.injEq]
    constructor
    · rintro ⟨ht, hmention⟩
      rcases ht with ((ht | ht) | ht) | ht
      · exact Or.inr (Or.inl ht)
      · rcases touched_cons.mp (hmention (Or.inr ht)) with (hm | hm) | hm
        · exact Or.inl (Option.some.inj hm).symm
        · exact absurd hm (hop' t ht)
        · exact absurd hm (ho t ht)
      · exact Or.inr (Or.inr ht)
      · exact Or.inl ht.symm
    · rintro (rfl | ht | ht)
      · exact ⟨Or.inr rfl, fun _ => touched_cons.mpr (Or.inl (Or.inl rfl))⟩
      · refine ⟨Or.inl (Or.inl (Or.inl ht)), fun hm => ?_⟩
        rcases hm with rfl | hm
        · exact absurd ht hdl
        · exact absurd hm (hlo' t ht)
      · exact ⟨Or.inl (Or.inr ht), fun _ => touched_cons.mpr (Or.inl (Or.inr ht))⟩
  have hwithin' : liveWithin (insert d (live ∪ p.toFinset)) ⟨some d, p⟩ = insert d (live ∪ p.toFinset) := by
    rw [liveWithin, Finset.union_eq_left]
    intro t ht
    obtain rfl : t = d := by simpa using ht
    exact Finset.mem_insert_self _ _
  have hafter' : liveAfter (insert d (live ∪ p.toFinset)) ⟨some d, p⟩ rest =
      live ∪ Finset.filter (Touched rest) {d} := by
    ext t
    simp only [mem_liveAfter, Touch.mentions_iff, Finset.mem_insert, Finset.mem_union, Option.mem_toFinset,
      Option.mem_def, Option.some.injEq, Finset.mem_filter, Finset.mem_singleton]
    constructor
    · rintro ⟨ht, hmention⟩
      rcases ht with (ht | ht | ht) | ht
      · exact Or.inr ⟨ht, hmention (Or.inl ht.symm)⟩
      · exact Or.inl ht
      · exact absurd (hmention (Or.inr ht)) (hp t ht)
      · exact Or.inr ⟨ht.symm, hmention (Or.inl ht)⟩
    · rintro (ht | ⟨rfl, htouched⟩)
      · refine ⟨Or.inl (Or.inr (Or.inl ht)), fun hm => ?_⟩
        rcases hm with rfl | hm
        · exact absurd ht hdl
        · exact absurd hm (hlp' t ht)
      · exact ⟨Or.inr rfl, fun _ => htouched⟩
  have hcard : (insert d (live ∪ o.toFinset ∪ p.toFinset)).card =
      live.card + o.toFinset.card + p.toFinset.card + 1 := by
    rw [Finset.card_insert_of_notMem (by simp [hdl, hdo, hdp]), Finset.card_union_of_disjoint
      (Finset.disjoint_union_left.mpr ⟨hlp, hop⟩), Finset.card_union_of_disjoint hlo]
  have hcard' : (insert d (live ∪ p.toFinset)).card = live.card + p.toFinset.card + 1 := by
    rw [Finset.card_insert_of_notMem (by simp [hdl, hdp]), Finset.card_union_of_disjoint hlp]
  rw [peak, hwithin, hafter, peak, hwithin', hafter', hcard, hcard']
  omega

/-- Two operands are computed and combined in the next temporary. -/
theorem Segment.compute (h : Segment low mid o.toFinset n code) (h' : Segment mid high p.toFinset n' code') :
    Segment low (high + 1) {⟨high⟩}
      (max n (max (o.toFinset.card + n') (1 + o.toFinset.card + p.toFinset.card)))
      (code ++ code' ++ [⟨some ⟨high⟩, o⟩, ⟨some ⟨high⟩, p⟩]) where
  le := by
    have hle := h.le
    have hle' := h'.le
    omega
  own t ht := by
    have hle := h.le
    have hle' := h'.le
    rw [touched_append, touched_append, touched_cons, touched_cons] at ht
    have hresult : some (⟨high⟩ : Temp) = some t → low ≤ t.index ∧ t.index < high + 1 := by
      intro ht
      obtain rfl := Option.some.inj ht
      exact ⟨Nat.le_trans hle hle', Nat.lt_succ_self _⟩
    have hleft : o = some t → low ≤ t.index ∧ t.index < high + 1 := by
      intro ht
      have := h.within t (by simpa using ht)
      omega
    have hright : p = some t → low ≤ t.index ∧ t.index < high + 1 := by
      intro ht
      have := h'.within t (by simpa using ht)
      omega
    rcases ht with (ht | ht) | (ht | ht) | (ht | ht) | ht
    · have := h.own t ht
      omega
    · have := h'.own t ht
      omega
    · exact hresult ht
    · exact hleft ht
    · exact hresult ht
    · exact hright ht
    · exact absurd ht not_touched_nil
  within t ht := by
    obtain rfl := Finset.mem_singleton.mp ht
    exact ⟨Nat.le_trans h.le h'.le, Nat.lt_succ_self _⟩
  counted := by
    rw [Finset.card_singleton]
    omega
  peak_append live rest hne hlive hrest := by
    have hle := h.le
    have hle' := h'.le
    have hleft : ∀ t, o = some t → low ≤ t.index ∧ t.index < mid := fun t ht => h.within t (by simpa using ht)
    have hright : ∀ t, p = some t → mid ≤ t.index ∧ t.index < high :=
      fun t ht => h'.within t (by simpa using ht)
    -- the code behind the two instructions mentions the target, and none of the operands
    have hbehind : ∀ t, Touched rest t → low ≤ t.index → ¬ t.index < high := by
      intro t ht hl hh
      obtain rfl := Finset.mem_singleton.mp (hrest t ht hl (by omega))
      exact absurd hh (Nat.lt_irrefl _)
    have hread : ∀ t, Touched (⟨some ⟨high⟩, o⟩ :: ⟨some ⟨high⟩, p⟩ :: rest) t →
        low ≤ t.index → t.index < high → o = some t ∨ p = some t := by
      intro t ht hl hh
      have htarget : some (⟨high⟩ : Temp) ≠ some t := by
        intro ht
        obtain rfl := Option.some.inj ht
        exact absurd hh (Nat.lt_irrefl _)
      rw [touched_cons, touched_cons] at ht
      rcases ht with (ht | ht) | (ht | ht) | ht
      · exact absurd ht htarget
      · exact Or.inl ht
      · exact absurd ht htarget
      · exact Or.inr ht
      · exact absurd hh (hbehind t ht hl)
    have hboth := h.peak_both h' hlive (fun t ht => touched_cons.mpr (Or.inl (Or.inr ht)))
      (fun t ht => touched_cons.mpr (Or.inr (touched_cons.mpr (Or.inl (Or.inr ht))))) (by simp) hread
    have hop : Disjoint o.toFinset p.toFinset := h'.disjoint fun t ht => (h.within t ht).2
    have hlp : Disjoint live p.toFinset := h'.disjoint fun t ht => Nat.lt_of_lt_of_le (hlive t ht) hle
    have hnew : (⟨high⟩ : Temp) ∉ live ∪ o.toFinset ∪ p.toFinset := by
      simp only [Finset.mem_union, Option.mem_toFinset, Option.mem_def]
      rintro ((ht | ht) | ht)
      · have : high < low := hlive _ ht
        omega
      · have : high < mid := (hleft _ ht).2
        omega
      · exact absurd (hright _ ht).2 (Nat.lt_irrefl _)
    have hcompute := peak_compute (h.disjoint hlive) hlp hop hnew
      (fun t ht hm => hbehind t hm (hleft t ht).1 (Nat.lt_of_lt_of_le (hleft t ht).2 hle'))
      (fun t ht hm => hbehind t hm (Nat.le_trans hle (hright t ht).1) (hright t ht).2)
    rw [List.append_assoc, List.append_assoc, List.cons_append, List.cons_append, List.nil_append,
      hboth, hcompute]
    omega

end ArithJit.Machine
