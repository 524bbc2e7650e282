import ArithJit.Proofs.AllocationSimulation
import ArithJit.Proofs.Pressure
import Mathlib.Algebra.Order.Interval.Finset.SuccPred
import Mathlib.Data.Finset.Lattice.Fold
import Mathlib.Data.Nat.SuccPred
import Mathlib.Order.Interval.Finset.Nat
import Mathlib.Order.Lattice.Nat

/-!
# Proofs: when the registers suffice

The allocator decides instruction by instruction, and what it decides can be read off the whole code. The
range of a temporary goes from its first to its last mention. Registers can be given out if and only if each
temporary is defined where it is mentioned first and no instruction lies in more than six ranges; the
recorded pressure is the largest number of ranges that an instruction lies in.

The pass over the code is described at the point between two parts of it (`Between`): those temporaries hold
a register that both parts mention.
-/

namespace ArithJit.Machine

open Assoc (find?)

/-- The temporaries of an instruction, that of the first operand first. -/
def Instruction.temps (i : Instruction) : List Temp :=
  i.op0.temp?.toList ++ i.op1.temp?.toList

/-- The temporaries of some code, in the order in which they are mentioned. -/
def temps (code : List Instruction) : List Temp :=
  code.flatMap Instruction.temps

/-- The temporaries whose range contains instruction `k`: they are mentioned in it or before it, and in it or
after it. -/
def overlapping (code : List Instruction) (k : Nat) : Finset Temp :=
  (temps (code.take (k + 1))).toFinset ∩ (temps (code.drop k)).toFinset

/-- Each temporary is mentioned first as a first operand; the second operand may repeat it. -/
def DefinedFirst (code : List Instruction) : Prop :=
  ∀ before i rest t, code = before ++ i :: rest → t ∉ temps before → i.mentions t = true →
    i.op0.temp? = some t

/-- The operand with the register that is recorded for its temporary. -/
def Allocation.place (n : Allocation) (o : Operand) : Operand :=
  match o.temp? with
  | none => o
  | some t => .reg ⟨some t, find? t n.assignments⟩

/-- The instruction with the registers that are recorded for its temporaries. -/
def Allocation.placeBoth (n : Allocation) (i : Instruction) : Instruction :=
  { i with op0 := n.place i.op0, op1 := n.place i.op1 }

variable {before after rest code out : List Instruction} {i j : Instruction} {t : Temp}

theorem Instruction.mem_temps : t ∈ i.temps ↔ i.mentions t = true := by
  rw [Instruction.temps, Instruction.mentions_iff, List.mem_append, Option.mem_toList, Option.mem_toList]

theorem temps_append (code code' : List Instruction) : temps (code ++ code') = temps code ++ temps code' :=
  List.flatMap_append

theorem temps_cons (i : Instruction) (rest : List Instruction) : temps (i :: rest) = i.temps ++ temps rest :=
  List.flatMap_cons

theorem temps_concat (code : List Instruction) (i : Instruction) :
    temps (code ++ [i]) = temps code ++ i.temps := by
  rw [temps_append, temps_cons]
  exact congrArg (temps code ++ ·) (List.append_nil _)

theorem mem_temps_iff : t ∈ temps code ↔ code.any (·.mentions t) = true := by
  rw [temps, List.mem_flatMap, List.any_eq_true]
  simp only [Instruction.mem_temps]

/-! ## The ranges are what the pass sees -/

theorem definedFirst_nil : DefinedFirst [] := by
  intro before i rest t h
  simp at h

theorem DefinedFirst.concat (h : DefinedFirst before)
    (hi : ∀ t, t ∉ temps before → i.mentions t = true → i.op0.temp? = some t) :
    DefinedFirst (before ++ [i]) := by
  intro front j back t hsplit hfresh hj
  rcases append_singleton_eq hsplit with ⟨rfl, rfl, -⟩ | ⟨back', -, hcode⟩
  · exact hi t hfresh hj
  · exact h front j back' t hcode hfresh hj

section Within

variable (hi : ∀ t, t ∉ temps before → i.mentions t = true → i.op0.temp? = some t)

include hi

/-- What an instruction mentions is mentioned before it, or defined by it. -/
theorem mem_temps_concat : t ∈ temps (before ++ [i]) ↔ t ∈ temps before ∨ i.op0.temp? = some t := by
  rw [temps_concat, List.mem_append, Instruction.mem_temps]
  constructor
  · rintro (ht | ht)
    · exact Or.inl ht
    · by_cases hbefore : t ∈ temps before
      · exact Or.inl hbefore
      · exact Or.inr (hi t hbefore ht)
  · rintro (ht | ht)
    · exact Or.inl ht
    · exact Or.inr (Instruction.mentions_iff.mpr (Or.inl ht))

/-- Within an instruction, those temporaries are live whose range contains it. -/
theorem liveWithin_temps (rest : List Instruction) :
    liveWithin ((temps before).toFinset ∩ (temps (i :: rest)).toFinset) i.touch =
      (temps (before ++ [i])).toFinset ∩ (temps (i :: rest)).toFinset := by
  ext t
  rw [mem_liveWithin, Finset.mem_inter, Finset.mem_inter, List.mem_toFinset, List.mem_toFinset,
    List.mem_toFinset, mem_temps_concat hi]
  have hmention : i.op0.temp? = some t → t ∈ temps (i :: rest) := by
    intro ht
    rw [temps_cons, List.mem_append, Instruction.mem_temps, Instruction.mentions_iff]
    exact Or.inl (Or.inl ht)
  show _ ∨ i.op0.temp? = some t ↔ _
  tauto

/-- After an instruction, those temporaries are live that are mentioned on both sides. -/
theorem liveAfter_temps (rest : List Instruction) :
    liveAfter ((temps before).toFinset ∩ (temps (i :: rest)).toFinset) i.touch (rest.map Instruction.touch) =
      (temps (before ++ [i])).toFinset ∩ (temps rest).toFinset := by
  ext t
  rw [mem_liveAfter, ← mem_liveWithin, liveWithin_temps hi, Finset.mem_inter, Finset.mem_inter,
    List.mem_toFinset, List.mem_toFinset, List.mem_toFinset, Instruction.mentions_touch,
    any_mentions_touch, ← mem_temps_iff, temps_cons, List.mem_append, Instruction.mem_temps]
  tauto

end Within

/-- The peak is the largest number of ranges that an instruction lies in. -/
theorem peak_eq_sup (hcode : before ++ after = code) (hdef : DefinedFirst code) :
    peak ((temps before).toFinset ∩ (temps after).toFinset) (after.map Instruction.touch) =
      (Finset.Ico before.length code.length).sup fun k => (overlapping code k).card := by
  induction after generalizing before with
  | nil =>
    rw [List.append_nil] at hcode
    subst hcode
    rw [Finset.Ico_self, Finset.sup_empty]
    rfl
  | cons i rest ih =>
    have hi : ∀ t, t ∉ temps before → i.mentions t = true → i.op0.temp? = some t :=
      fun t => hdef before i rest t hcode.symm
    have hhere : overlapping code before.length = (temps (before ++ [i])).toFinset ∩
        (temps (i :: rest)).toFinset := by
      subst hcode
      rw [overlapping, List.drop_left, List.append_cons, List.take_left' (by simp)]
    have hlength : before.length < code.length := by
      subst hcode
      simp
    have hrest : peak ((temps (before ++ [i])).toFinset ∩ (temps rest).toFinset)
        (rest.map Instruction.touch) = _ :=
      ih (by rw [← hcode]; simp)
    rw [List.length_append, List.length_singleton] at hrest
    rw [List.map_cons, peak, liveWithin_temps hi, liveAfter_temps hi, hrest, ← hhere,
      ← Finset.insert_Ico_add_one_left_eq_Ico hlength, Finset.sup_insert]

/-! ## Mentions in their order -/

section Introduced

variable (hi : ∀ t, t ∉ temps before → i.mentions t = true → i.op0.temp? = some t)

include hi

theorem eraseDups_temps_of_known (h : ∀ t, i.op0.temp? = some t → t ∈ temps before) :
    (temps (before ++ [i])).eraseDups = (temps before).eraseDups := by
  rw [temps_concat]
  refine eraseDups_append_of_subset fun t ht => ?_
  by_contra hfresh
  exact hfresh (h t (hi t hfresh (Instruction.mem_temps.mp ht)))

theorem eraseDups_temps_of_fresh (ht : i.op0.temp? = some t) (hfresh : t ∉ temps before) :
    (temps (before ++ [i])).eraseDups = (temps before).eraseDups ++ [t] := by
  have htemps : temps (before ++ [i]) = (temps before ++ [t]) ++ i.op1.temp?.toList := by
    rw [temps_concat, Instruction.temps, ht, Option.toList_some, List.append_assoc]
  have hsecond : ∀ u ∈ i.op1.temp?.toList, u ∈ temps before ++ [t] := by
    intro u hu
    rw [List.mem_append, List.mem_singleton]
    by_contra hnot
    have hmention : i.mentions u = true := Instruction.mentions_iff.mpr (Or.inr (by simpa using hu))
    have hu' := hi u (fun hb => hnot (Or.inl hb)) hmention
    rw [ht, Option.some.injEq] at hu'
    exact hnot (Or.inr hu'.symm)
  rw [htemps, eraseDups_append_of_subset hsecond, eraseDups_concat hfresh]

end Introduced

namespace Allocator

variable {a b c : Allocator} {n m k : Allocation} {o p : Operand} {r : Register}

/-- The allocator between two parts of some code, after the first one. -/
structure Between (a : Allocator) (n : Allocation) (before after : List Instruction) : Prop where
  balanced : a.Balanced
  recorded : a.Recorded n
  /-- Those temporaries hold a register that both parts mention. -/
  held : a.held = (temps before).toFinset ∩ (temps after).toFinset
  /-- The temporaries of the first part are recorded in the order of their first mentions. -/
  listed : n.assignments.map Prod.fst = (temps before).eraseDups
  defined : DefinedFirst before

theorem between_nil (hlive : a.live = []) (hpool : a.pool.free.Perm Machine.allocatable) :
    a.Between {} [] code where
  balanced := ⟨by simp [hlive], by simpa [hlive] using hpool⟩
  recorded t r ht := by simp [hlive] at ht
  held := by
    rw [Allocator.held, hlive]
    simp [temps]
  listed := by simp [temps]
  defined := definedFirst_nil

theorem Between.mem_held (h : a.Between n before (i :: rest)) (ht : i.mentions t = true) :
    t ∈ a.held ↔ t ∈ temps before := by
  rw [h.held, Finset.mem_inter, List.mem_toFinset, List.mem_toFinset, temps_cons, List.mem_append,
    Instruction.mem_temps]
  exact ⟨fun hb => hb.1, fun hb => ⟨hb, Or.inl ht⟩⟩

/-- A temporary that an instruction mentions first is defined by it, else it could not be read. -/
theorem Between.introduced (h : a.Between n before (i :: rest)) (ho : Free i.op0)
    (hs : a.step n i rest = .ok (j, b, m)) :
    ∀ t, t ∉ temps before → i.mentions t = true → i.op0.temp? = some t := by
  intro t hfresh ht
  obtain ⟨op0, d, k, op1, e, hfirst, hsecond, -, -, -, -⟩ := step_ok hs
  rcases Instruction.mentions_iff.mp ht with h0 | h1
  · exact h0
  · rcases assignSecond_cases hsecond with ⟨-, hnone⟩ | ⟨u, r, hu, -, hlive⟩
    · rw [h1] at hnone
      cases hnone
    · obtain rfl : t = u := by simpa [h1] using hu
      have hd : t ∈ d.held := Allocator.mem_held.mpr ⟨r, hlive⟩
      rw [held_assignFirst ho hfirst, mem_liveWithin, h.mem_held ht] at hd
      exact hd.resolve_left hfresh

/-- The first operand is recorded behind what was recorded before, if it is mentioned for the first time. -/
theorem Between.listed_step (h : a.Between n before (i :: rest)) (ho : Free i.op0)
    (hs : a.step n i rest = .ok (j, b, m)) :
    m.assignments.map Prod.fst = (temps (before ++ [i])).eraseDups := by
  have hi := h.introduced ho hs
  obtain ⟨op0, d, k, hfirst, hm, -⟩ := find?_step h.balanced hs
  rw [hm]
  rcases assignFirst_cases hfirst with ⟨-, -, rfl, hne⟩ | ⟨t, r, ht, -, hd⟩
  · rw [eraseDups_temps_of_known hi fun t ht => absurd (ho t ht) (hne t), h.listed]
  · have h0 : i.op0.temp? = some t := by
      rw [ht]
      rfl
    have hmention : i.mentions t = true := Instruction.mentions_iff.mpr (Or.inl h0)
    rcases define_cases hd with ⟨hlive, -, rfl⟩ | ⟨hnone, free, -, -, rfl⟩
    · have hbefore : t ∈ temps before := (h.mem_held hmention).mp (Allocator.mem_held.mpr ⟨r, hlive⟩)
      rw [eraseDups_temps_of_known hi, h.listed]
      intro u hu
      rw [h0, Option.some.injEq] at hu
      exact hu ▸ hbefore
    · -- the temporary holds no register, so it was not mentioned before
      have hfresh : t ∉ temps before := by
        rw [← h.mem_held hmention, Allocator.mem_held]
        rintro ⟨q, hq⟩
        rw [hnone] at hq
        cases hq
      have hunlisted : find? t n.assignments = none := by
        rw [Assoc.find?_eq_none, h.listed, List.mem_eraseDups]
        exact hfresh
      show (Assoc.insert t r n.assignments).map Prod.fst = _
      rw [Assoc.insert_eq_append hunlisted, List.map_append, h.listed, eraseDups_temps_of_fresh hi h0 hfresh]
      rfl

theorem Between.step (h : a.Between n before (i :: rest)) (ho : Free i.op0)
    (hs : a.step n i rest = .ok (j, b, m)) :
    b.Between m (before ++ [i]) rest where
  balanced := h.balanced.step hs
  recorded := h.recorded.step h.balanced hs
  held := by
    rw [(h.balanced.held_step ho hs).1, h.held, liveAfter_temps (h.introduced ho hs)]
  listed := h.listed_step ho hs
  defined := h.defined.concat (h.introduced ho hs)

theorem Between.allocateFrom (h : a.Between n before after) (ho : ∀ i ∈ after, Free i.op0)
    (hr : a.allocateFrom n after = .ok (out, b, m)) : b.Between m (before ++ after) [] := by
  induction after generalizing a n before out with
  | nil =>
    simp only [Allocator.allocateFrom, Except.ok.injEq, Prod.mk.injEq] at hr
    obtain ⟨-, rfl, rfl⟩ := hr
    rw [List.append_nil]
    exact h
  | cons i rest ih =>
    obtain ⟨j, c, k, out', hstep, hrest, -⟩ := allocateFrom_cons_ok hr
    have hend := ih (h.step (ho i (by simp)) hstep) (fun l hl => ho l (by simp [hl])) hrest
    rw [List.append_assoc] at hend
    exact hend

/-- Code that defines its temporaries first never reads one that holds no register. -/
theorem Between.not_undefined (h : a.Between n before after) (ho : ∀ i ∈ after, Free i.op0)
    (hdef : DefinedFirst (before ++ after)) : a.allocateFrom n after ≠ .error (.undefinedTemp t) := by
  induction after generalizing a n before with
  | nil => simp [Allocator.allocateFrom]
  | cons i rest ih =>
    intro herror
    have h0 := ho i (by simp)
    rcases allocateFrom_cons_error herror with hstep | ⟨j, c, k, hstep, hrest⟩
    · rcases h.balanced.step_error hstep with hfirst | ⟨d, k, u, p, hfirst, hu, hnone, hf⟩
      · obtain ⟨u, -, hf⟩ := assignFirst_error h.balanced hfirst
        cases hf
      · have hmention : i.mentions u = true := Instruction.mentions_iff.mpr (Or.inr hu)
        have hdead : u ∉ d.held := by
          rw [Allocator.mem_held, hnone]
          simp
        rw [held_assignFirst h0 hfirst, mem_liveWithin, h.mem_held hmention, not_or] at hdead
        exact hdead.2 (hdef before i rest u rfl hdead.1 hmention)
    · refine ih (h.step h0 hstep) (fun l hl => ho l (by simp [hl])) ?_ hrest
      rw [List.append_assoc]
      exact hdef

/-! ## The code with registers -/

theorem place_of_temp (ht : o.temp? = some t) (hr : find? t m.assignments = some r) :
    m.place o = .reg ⟨some t, some r⟩ := by
  rw [Allocation.place, ht, ← hr]

theorem place_of_none (ho : o.temp? = none) : m.place o = o := by
  rw [Allocation.place, ho]

/-- The operands get the registers that are recorded in the end. -/
theorem eq_map_placeBoth (ha : a.Balanced) (hr : a.Recorded n) (ho : ∀ i ∈ code, Free i.op0)
    (h : a.allocateFrom n code = .ok (out, b, m)) : out = code.map m.placeBoth := by
  induction code generalizing a n out with
  | nil =>
    simp only [Allocator.allocateFrom, Except.ok.injEq, Prod.mk.injEq] at h
    exact h.1.symm
  | cons i rest ih =>
    obtain ⟨j, c, k, out', hstep, hrest, rfl⟩ := allocateFrom_cons_ok h
    obtain ⟨op0, d, k', op1, e, hfirst, hsecond, -, -, rfl, -⟩ := step_ok hstep
    have hlasts : ∀ t r, find? t d.live = some r → find? t m.assignments = some r :=
      fun t r => assignments_of_assignFirst ha hr hfirst hstep hrest
    have h0 : op0 = m.place i.op0 := by
      rcases assignFirst_cases hfirst with ⟨rfl, -, -, hne⟩ | ⟨t, r, ht, -, -⟩
      · refine (place_of_none ?_).symm
        rw [Option.eq_none_iff_forall_ne_some]
        exact fun t ht => hne t (ho i (by simp) t ht)
      · obtain ⟨q, hq, rfl⟩ := (find?_assignFirst hfirst).2.2 t ht
        exact (place_of_temp (by rw [ht]; rfl) (hlasts t q hq)).symm
    have h1 : op1 = m.place i.op1 := by
      rcases assignSecond_cases hsecond with ⟨rfl, hnone⟩ | ⟨t, r, ht, rfl, hlive⟩
      · exact (place_of_none hnone).symm
      · exact (place_of_temp ht (hlasts t r hlive)).symm
    rw [List.map_cons, ih (ha.step hstep) (hr.step ha hstep) (fun l hl => ho l (by simp [hl])) hrest,
      Allocation.placeBoth, h0, h1]

theorem free_of_plain (h : ∀ t r, o ≠ .reg ⟨some t, some r⟩) : Free o := by
  intro t ht
  cases o with
  | reg operand =>
    obtain ⟨u, q⟩ := operand
    obtain rfl : u = some t := ht
    cases q with
    | none => rfl
    | some q => exact absurd rfl (h t q)
  | _ => cases ht

/-- An allocator whose registers are all free gives registers to code if and only if each temporary is defined
where it is mentioned first, and no instruction lies in more than six ranges. Then each temporary has the
register that is recorded for it, the temporaries are recorded in the order of their first mentions, and the
pressure is the largest number of ranges that an instruction lies in. -/
theorem allocate_exact {a : Allocator} {code : List Instruction} (hlive : a.live = [])
    (hpool : a.pool.free.Perm Machine.allocatable)
    (hplain : ∀ i ∈ code, ∀ o ∈ [i.op0, i.op1], ∀ t r, o ≠ .reg ⟨some t, some r⟩) :
    ((∃ out b n, a.allocate code = .ok (out, b, n)) ↔
        DefinedFirst code ∧ ∀ k < code.length, (overlapping code k).card ≤ 6) ∧
      ∀ out b n, a.allocate code = .ok (out, b, n) →
        out = code.map n.placeBoth ∧ (∀ t ∈ temps code, ∃ r, find? t n.assignments = some r) ∧
        n.assignments.map Prod.fst = (temps code).eraseDups ∧
        n.maxPressure = (Finset.range code.length).sup fun k => (overlapping code k).card := by
  have hstart : a.Between {} [] code := between_nil hlive hpool
  have hfree : ∀ i ∈ code, Free i.op0 := fun i hi => free_of_plain (hplain i hi i.op0 (by simp))
  have hpeak : DefinedFirst code → peak a.held (code.map Instruction.touch) =
      (Finset.range code.length).sup fun k => (overlapping code k).card := by
    intro hdef
    rw [hstart.held, peak_eq_sup (List.nil_append code) hdef, Finset.range_eq_Ico, List.length_nil]
  refine ⟨⟨?_, ?_⟩, ?_⟩
  · rintro ⟨out, b, n, h⟩
    have hdef : DefinedFirst code := (hstart.allocateFrom hfree h).defined
    obtain ⟨hsix, -⟩ := hstart.balanced.peak_of_allocateFrom hfree h
    rw [hpeak hdef, Finset.sup_le_iff] at hsix
    exact ⟨hdef, fun k hk => hsix k (Finset.mem_range.mpr hk)⟩
  · rintro ⟨hdef, hsix⟩
    cases h : a.allocate code with
    | ok result => exact ⟨_, _, _, rfl⟩
    | error f =>
      -- neither of the two ways to fail is left
      exfalso
      rcases hstart.balanced.allocateFrom_error h with ⟨t, rfl⟩ | ⟨t, rfl⟩
      · have hseven := hstart.balanced.peak_of_outOfRegisters hfree h
        have hle : ((Finset.range code.length).sup fun k => (overlapping code k).card) ≤ 6 :=
          Finset.sup_le fun k hk => hsix k (Finset.mem_range.mp hk)
        rw [hpeak hdef] at hseven
        omega
      · exact hstart.not_undefined hfree hdef h
  · intro out b n h
    have hend := hstart.allocateFrom hfree h
    rw [List.nil_append] at hend
    obtain ⟨-, hmax⟩ := hstart.balanced.peak_of_allocateFrom hfree h
    refine ⟨eq_map_placeBoth hstart.balanced hstart.recorded hfree h, ?_, hend.listed, ?_⟩
    · intro t ht
      rw [← Option.ne_none_iff_exists', ne_eq, Assoc.find?_eq_none, not_not, hend.listed, List.mem_eraseDups]
      exact ht
    · rw [hmax, hpeak hend.defined]
      exact Nat.zero_max _

/-- Three temporaries, of which at most two are needed at once. -/
def chainCode : List Instruction :=
  [⟨.mov, .temp ⟨5⟩, .temp ⟨5⟩, .rr⟩, ⟨.mov, .temp ⟨3⟩, .temp ⟨5⟩, .rr⟩,
    ⟨.mov, .temp ⟨4⟩, .temp ⟨3⟩, .rr⟩]

/-- The pool may have any order, and the second operand may repeat the temporary that the first one defines. -/
theorem allocate_exact_chain :
    ∃ out b n, allocate ⟨⟨[.rdi, .rbx, .rsi, .rdx, .rcx, .rax]⟩, []⟩ chainCode = .ok (out, b, n) ∧
      DefinedFirst chainCode ∧ n.assignments.map Prod.fst = [⟨5⟩, ⟨3⟩, ⟨4⟩] ∧
      ((Finset.range 3).sup fun k => (overlapping chainCode k).card) = 2 := by
  have hplain : ∀ i ∈ chainCode, ∀ o ∈ [i.op0, i.op1], ∀ t r, o ≠ .reg ⟨some t, some r⟩ := by
    simp [chainCode, Operand.temp]
  obtain ⟨hiff, hok⟩ := allocate_exact (a := ⟨⟨[.rdi, .rbx, .rsi, .rdx, .rcx, .rax]⟩, []⟩) rfl
    (by decide) hplain
  obtain ⟨-, -, hlisted, hmax⟩ := hok _ _ _ rfl
  exact ⟨_, _, _, rfl, (hiff.mp ⟨_, _, _, rfl⟩).1, hlisted, hmax.symm⟩

end Allocator

end ArithJit.Machine
