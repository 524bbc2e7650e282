import ArithJit.Proofs.Lowering

/-!
# Proofs: code that assigns once

Whatever is asked of a builder, its code defines the temporaries in the order of their numbers, each of them
once and before it is read, and reserves one slot for each name, when the name is met first. Building goes by
steps that append at most one instruction: each step keeps this, and so does building a node, by induction on
the levels, and then any number of calls. What was built before stays as a prefix.
-/

namespace ArithJit

/-- The names below a node, from left to right and as often as they stand there. -/
def Forest.namesWithin (f : Forest) : Nat → NodeId → List Symbol
  | 0, _ => []
  | levels + 1, id =>
    match f.get? id with
    | some (.name symbol) => [symbol]
    | some (.binary left _ right) => f.namesWithin levels left ++ f.namesWithin levels right
    | some (.block children) => children.flatMap (f.namesWithin levels)
    | _ => []

/-- The names of a tree, from left to right. -/
def Forest.names (f : Forest) (root : NodeId) : List Symbol :=
  f.namesWithin f.levels root

namespace Bytecode

variable {code : List Instruction} {i : Instruction} {o : Operand} {t : Temp} {ty : Ty} {count : Nat}

/-! ## Code -/

/-- If the operand is a temporary, then the code defines it, with its type. -/
def DefinedBy (code : List Instruction) (o : Operand) : Prop :=
  ∀ t ty, o = .register t ty → ∃ i ∈ code, i.dest = .register t ty

theorem DefinedBy.mono {code' : List Instruction} (h : DefinedBy code o) (hp : code <+: code') :
    DefinedBy code' o := by
  intro t ty ho
  obtain ⟨i, hi, hd⟩ := h t ty ho
  exact ⟨i, hp.subset hi, hd⟩

theorem definedBy_dest (hi : i ∈ code) : DefinedBy code i.dest :=
  fun _ _ ho => ⟨i, hi, ho⟩

/-- The destinations that an opcode may have. -/
inductive Opcode.Targets : Opcode → Operand → Prop where
  | push (t : Temp) : Targets .push (.register t .slot)
  | load (t : Temp) : Targets .load (.register t .word)
  | arithmetic (op : Arithmetic) (t : Temp) : Targets (.arithmetic op) (.register t .word)
  | store : Targets .store .none
  | ret : Targets .ret .none

theorem Opcode.Targets.push_iff {c : Opcode} (h : c.Targets (.register t ty)) : c = .push ↔ ty = .slot := by
  cases h <;> simp

theorem Opcode.Targets.of_push (h : Opcode.push.Targets o) : ∃ t, o = .register t .slot := by
  cases h
  exact ⟨_, rfl⟩

theorem Opcode.Targets.of_arithmetic {op : Arithmetic} (h : (Opcode.arithmetic op).Targets o) :
    ∃ t, o = .register t .word := by
  cases h
  exact ⟨_, rfl⟩

/-- The code defines the first `count` temporaries in their order, and each before it is read. -/
structure SingleAssignment (code : List Instruction) (count : Nat) : Prop where
  targets : code.filterMap (·.dest.temp?) = (List.range count).map Temp.mk
  sources : ∀ before i after, code = before ++ i :: after → ∀ o ∈ [i.src0, i.src1], DefinedBy before o
  typed : ∀ i ∈ code, i.opcode.Targets i.dest

theorem singleAssignment_nil : SingleAssignment [] 0 where
  targets := rfl
  sources before i after h := by simp at h
  typed := by simp

/-- An instruction may follow if it reads what is defined and defines at most the next temporary. -/
theorem SingleAssignment.concat {count' : Nat} (h : SingleAssignment code count)
    (htargets : (List.range count).map Temp.mk ++ i.dest.temp?.toList = (List.range count').map Temp.mk)
    (hsources : ∀ o ∈ [i.src0, i.src1], DefinedBy code o) (htyped : i.opcode.Targets i.dest) :
    SingleAssignment (code ++ [i]) count' where
  targets := by
    have hone : [i].filterMap (·.dest.temp?) = i.dest.temp?.toList := by
      cases hd : i.dest.temp? <;> simp [hd]
    rw [List.filterMap_append, h.targets, hone, htargets]
  sources before j after hcode := by
    rcases append_singleton_eq hcode with ⟨rfl, rfl, -⟩ | ⟨rest, -, hcode⟩
    · exact hsources
    · exact h.sources before j rest hcode
  typed j hj := by
    rcases List.mem_append.mp hj with hj | hj
    · exact h.typed j hj
    · obtain rfl : j = i := by simpa using hj
      exact htyped

section Properties

variable (h : SingleAssignment code count)

include h

/-- A temporary is an address if and only if it is reserved. -/
theorem SingleAssignment.slot_iff (t : Temp) :
    (∃ i ∈ code, Operand.register t .slot ∈ [i.dest, i.src0, i.src1]) ↔
      ∃ i ∈ code, i.opcode = .push ∧ i.dest.temp? = some t := by
  have hdest : ∀ i ∈ code, i.dest = .register t .slot → i.opcode = .push ∧ i.dest.temp? = some t := by
    intro i hi hd
    have htyped := h.typed i hi
    rw [hd] at htyped ⊢
    exact ⟨htyped.push_iff.mpr rfl, rfl⟩
  constructor
  · rintro ⟨i, hi, ho⟩
    rcases List.mem_cons.mp ho with ho | ho
    · exact ⟨i, hi, hdest i hi ho.symm⟩
    · obtain ⟨before, after, rfl⟩ := List.append_of_mem hi
      obtain ⟨j, hj, hd⟩ := h.sources before i after rfl _ ho t .slot rfl
      have hj' : j ∈ before ++ i :: after := List.mem_append_left _ hj
      exact ⟨j, hj', hdest j hj' hd⟩
  · rintro ⟨i, hi, hop, ht⟩
    have htyped := h.typed i hi
    rw [hop] at htyped
    obtain ⟨u, hd⟩ := htyped.of_push
    rw [hd] at ht
    cases ht
    exact ⟨i, hi, by simp [hd]⟩

theorem SingleAssignment.nodup_targets : (code.filterMap (·.dest.temp?)).Nodup := by
  rw [h.targets]
  refine List.Pairwise.map _ (fun m n hmn => ?_) List.nodup_range
  intro heq
  exact hmn (congrArg Temp.index heq)

/-- No instruction reads what it defines. -/
theorem SingleAssignment.dest_not_read (hi : i ∈ code) (ht : i.dest.temp? = some t) :
    ∀ o ∈ [i.src0, i.src1], o.temp? ≠ some t := by
  intro o ho hread
  obtain ⟨before, after, rfl⟩ := List.append_of_mem hi
  obtain ⟨ty, rfl⟩ : ∃ ty, o = .register t ty := by
    cases o <;> simp_all [Operand.temp?]
  obtain ⟨j, hj, hd⟩ := h.sources before i after rfl _ ho t ty rfl
  -- then the temporary is defined twice
  have hn := h.nodup_targets
  rw [List.filterMap_append, List.nodup_append] at hn
  refine hn.2.2 t (List.mem_filterMap.mpr ⟨j, hj, by rw [hd]; rfl⟩) t ?_ rfl
  exact List.mem_filterMap.mpr ⟨i, List.mem_cons_self, ht⟩

end Properties

namespace Builder

open Assoc (find?)

variable {b b' c : Builder} {seen : List Symbol} {x : Symbol}

/-! ## Steps -/

/-- The code assigns once, and there is one slot for each name that was seen, in the order in which the names
were seen first. -/
structure Assigned (b : Builder) (seen : List Symbol) : Prop where
  code : SingleAssignment b.instructions b.temps
  slots : b.locals.map Prod.snd = (b.instructions.filter fun i => i.opcode = .push).map (·.dest)
  names : b.locals.map Prod.fst = seen.eraseDups

theorem assigned_empty : Assigned empty [] :=
  ⟨singleAssignment_nil, rfl, rfl⟩

theorem filter_push_concat (hop : i.opcode ≠ .push) :
    (code ++ [i]).filter (fun j => j.opcode = .push) = code.filter fun j => j.opcode = .push := by
  simp [List.filter_append, hop]

theorem Assigned.append (h : b.Assigned seen) (hsources : ∀ o ∈ [i.src0, i.src1], DefinedBy b.instructions o)
    (hd : i.dest = .none) (htyped : i.opcode.Targets .none) : (b.append i).Assigned seen where
  code := by
    rw [instructions_append]
    refine h.code.concat ?_ hsources (hd ▸ htyped)
    simp [hd, Operand.temp?, Builder.append]
  slots := by
    have hop : i.opcode ≠ .push := by
      intro hop
      rw [hop] at htyped
      cases htyped
    rw [instructions_append, filter_push_concat hop]
    exact h.slots
  names := h.names

theorem singleAssignment_define (h : SingleAssignment b.instructions b.temps)
    (hsources : ∀ o ∈ [i.src0, i.src1], DefinedBy b.instructions o) (hd : i.dest = b.next ty)
    (htyped : i.opcode.Targets i.dest) : SingleAssignment (b.define i).instructions (b.temps + 1) := by
  rw [instructions_define]
  refine h.concat ?_ hsources htyped
  simp [hd, next, Operand.temp?, List.range_succ]

/-- Defining a word reserves nothing. -/
theorem Assigned.define (h : b.Assigned seen) (hsources : ∀ o ∈ [i.src0, i.src1], DefinedBy b.instructions o)
    (hd : i.dest = b.next .word) (htyped : i.opcode.Targets i.dest) : (b.define i).Assigned seen where
  code := singleAssignment_define h.code hsources hd htyped
  slots := by
    have hop : i.opcode ≠ .push := by
      rw [hd, next] at htyped
      intro hop
      exact absurd (htyped.push_iff.mp hop) (by decide)
    rw [instructions_define, filter_push_concat hop]
    exact h.slots
  names := h.names

theorem Assigned.mem_names (h : b.Assigned seen) : x ∈ b.locals.map Prod.fst ↔ x ∈ seen := by
  rw [h.names, List.mem_eraseDups]

theorem Assigned.addSlot (h : b.Assigned seen) (hx : find? x b.locals = none) :
    (b.addSlot x).Assigned (seen ++ [x]) where
  code := singleAssignment_define h.code (by simp [DefinedBy]) rfl (.push _)
  slots := by
    have hlocals : (b.addSlot x).locals = b.locals ++ [(x, b.next .slot)] := Assoc.insert_eq_append hx
    rw [hlocals, instructions_addSlot, List.map_append, h.slots, List.filter_append, List.map_append]
    rfl
  names := by
    have hlocals : (b.addSlot x).locals = b.locals ++ [(x, b.next .slot)] := Assoc.insert_eq_append hx
    have hnew : x ∉ seen := by
      rw [← h.mem_names]
      exact Assoc.find?_eq_none.mp hx
    rw [hlocals, List.map_append, h.names, eraseDups_concat hnew]
    rfl

/-- A step from `b` ends in `b'` with an operand that its code defines, when the names `seen` were met. -/
structure Built (b : Builder) (seen : List Symbol) (o : Operand) (b' : Builder) : Prop where
  grows : Grows b b'
  assigned : b'.Assigned seen
  defined : DefinedBy b'.instructions o

theorem Built.trans {o' : Operand} {seen' : List Symbol} (h : Built b seen o b') (h' : Built b' seen' o' c) :
    Built b seen' o' c :=
  ⟨h.grows.trans h'.grows, h'.assigned, h'.defined⟩

theorem Assigned.slot (h : b.Assigned seen) (x : Symbol) :
    Built b (seen ++ [x]) (b.slot x).1 (b.slot x).2 := by
  have hgrows := b.grows_slot x
  cases hfind : find? x b.locals with
  | some o =>
    have hstep : b.slot x = (o, b) := by rw [Builder.slot, hfind]
    have hmem : (x, o) ∈ b.locals := Assoc.mem_of_find? hfind
    have hseen : (seen ++ [x]).eraseDups = seen.eraseDups := by
      refine eraseDups_append_of_subset fun y hy => ?_
      obtain rfl : y = x := by simpa using hy
      exact h.mem_names.mp (List.mem_map_of_mem hmem)
    have hslot : o ∈ b.locals.map Prod.snd := List.mem_map_of_mem hmem
    rw [h.slots, List.mem_map] at hslot
    obtain ⟨i, hi, rfl⟩ := hslot
    rw [hstep] at hgrows ⊢
    exact ⟨hgrows, ⟨h.code, h.slots, h.names.trans hseen.symm⟩, definedBy_dest (List.mem_filter.mp hi).1⟩
  | none =>
    have hstep : b.slot x = (b.next .slot, b.addSlot x) := by rw [Builder.slot, hfind]
    rw [hstep] at hgrows ⊢
    refine ⟨hgrows, h.addSlot hfind, ?_⟩
    rw [instructions_addSlot]
    exact definedBy_dest (List.mem_append_right _ List.mem_cons_self)

theorem Assigned.read (h : b.Assigned seen) (ho : DefinedBy b.instructions o) :
    Built b seen (b.read o).1 (b.read o).2 := by
  have hgrows := b.grows_read o
  by_cases hp : o.isPointer = true
  · rw [Builder.read, if_pos hp] at hgrows ⊢
    refine ⟨hgrows, h.define ?_ rfl (.load _), ?_⟩
    · simpa [DefinedBy] using ho
    · rw [instructions_define]
      exact definedBy_dest (List.mem_append_right _ List.mem_cons_self)
  · rw [Builder.read, if_neg hp] at hgrows ⊢
    exact ⟨hgrows, h, ho⟩

theorem Assigned.write {address value : Operand} (h : b.Assigned seen) (ha : DefinedBy b.instructions address)
    (hv : DefinedBy b.instructions value) : Built b seen address (b.write address value) := by
  refine ⟨b.grows_append _, h.append ?_ rfl .store, ?_⟩
  · simp [ha, hv]
  · exact ha.mono (b.grows_append _).code

theorem Assigned.compute {left right : Operand} (h : b.Assigned seen) (op : Arithmetic)
    (hl : DefinedBy b.instructions left) (hr : DefinedBy b.instructions right) :
    Built b seen (b.compute op left right).1 (b.compute op left right).2 := by
  refine ⟨b.grows_define _, h.define ?_ rfl (.arithmetic op _), ?_⟩
  · simp [hl, hr]
  · rw [Builder.compute, instructions_define]
    exact definedBy_dest (List.mem_append_right _ List.mem_cons_self)

/-! ## Nodes -/

section Nodes

variable {f : Forest} {id left right : NodeId} {levels : Nat} {children : List NodeId}

theorem assign_eq_ok (node : f.get? id = some (.binary left .assign right))
    (h : nodeWithin f (levels + 1) id b = .ok o b') :
    ∃ b₁ o₂ b₂, nodeWithin f levels left b = .ok o b₁ ∧ nodeWithin f levels right b₁ = .ok o₂ b₂ ∧
      b' = (b₂.read o₂).2.write o (b₂.read o₂).1 := by
  rw [nodeWithin, node] at h
  obtain ⟨target, b₁, hleft, h⟩ := bind_eq_ok.mp h
  by_cases hp : target.isPointer = true
  · simp only [hp, Bool.not_true, Bool.false_eq_true, if_false] at h
    obtain ⟨o₂, b₂, hright, h⟩ := bind_eq_ok.mp h
    obtain ⟨value, b₃, hload, h⟩ := bind_eq_ok.mp h
    rw [load_apply] at hload
    cases hload
    cases h
    exact ⟨b₁, o₂, b₂, hleft, hright, rfl⟩
  · simp only [hp, Bool.not_false, if_true] at h
    cases h

theorem arithmetic_eq_ok {op : Arithmetic} (node : f.get? id = some (.binary left (.arithmetic op) right))
    (h : nodeWithin f (levels + 1) id b = .ok o b') :
    ∃ o₁ b₁ o₂ b₂, nodeWithin f levels left b = .ok o₁ b₁ ∧
      nodeWithin f levels right (b₁.read o₁).2 = .ok o₂ b₂ ∧
      (o, b') = (b₂.read o₂).2.compute op (b₁.read o₁).1 (b₂.read o₂).1 := by
  rw [nodeWithin, node] at h
  obtain ⟨o₁, b₁, hleft, h⟩ := bind_eq_ok.mp h
  obtain ⟨a, c₁, hload, h⟩ := bind_eq_ok.mp h
  rw [load_apply] at hload
  cases hload
  obtain ⟨o₂, b₂, hright, h⟩ := bind_eq_ok.mp h
  obtain ⟨a, c₂, hload, h⟩ := bind_eq_ok.mp h
  rw [load_apply] at hload
  cases hload
  cases h
  exact ⟨o₁, b₁, o₂, b₂, hleft, hright, rfl⟩

theorem block_eq_ok (node : f.get? id = some (.block children))
    (h : nodeWithin f (levels + 1) id b = .ok o b') : (children = [] ∧ o = .none ∧ b' = b) ∨
      ∃ b₁, children.foldlM (fun _ child => nodeWithin f levels child) Operand.none b = .ok o b₁ ∧
        b' = b₁.append { opcode := .ret, src0 := o } := by
  rw [nodeWithin, node] at h
  cases children with
  | nil =>
    cases h
    exact Or.inl ⟨rfl, rfl, rfl⟩
  | cons child rest =>
    obtain ⟨last, b₁, hfold, h⟩ := bind_eq_ok.mp h
    cases h
    exact Or.inr ⟨b₁, hfold, rfl⟩

/-- Building nodes one after the other, where building one of them is known. -/
theorem Assigned.foldlM (step : ∀ {id b seen o b'}, b.Assigned seen → nodeWithin f levels id b = .ok o b' →
      Built b (seen ++ f.namesWithin levels id) o b') {o' : Operand} (h : b.Assigned seen)
    (ho : DefinedBy b.instructions o)
    (hf : children.foldlM (fun _ child => nodeWithin f levels child) o b = .ok o' b') :
    Built b (seen ++ children.flatMap (f.namesWithin levels)) o' b' := by
  induction children generalizing b o seen with
  | nil =>
    cases hf
    rw [List.flatMap_nil, List.append_nil]
    exact ⟨.refl _, h, ho⟩
  | cons child rest ih =>
    rw [List.foldlM_cons] at hf
    obtain ⟨o₁, b₁, hchild, hf⟩ := bind_eq_ok.mp hf
    have hfirst := step h hchild
    rw [List.flatMap_cons, ← List.append_assoc]
    exact hfirst.trans (ih hfirst.assigned hfirst.defined hf)

theorem Assigned.nodeWithin (h : b.Assigned seen) (hn : nodeWithin f levels id b = .ok o b') :
    Built b (seen ++ f.namesWithin levels id) o b' := by
  induction levels generalizing id b seen o b' with
  | zero =>
    rw [Builder.nodeWithin, throw_apply] at hn
    cases hn
  | succ levels ih =>
    rw [Forest.namesWithin]
    cases hnode : f.get? id with
    | none =>
      rw [Builder.nodeWithin, hnode] at hn
      cases hn
    | some node =>
      cases node with
      | literal value =>
        rw [Builder.nodeWithin, hnode] at hn
        cases value with
        | integer n =>
          cases hn
          simp only [List.append_nil]
          exact ⟨.refl _, h, by simp [DefinedBy]⟩
        | _ => cases hn
      | name symbol =>
        simp only [Builder.nodeWithin, hnode, slotOf_apply] at hn
        cases hn
        exact h.slot symbol
      | binary left op right =>
        simp only [← List.append_assoc]
        cases op with
        | assign =>
          obtain ⟨b₁, o₂, b₂, hleft, hright, rfl⟩ := assign_eq_ok hnode hn
          have htarget := ih h hleft
          have hvalue := ih htarget.assigned hright
          have hread := hvalue.assigned.read hvalue.defined
          have haddress := htarget.defined.mono (hvalue.trans hread).grows.code
          have hwrite := hread.assigned.write haddress hread.defined
          exact htarget.trans (hvalue.trans (hread.trans hwrite))
        | arithmetic op =>
          obtain ⟨o₁, b₁, o₂, b₂, hleft, hright, heq⟩ := arithmetic_eq_ok hnode hn
          have hl := ih h hleft
          have hfirst := hl.assigned.read hl.defined
          have hr := ih hfirst.assigned hright
          have hsecond := hr.assigned.read hr.defined
          have hkept := hfirst.defined.mono (hr.trans hsecond).grows.code
          have hresult := hsecond.assigned.compute op hkept hsecond.defined
          rw [← heq] at hresult
          exact hl.trans (hfirst.trans (hr.trans (hsecond.trans hresult)))
      | block children =>
        rcases block_eq_ok hnode hn with ⟨rfl, rfl, rfl⟩ | ⟨b₁, hfold, rfl⟩
        · simp only [List.flatMap_nil, List.append_nil]
          exact ⟨.refl _, h, by simp [DefinedBy]⟩
        · have hlast := h.foldlM ih (by simp [DefinedBy]) hfold
          have hgrows := b₁.grows_append { opcode := .ret, src0 := o }
          refine hlast.trans ⟨hgrows, hlast.assigned.append ?_ rfl .ret, hlast.defined.mono hgrows.code⟩
          simpa [DefinedBy] using hlast.defined

end Nodes

/-! ## Calls -/

/-- What can be asked of a builder. -/
inductive Call where
  | bind (symbol : Symbol) (value : Int32)
  | build (f : Forest) (root : NodeId)

/-- Does what is asked. -/
def Call.run : Call → Build Operand
  | bind symbol value => Builder.bind symbol value
  | build f root => node f root

/-- The names that a call refers to, in their order. -/
def Call.names : Call → List Symbol
  | bind symbol _ => [symbol]
  | build f root => f.names root

/-- Does what is asked, one call after the other. -/
def runAll : List Call → Build Unit
  | [] => pure ()
  | call :: calls => do
    let _ ← call.run
    runAll calls

theorem bind_apply (b : Builder) (x : Symbol) (n : Int32) :
    Builder.bind x n b = .ok (b.slot x).1 ((b.slot x).2.write (b.slot x).1 (.immediate n .word)) := by
  simp only [Builder.bind, Bind.bind, EStateM.bind, slotOf_apply]
  rfl

theorem Assigned.run {call : Call} (h : b.Assigned seen) (hr : call.run b = .ok o b') :
    Built b (seen ++ call.names) o b' := by
  cases call with
  | bind symbol value =>
    rw [Call.run, bind_apply] at hr
    cases hr
    have hslot := h.slot symbol
    exact hslot.trans (hslot.assigned.write hslot.defined (by simp [DefinedBy]))
  | build f root =>
    rw [Call.run, node] at hr
    exact h.nodeWithin hr

theorem Assigned.runAll {calls : List Call} (h : b.Assigned seen) (hr : runAll calls b = .ok () b') :
    Grows b b' ∧ b'.Assigned (seen ++ calls.flatMap Call.names) := by
  induction calls generalizing b seen with
  | nil =>
    cases hr
    rw [List.flatMap_nil, List.append_nil]
    exact ⟨.refl _, h⟩
  | cons call calls ih =>
    rw [Builder.runAll] at hr
    obtain ⟨o, b₁, hcall, hr⟩ := bind_eq_ok.mp hr
    have hfirst := h.run hcall
    obtain ⟨hgrows, hrest⟩ := ih hfirst.assigned hr
    rw [List.flatMap_cons, ← List.append_assoc]
    exact ⟨hfirst.grows.trans hgrows, hrest⟩

/-! ## The code of a builder -/

/-- Names do not share slots. -/
theorem Assigned.nodup_slots (h : b.Assigned seen) : (b.locals.map Prod.snd).Nodup := by
  rw [h.slots]
  have hn := (List.pairwise_filterMap.mp h.code.nodup_targets).filter fun i => i.opcode = .push
  refine List.pairwise_map.mpr (hn.imp_of_mem fun {i j} hi hj hne heq => ?_)
  obtain ⟨hi, hop⟩ := List.mem_filter.mp hi
  have htyped := h.code.typed i hi
  rw [of_decide_eq_true hop] at htyped
  obtain ⟨t, hd⟩ := htyped.of_push
  exact hne t (by rw [hd]; rfl) t (by rw [← heq, hd]; rfl) rfl

theorem Assigned.prefix_locals {more : List Symbol} (h : b.Assigned seen) (h' : b'.Assigned (seen ++ more))
    (hg : Grows b b') : b.locals <+: b'.locals := by
  refine prefix_of_components ?_ ?_
  · rw [h.names, h'.names, List.eraseDups_append]
    exact List.prefix_append _ _
  · rw [h.slots, h'.slots]
    exact (hg.code.filter _).map _

/-- After any calls, the code defines the temporaries one by one in their order; what it reads was defined
before, with the same type; the addresses are the temporaries that are reserved; the names that were met have
these as their slots, in the order in which they were met first; an operator does not read what it defines.
Further calls only append to the code and to the slots. As long as there are at most `2 ^ 32` temporaries, their
numbers fit in words of 32 bits. -/
theorem calls_assign_once {calls more : List Call} (hb : runAll calls empty = .ok () b)
    (hc : runAll more b = .ok () c) :
    b.instructions.filterMap (·.dest.temp?) = (List.range b.temps).map Temp.mk ∧
    (∀ before i after t ty, b.instructions = before ++ i :: after → .register t ty ∈ [i.src0, i.src1] →
      ∃ j ∈ before, j.dest = .register t ty) ∧
    (∀ t, (∃ i ∈ b.instructions, .register t .slot ∈ [i.dest, i.src0, i.src1]) ↔
      ∃ i ∈ b.instructions, i.opcode = .push ∧ i.dest.temp? = some t) ∧
    b.locals.map Prod.fst = (calls.flatMap Call.names).eraseDups ∧ (b.locals.map Prod.fst).Nodup ∧
    b.locals.map Prod.snd = (b.instructions.filter fun i => i.opcode = .push).map (·.dest) ∧
    (b.locals.map Prod.snd).Nodup ∧
    (∀ i ∈ b.instructions, ∀ op, i.opcode = .arithmetic op →
      ∃ t, i.dest = .register t .word ∧ i.src0.temp? ≠ some t ∧ i.src1.temp? ≠ some t) ∧
    b.instructions <+: c.instructions ∧ b.locals <+: c.locals ∧
    (b.temps ≤ 4294967296 → ∀ t ∈ b.instructions.filterMap (·.dest.temp?),
      (UInt32.ofNat t.index).toNat = t.index) := by
  obtain ⟨-, h⟩ := assigned_empty.runAll hb
  obtain ⟨hgrows, h'⟩ := h.runAll hc
  refine ⟨h.code.targets, ?_, h.code.slot_iff, h.names, ?_, h.slots, h.nodup_slots, ?_, hgrows.code,
    h.prefix_locals h' hgrows, ?_⟩
  · intro before i after t ty hcode hread
    exact h.code.sources before i after hcode _ hread t ty rfl
  · rw [h.names]
    exact nodup_eraseDups _
  · intro i hi op hop
    have htyped := h.code.typed i hi
    rw [hop] at htyped
    obtain ⟨t, hd⟩ := htyped.of_arithmetic
    have hread := h.code.dest_not_read hi (t := t) (by rw [hd]; rfl)
    exact ⟨t, hd, hread _ (by simp), hread _ (by simp)⟩
  · intro hfew t ht
    rw [h.code.targets] at ht
    obtain ⟨n, hn, rfl⟩ := List.mem_map.mp ht
    exact UInt32.toNat_ofNat_of_lt (Nat.lt_of_lt_of_le (List.mem_range.mp hn) hfew)

/-- The trees of `y = { }; { z; y * x }` and of `(w = 1) + y`. -/
def scattered : Forest :=
  ⟨#[(.block [⟨1⟩, ⟨4⟩], .zero), (.binary ⟨2⟩ .assign ⟨3⟩, .zero), (.name ⟨1⟩, .zero),
    (.block [], .zero), (.block [⟨5⟩, ⟨6⟩], .zero), (.name ⟨2⟩, .zero),
    (.binary ⟨2⟩ (.arithmetic .mul) ⟨7⟩, .zero), (.name ⟨0⟩, .zero),
    (.binary ⟨9⟩ (.arithmetic .add) ⟨2⟩, .zero), (.binary ⟨10⟩ .assign ⟨11⟩, .zero),
    (.name ⟨3⟩, .zero), (.literal (.integer 1), .zero)]⟩

/-- A name that is given a value first, an empty block, a block in a block, and then a tree that meets one
more name. -/
theorem calls_assign_once_scattered :
    ∃ b c, runAll [.bind ⟨0⟩ 3, .build scattered ⟨0⟩] empty = .ok () b ∧
      runAll [.build scattered ⟨8⟩] b = .ok () c ∧
      b.instructions.filterMap (·.dest.temp?) = (List.range b.temps).map Temp.mk ∧
      b.locals.map Prod.fst = [⟨0⟩, ⟨1⟩, ⟨2⟩] ∧ b.instructions <+: c.instructions ∧
      b.locals <+: c.locals := by
  have hreturns : (do
      runAll [.bind ⟨0⟩ 3, .build scattered ⟨0⟩]
      runAll [.build scattered ⟨8⟩]).run' empty = some () := by
    decide +kernel
  have hnames : (List.flatMap Call.names [.bind ⟨0⟩ 3, .build scattered ⟨0⟩]).eraseDups =
      [⟨0⟩, ⟨1⟩, ⟨2⟩] := by
    decide +kernel
  obtain ⟨c, hreturns⟩ := exists_of_run' hreturns
  obtain ⟨⟨⟩, b, hb, hc⟩ := bind_eq_ok.mp hreturns
  obtain ⟨htargets, -, -, hkeys, -, -, -, -, hcode, hlocals, -⟩ := calls_assign_once hb hc
  exact ⟨b, c, hb, hc, htargets, hkeys.trans hnames, hcode, hlocals⟩

end Builder

end Bytecode

end ArithJit
