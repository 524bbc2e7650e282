import ArithJit.Bytecode.Builder
import ArithJit.Proofs.Grammar

/-!
# Proofs: forests that end

In a forest where each child has a smaller number than its parent, a visit goes down to smaller and smaller
numbers. So it ends before it has run out of levels, and never meets a number that no node has. What is added to
the forest gets larger numbers, where no visit of an older node comes: evaluating and building a node do not change
when the forest grows (`Forest.Grounded.evaluateWithin_eq`, `Forest.Grounded.nodeWithin_eq`).
-/

namespace ArithJit

/-- Steps that are the same for each child make the same of all of them. -/
theorem foldlM_congr {ε σ α γ : Type} {f g : γ → EStateM ε σ α} {list : List γ}
    (h : ∀ c ∈ list, f c = g c) (a : α) :
    list.foldlM (fun _ c => f c) a = list.foldlM (fun _ c => g c) a := by
  induction list generalizing a with
  | nil => rfl
  | cons c list ih =>
    rw [List.foldlM_cons, List.foldlM_cons, h c List.mem_cons_self]
    exact bind_congr fun b => ih (fun d hd => h d (List.mem_cons_of_mem c hd)) b

/-! ## Steps that do not fault -/

section Faultless

variable {σ α β γ : Type}

/-- The step may fail with an error of the program only. -/
def Faultless (x : EStateM Failure σ α) : Prop :=
  ∀ s f t, x s ≠ .error (.fault f) t

theorem Faultless.bind {x : EStateM Failure σ α} {f : α → EStateM Failure σ β} (hx : Faultless x)
    (hf : ∀ a, Faultless (f a)) : Faultless (x >>= f) := by
  intro s e t h
  change EStateM.bind x f s = _ at h
  rw [EStateM.bind] at h
  cases hrun : x s with
  | ok a u =>
    rw [hrun] at h
    exact hf a u e t h
  | error e' u =>
    rw [hrun] at h
    cases h
    exact hx s e t hrun

theorem faultless_pure (a : α) : Faultless (pure a : EStateM Failure σ α) := by
  intro s f t h
  cases h

theorem faultless_error (e : Error) : Faultless (throw (.error e) : EStateM Failure σ α) := by
  intro s f t h
  cases h

theorem faultless_get : Faultless (get : EStateM Failure σ σ) := by
  intro s f t h
  cases h

theorem faultless_modify (f : σ → σ) : Faultless (modify f : EStateM Failure σ PUnit) := by
  intro s e t h
  cases h

theorem faultless_foldlM {f : γ → EStateM Failure σ α} {list : List γ} (h : ∀ c ∈ list, Faultless (f c))
    (a : α) :
    Faultless (list.foldlM (fun _ c => f c) a) := by
  induction list generalizing a with
  | nil => exact faultless_pure a
  | cons c list ih =>
    rw [List.foldlM_cons]
    exact (h c List.mem_cons_self).bind fun b => ih (fun d hd => h d (List.mem_cons_of_mem c hd)) b

end Faultless

namespace Forest

open Bytecode (Builder)

variable {f g : Forest} {id : NodeId} {names names' : SymbolTable} {levels more : Nat}

/-- Each child has a smaller number than its parent. -/
def Grounded (f : Forest) : Prop :=
  ∀ id node, f.get? id = some node → ∀ c ∈ node.children, c.index < id.index

theorem lt_levels (h : id.index < f.size) : id.index < f.levels := by
  rw [levels]
  omega

theorem Keeps.size_le (h : f.Keeps g) : f.size ≤ g.size := by
  rw [size, size, ← Array.length_toList, ← Array.length_toList]
  exact List.IsPrefix.length_le h

theorem exists_get? (h : id.index < f.size) : ∃ node, f.get? id = some node := by
  have hget : f.nodes[id.index]? = some f.nodes[id.index] := Array.getElem?_eq_getElem h
  exact ⟨f.nodes[id.index].1, by rw [get?, hget]; rfl⟩

theorem Keeps.target_eq (h : f.Keeps g) (hid : id.index < f.size) : g.target id = f.target id := by
  obtain ⟨node, hnode⟩ := exists_get? hid
  rw [target, target, h.extends _ _ hnode, hnode, h.span_of_get? hnode]

/-- The value of a node stays when the forest grows. -/
theorem Grounded.evaluateWithin_eq (hf : f.Grounded) (hfg : f.Keeps g)
    (hnames : ∀ id x, f.get? id = some (.name x) → names'.nameOf x = names.nameOf x) (hid : id.index < f.size)
    (hl : id.index < levels) (hm : id.index < more) :
    g.evaluateWithin names' more id = f.evaluateWithin names levels id := by
  induction levels generalizing more id with
  | zero => omega
  | succ levels ih =>
    obtain ⟨more, rfl⟩ := Nat.exists_eq_add_one.mpr (Nat.zero_lt_of_lt hm)
    obtain ⟨node, hnode⟩ := exists_get? hid
    have hbelow : ∀ c ∈ node.children, g.evaluateWithin names' more c = f.evaluateWithin names levels c := by
      intro c hc
      have hlt := hf id node hnode c hc
      exact ih (by omega) (by omega) (by omega)
    rw [evaluateWithin, evaluateWithin, hfg.extends _ _ hnode, hnode]
    cases node with
    | literal value => rfl
    | name x => simp only [hnames id x hnode]
    | binary left op right =>
      have hleft : left.index < f.size := Nat.lt_trans (hf id _ hnode left (by simp [Node.children])) hid
      cases op with
      | assign => simp only [hfg.target_eq hleft, hbelow right (by simp [Node.children])]
      | arithmetic op =>
        simp only [hbelow left (by simp [Node.children]), hbelow right (by simp [Node.children])]
    | block children => exact foldlM_congr hbelow .void

/-- A visit always finds a node, within its levels. -/
theorem Grounded.faultless_evaluateWithin (hf : f.Grounded) (names : SymbolTable) (hid : id.index < f.size)
    (hl : id.index < levels) : Faultless (f.evaluateWithin names levels id) := by
  induction levels generalizing id with
  | zero => omega
  | succ levels ih =>
    obtain ⟨node, hnode⟩ := exists_get? hid
    have hbelow : ∀ c ∈ node.children, c.index < f.size ∧ Faultless (f.evaluateWithin names levels c) := by
      intro c hc
      have hlt := hf id node hnode c hc
      exact ⟨by omega, ih (by omega) (by omega)⟩
    rw [evaluateWithin, hnode]
    cases node with
    | literal value => exact faultless_pure value
    | name x =>
      refine faultless_get.bind fun env => ?_
      cases env.find? x with
      | some value => exact faultless_pure value
      | none => exact faultless_error _
    | binary left op right =>
      obtain ⟨hleft, hfirst⟩ := hbelow left (by simp [Node.children])
      obtain ⟨-, hsecond⟩ := hbelow right (by simp [Node.children])
      cases op with
      | assign =>
        obtain ⟨target, htarget⟩ := exists_get? hleft
        simp only [Forest.target, htarget]
        cases target with
        | name x => exact hsecond.bind fun value => (faultless_modify _).bind fun _ => faultless_pure value
        | literal | binary | block => exact faultless_error _
      | arithmetic op =>
        refine hfirst.bind fun a => hsecond.bind fun b => ?_
        cases op.onValues a b with
        | ok value => exact faultless_pure value
        | error e => exact faultless_error e
    | block children => exact faultless_foldlM (fun c hc => (hbelow c hc).2) .void

/-- The code of a node stays when the forest grows. -/
theorem Grounded.nodeWithin_eq (hf : f.Grounded) (hfg : f.Keeps g) (hid : id.index < f.size)
    (hl : id.index < levels) (hm : id.index < more) :
    Builder.nodeWithin g more id = Builder.nodeWithin f levels id := by
  induction levels generalizing more id with
  | zero => omega
  | succ levels ih =>
    obtain ⟨more, rfl⟩ := Nat.exists_eq_add_one.mpr (Nat.zero_lt_of_lt hm)
    obtain ⟨node, hnode⟩ := exists_get? hid
    have hbelow : ∀ c ∈ node.children, Builder.nodeWithin g more c = Builder.nodeWithin f levels c := by
      intro c hc
      have hlt := hf id node hnode c hc
      exact ih (by omega) (by omega) (by omega)
    rw [Builder.nodeWithin, Builder.nodeWithin, hfg.extends _ _ hnode, hnode]
    cases node with
    | literal value => cases value <;> rfl
    | name x => rfl
    | binary left op right =>
      have hleft := hbelow left (by simp [Node.children])
      have hright := hbelow right (by simp [Node.children])
      cases op with
      | assign => simp only [hleft, hright]
      | arithmetic op => simp only [hleft, hright]
    | block children =>
      cases children with
      | nil => rfl
      | cons child rest =>
        have hall : (child :: rest).foldlM (fun _ c => Builder.nodeWithin g more c) Bytecode.Operand.none =
            (child :: rest).foldlM (fun _ c => Builder.nodeWithin f levels c) Bytecode.Operand.none :=
          foldlM_congr hbelow _
        simp only [hall]

end Forest

end ArithJit
