import ArithJit.Proofs.AllocatedCode
import ArithJit.Proofs.LoweringMeaning
import ArithJit.Session

/-!
# Proofs: compiling whole programs

A program is a list of expressions, with initial values for some names. Its bytecode stores the initial
values, computes the expressions one after the other and returns the last result. Evaluating a program
that succeeds gives the value that its bytecode returns, from any contents of temporaries and slots.
-/

namespace ArithJit

open Assoc (find?)
open Bytecode (Builder)

/-! ## Programs in a forest -/

/-- The node `root` is a block of expressions. -/
def Forest.HoldsAll (f : Forest) (root : NodeId) (es : List Expr) : Prop :=
  ∃ children, f.get? root = some (.block children) ∧ List.Forall₂ f.Holds children es

/-- The value of the last of some expressions. -/
def Expr.evaluateAll (names : SymbolTable) (es : List Expr) (v : Value) : Evaluate Value :=
  es.foldlM (fun _ e => e.evaluate names) v

/-- The result of the last of some expressions, and the code for all of them. -/
def Expr.lowerAll : List Expr → Bytecode.Operand → Builder → Bytecode.Operand × Builder
  | [], o, b => (o, b)
  | e :: es, _, b => lowerAll es (e.lower b).1 (e.lower b).2

/-- Stores initial values. -/
def Bytecode.Builder.bindAll : List (Symbol × Int32) → Builder → Builder
  | [], b => b
  | (x, n) :: rest, b => bindAll rest ((b.slot x).2.write (b.slot x).1 (.immediate n .word))

section Forest

variable {f : Forest} {root : NodeId} {es : List Expr} {names : SymbolTable}

theorem foldlM_evaluateWithin {children : List NodeId} {levels : Nat}
    (h : List.Forall₂ f.Holds children es) (hl : f.size ≤ levels) (v : Value) :
    children.foldlM (fun _ child => f.evaluateWithin names levels child) v =
      Expr.evaluateAll names es v := by
  induction h generalizing v with
  | nil => rfl
  | cons hd _ ih =>
    rw [Expr.evaluateAll, List.foldlM_cons, List.foldlM_cons,
      hd.evaluateWithin (Nat.le_trans hd.depth_le_size hl)]
    congr 1
    funext w
    exact ih w

/-- Evaluating a program is evaluating its expressions. -/
theorem Forest.HoldsAll.evaluate (h : f.HoldsAll root es) :
    f.evaluate names root = Expr.evaluateAll names es .void := by
  obtain ⟨children, hroot, hall⟩ := h
  have hlevels : f.levels = (f.size + Forest.revisitLimit) + 1 := by
    rw [Forest.levels]
    omega
  rw [Forest.evaluate, hlevels, Forest.evaluateWithin, hroot]
  exact foldlM_evaluateWithin hall (Nat.le_add_right _ _) .void

theorem foldlM_nodeWithin {children : List NodeId} {levels : Nat} {b : Builder}
    (h : List.Forall₂ f.Holds children es) (hl : f.size ≤ levels) (hb : b.Valid) (o : Bytecode.Operand) :
    children.foldlM (fun _ child => Builder.nodeWithin f levels child) o b =
      .ok (Expr.lowerAll es o b).1 (Expr.lowerAll es o b).2 := by
  induction h generalizing o b with
  | nil => rfl
  | cons hd _ ih =>
    have hnode := hd.nodeWithin (Nat.le_trans hd.depth_le_size hl) hb
    rw [List.foldlM_cons, bind_eq_ok]
    exact ⟨_, _, hnode, ih (hb.lower _).1 _⟩

theorem Forest.HoldsAll.nodeWithin {levels : Nat} {b : Builder} (h : f.HoldsAll root es)
    (hl : f.size ≤ levels) (hb : b.Valid) :
    Builder.nodeWithin f (levels + 1) root b = if es = [] then .ok .none b else
      .ok (Expr.lowerAll es .none b).1
        ((Expr.lowerAll es .none b).2.append ⟨.ret, .none, (Expr.lowerAll es .none b).1, .none⟩) := by
  obtain ⟨children, hroot, hall⟩ := h
  have hfold := foldlM_nodeWithin hall hl hb .none
  cases hall with
  | nil =>
    rw [Builder.nodeWithin, hroot]
    rfl
  | cons hd tl =>
    rw [if_neg (List.cons_ne_nil _ _)]
    exact Builder.nodeWithin_block hroot (List.cons_ne_nil _ _) hfold

/-- Building a program is lowering its expressions and returning the last result. -/
theorem Forest.HoldsAll.node {b : Builder} (h : f.HoldsAll root es) (hb : b.Valid) :
    Builder.node f root b = if es = [] then .ok .none b else
      .ok (Expr.lowerAll es .none b).1
        ((Expr.lowerAll es .none b).2.append ⟨.ret, .none, (Expr.lowerAll es .none b).1, .none⟩) := by
  have hlevels : f.levels = (f.size + Forest.revisitLimit) + 1 := by
    rw [Forest.levels]
    omega
  -- one level is the block; those that are left suffice for any tree of the forest
  rw [Builder.node, hlevels]
  exact h.nodeWithin (Nat.le_add_right _ _) hb

end Forest

/-! ## Building programs -/

section Build

variable {b : Builder} {es : List Expr} {o : Bytecode.Operand} {P : Builder → Prop}

theorem Bytecode.Builder.Preserved.bindAll (hP : Builder.Preserved P) (bindings : List (Symbol × Int32))
    (hb : b.Valid) (h : P b) : (Builder.bindAll bindings b).Valid ∧ P (Builder.bindAll bindings b) := by
  induction bindings generalizing b with
  | nil => exact ⟨hb, h⟩
  | cons binding rest ih =>
    obtain ⟨x, n⟩ := binding
    obtain ⟨hv, t, ht, hlocal⟩ := hb.slot x
    rw [Builder.bindAll, ht]
    exact ih (hv.append rfl) (hP.write hv (.slot hlocal) ⟨.immediate n, rfl⟩ (hP.slot x hb h))

theorem Bytecode.Builder.Preserved.lowerAll (hP : Builder.Preserved P) (es : List Expr)
    (o : Bytecode.Operand) (hb : b.Valid) (h : P b) :
    (Expr.lowerAll es o b).2.Valid ∧ P (Expr.lowerAll es o b).2 ∧
      (es ≠ [] ∨ b.Known o → (Expr.lowerAll es o b).2.Known (Expr.lowerAll es o b).1) := by
  induction es generalizing o b with
  | nil => exact ⟨hb, h, fun ho => ho.resolve_left (absurd rfl)⟩
  | cons e es ih =>
    obtain ⟨hv, hk, h'⟩ := hP.lower e hb h
    obtain ⟨hv', h'', hk'⟩ := ih (e.lower b).1 hv h'
    exact ⟨hv', h'', fun _ => hk' (Or.inr hk)⟩

theorem Bytecode.Builder.valid_empty : Builder.empty.Valid where
  slots x o h := by simp [Builder.empty] at h
  injective x y o h := by simp [Builder.empty] at h
  defined i hi := by simp [Builder.empty, Builder.instructions] at hi

end Build

/-! ## What programs compute -/

section Meaning

open Bytecode (State)

variable {b : Builder} {s s₀ : State} {env env' : Environment} {names : SymbolTable} {es : List Expr}
  {o : Bytecode.Operand} {v w : Value}

/-- Initial values that are integers, as values. -/
def asValues (bindings : List (Symbol × Int32)) : List (Symbol × Value) :=
  bindings.map fun b => (b.1, .integer b.2)

/-- After the initial values are stored, the slots hold them. -/
theorem Bytecode.Builder.Leads.bindAll {scope : Scope} (bindings : List (Symbol × Int32))
    (h : b.Leads s₀ s) (hb : b.Valid) (ha : b.Agrees { current := scope } s) :
    ∃ s', (Builder.bindAll bindings b).Leads s₀ s' ∧ (Builder.bindAll bindings b).Agrees
      { current := (asValues bindings).foldl (fun scope b => scope.declare b.1 b.2) scope } s' := by
  induction bindings generalizing b s scope with
  | nil => exact ⟨s, h, ha⟩
  | cons binding rest ih =>
    obtain ⟨x, n⟩ := binding
    obtain ⟨hv, t, ht, hlocal⟩ := hb.slot x
    have hfind : ∀ y, ({ current := scope.declare x (.integer n) } : Environment).find? y =
        if y = x then some (.integer n) else ({ current := scope } : Environment).find? y := by
      intro y
      rw [Environment.find?_current, Environment.find?_current, Scope.find?_declare]
    have hagrees := (ha.grows (b.grows_slot x) rfl).setSlot hv hlocal hfind
    have hstep : s.step? ⟨.store, .none, (b.slot x).1, .immediate n .word⟩ = some (s.setSlot t n) := by
      rw [ht]
      rfl
    exact ih ((h.slot x).append hstep) (hv.append rfl) hagrees

theorem Bytecode.Builder.leads_bindAll (bindings : List (Symbol × Int32)) (s₀ : State) :
    ∃ s, (Builder.bindAll bindings .empty).Leads s₀ s ∧
      (Builder.bindAll bindings .empty).Agrees (.ofBindings (asValues bindings)) s := by
  have hstart : Builder.empty.Leads s₀ s₀ := rfl
  have hagrees : Builder.empty.Agrees { current := .empty } s₀ := by
    intro x m hx
    simp [Environment.find?_current, Scope.find?, Scope.empty, Assoc.find?] at hx
  exact hstart.bindAll bindings Builder.valid_empty hagrees

/-- The code of some expressions computes the value of the last one. -/
theorem Bytecode.Builder.Leads.lowerAll (h : b.Leads s₀ s) (hb : b.Valid) (ha : b.Agrees env s)
    (hw : es ≠ [] ∨ ∃ n, w = .integer n ∧ s.value? o = some n)
    (he : Expr.evaluateAll names es w env = .ok v env') :
    ∃ s' n, (Expr.lowerAll es o b).2.Leads s₀ s' ∧ v = .integer n ∧
      s'.value? (Expr.lowerAll es o b).1 = some n := by
  induction es generalizing b s env o w with
  | nil =>
    obtain ⟨rfl, -⟩ : w = v ∧ env = env' := by
      simpa [Expr.evaluateAll, pure, EStateM.pure] using he
    obtain ⟨n, rfl, hn⟩ := hw.resolve_left (absurd rfl)
    exact ⟨s, n, h, rfl, hn⟩
  | cons e es ih =>
    rw [Expr.evaluateAll, List.foldlM_cons, bind_eq_ok] at he
    obtain ⟨u, env₁, hu, he⟩ := he
    obtain ⟨s₁, n, h₁, rfl, hn₁, ha₁, -⟩ := h.lower hb ha hu
    exact ih h₁ (hb.lower e).1 ha₁ (Or.inr ⟨n, rfl, hn₁⟩) he

end Meaning

end ArithJit
