import ArithJit.Proofs.Evaluation
import ArithJit.Proofs.Outcomes
import Mathlib.Logic.Relation

/-!
# Proofs: scopes do not shadow each other

An environment is used by opening and closing scopes and by evaluating nodes in it, in any order. The only
thing that an evaluation does to the environment is to assign, also if it fails (`assigns_evaluateWithin`),
and an assignment changes one name in one scope (`assign_spec`). All else follows from these two facts. The
assignments that an environment remembers are those that evaluations have completed (`logs_evaluateWithin`).

No name is ever bound in two scopes. So a name that is bound outside of a scope cannot be bound in it, and
what is assigned to it inside of the scope is what it has after the scope is closed.
-/

namespace ArithJit

namespace Environment

variable {e e' e'' : Environment} {x y : Symbol} {v w : Value} {k n : Nat}

/-! ## Values in one scope -/

/-- The value of a name in one of some scopes, which are counted from the outermost one. -/
def valueIn (scopes : List Scope) (k : Nat) (x : Symbol) : Option Value :=
  scopes.reverse[k]?.bind (·.find? x)

/-- The number of scopes. -/
def depth (e : Environment) : Nat :=
  e.scopes.length

/-- The value of a name in a scope, counted from the outermost one. -/
def value? (e : Environment) (k : Nat) (x : Symbol) : Option Value :=
  valueIn e.scopes k x

theorem valueIn_cons (scope : Scope) (outer : List Scope) (k : Nat) (x : Symbol) :
    valueIn (scope :: outer) k x = if k = outer.length then scope.find? x else valueIn outer k x := by
  unfold valueIn
  rw [List.reverse_cons]
  by_cases hk : k = outer.length
  · rw [if_pos hk, hk, ← List.length_reverse, List.getElem?_concat_length]
    rfl
  · rw [if_neg hk]
    by_cases hlt : k < outer.length
    · rw [List.getElem?_append_left (by simpa using hlt)]
    · rw [List.getElem?_eq_none (by simp; omega), List.getElem?_eq_none (by simp; omega)]

theorem valueIn_of_le {scopes : List Scope} (h : scopes.length ≤ k) (x : Symbol) :
    valueIn scopes k x = none := by
  unfold valueIn
  rw [List.getElem?_eq_none (by simpa using h)]
  rfl

theorem depth_eq (e : Environment) : e.depth = e.outer.length + 1 :=
  rfl

theorem lt_depth (h : e.value? k x = some v) : k < e.depth := by
  by_contra hle
  rw [value?, valueIn_of_le (Nat.not_lt.mp hle)] at h
  cases h

/-! ## What an assignment does -/

theorem valueIn_declare (scope : Scope) (outer : List Scope) (k : Nat) (y : Symbol) :
    valueIn (scope.declare x v :: outer) k y =
      if k = outer.length ∧ y = x then some v else valueIn (scope :: outer) k y := by
  rw [valueIn_cons, valueIn_cons, Scope.find?_declare]
  by_cases hk : k = outer.length <;> by_cases hy : y = x <;> simp [hk, hy]

/-- A change in one of some scopes is a change in one of more scopes. -/
theorem valueIn_cons_of_update {outer outer' : List Scope} {home : Nat} (scope : Scope)
    (hlen : outer'.length = outer.length) (hsome : (valueIn outer home x).isSome)
    (hvalue : ∀ k y, valueIn outer' k y = if k = home ∧ y = x then some v else valueIn outer k y) :
    (valueIn (scope :: outer) home x).isSome ∧ ∀ k y, valueIn (scope :: outer') k y =
      if k = home ∧ y = x then some v else valueIn (scope :: outer) k y := by
  have hne : home ≠ outer.length := by
    rintro rfl
    rw [valueIn_of_le (Nat.le_refl _)] at hsome
    cases hsome
  constructor
  · rw [valueIn_cons, if_neg hne]
    exact hsome
  · intro k y
    rw [valueIn_cons, valueIn_cons, hlen, hvalue]
    by_cases hk : k = outer.length
    · have hhome : ¬ (k = home ∧ y = x) := fun h => hne (h.1.symm.trans hk)
      rw [if_pos hk, if_pos hk, if_neg hhome]
    · rw [if_neg hk, if_neg hk]

theorem assignBound?_eq_some {scopes scopes' : List Scope} {home : Nat}
    (h : assignBound? x v scopes = some (home, scopes')) :
    scopes'.length = scopes.length ∧ (valueIn scopes home x).isSome ∧
    ∀ k y, valueIn scopes' k y = if k = home ∧ y = x then some v else valueIn scopes k y := by
  induction scopes generalizing scopes' home with
  | nil => simp [assignBound?] at h
  | cons scope outer ih =>
    rw [assignBound?] at h
    split at h
    · next hscope =>
      obtain ⟨rfl, rfl⟩ : outer.length = home ∧ scope.declare x v :: outer = scopes' := by simpa using h
      refine ⟨rfl, ?_, valueIn_declare scope outer⟩
      rw [valueIn_cons, if_pos rfl]
      exact hscope
    · simp only [Option.map_eq_some_iff, Prod.mk.injEq] at h
      obtain ⟨⟨home', outer'⟩, hbound, rfl, rfl⟩ := h
      obtain ⟨hlen, hsome, hvalue⟩ := ih hbound
      exact ⟨by simp [hlen], valueIn_cons_of_update scope hlen hsome hvalue⟩

theorem assignBound?_eq_none {scopes : List Scope} (h : assignBound? x v scopes = none) (k : Nat) :
    valueIn scopes k x = none := by
  induction scopes with
  | nil => rfl
  | cons scope outer ih =>
    rw [assignBound?] at h
    split at h
    · cases h
    · next hscope =>
      rw [valueIn_cons, ih (Option.map_eq_none_iff.mp h), Scope.find?_of_not_contains (by simpa using hscope)]
      exact ite_self _

/-- An assignment goes to one scope, and to nothing but its name there: to a scope that binds the name, and to
the innermost scope if there is none. -/
theorem assign_spec (e : Environment) (x : Symbol) (v : Value) : ∃ home,
    (e.assign x v).depth = e.depth ∧
    (e.assign x v).assignments.toList = e.assignments.toList ++ [⟨x, v, home⟩] ∧
    (∀ k y, (e.assign x v).value? k y = if k = home ∧ y = x then some v else e.value? k y) ∧
    ((e.value? home x).isSome ∨ home + 1 = e.depth ∧ ∀ k, e.value? k x = none) := by
  rw [assign]
  split
  · next hcurrent =>
    refine ⟨e.outer.length, rfl, by simp, valueIn_declare e.current e.outer, Or.inl ?_⟩
    rw [value?, scopes, valueIn_cons, if_pos rfl]
    exact hcurrent
  · next hcurrent =>
    split
    · next home outer hbound =>
      obtain ⟨hlen, hsome, hvalue⟩ := assignBound?_eq_some hbound
      obtain ⟨hsome', hvalue'⟩ := valueIn_cons_of_update e.current hlen hsome hvalue
      exact ⟨home, by simp [depth, scopes, hlen], by simp, hvalue', Or.inl hsome'⟩
    · next hbound =>
      refine ⟨e.outer.length, rfl, by simp, valueIn_declare e.current e.outer, Or.inr ⟨rfl, ?_⟩⟩
      intro k
      rw [value?, scopes, valueIn_cons, assignBound?_eq_none hbound,
        Scope.find?_of_not_contains (by simpa using hcurrent)]
      exact ite_self _

/-! ## What opening and closing a scope does -/

theorem value?_enter (e : Environment) (k : Nat) (x : Symbol) : e.enter.value? k x = e.value? k x := by
  unfold value?
  show valueIn (.empty :: e.scopes) k x = valueIn e.scopes k x
  rw [valueIn_cons]
  by_cases hk : k = e.scopes.length
  · rw [if_pos hk, valueIn_of_le (Nat.le_of_eq hk.symm)]
    rfl
  · rw [if_neg hk]

theorem exit_of_single (h : e.depth = 1) : e.exit = e := by
  have houter : e.outer = [] := List.eq_nil_of_length_eq_zero (Nat.succ.inj h)
  unfold exit
  rw [houter]

/-- With the innermost of several scopes, the values in it are gone. -/
theorem exit_of_nested (h : 1 < e.depth) :
    e.exit.depth + 1 = e.depth ∧ e.exit.assignments = e.assignments ∧
    ∀ k x, e.exit.value? k x = if k = e.exit.depth then none else e.value? k x := by
  unfold exit
  cases houter : e.outer with
  | nil =>
    rw [depth_eq, houter] at h
    exact absurd h (Nat.lt_irrefl 1)
  | cons scope outer =>
    have hscopes : e.scopes = e.current :: scope :: outer := by rw [scopes, houter]
    refine ⟨by simp [depth, scopes, houter], rfl, ?_⟩
    intro k x
    show valueIn (scope :: outer) k x = if k = (scope :: outer).length then none else valueIn e.scopes k x
    rw [hscopes, valueIn_cons e.current]
    by_cases hk : k = (scope :: outer).length
    · rw [if_pos hk, valueIn_of_le (Nat.le_of_eq hk.symm)]
    · rw [if_neg hk, if_neg hk]

/-! ## What an evaluation does -/

/-- Assignments to some of the names lead from one environment to the other. -/
def Assigns (names : Symbol → Prop) : Environment → Environment → Prop :=
  Relation.ReflTransGen fun e e' => ∃ x v, names x ∧ e' = e.assign x v

end Environment

namespace Forest

variable {f : Forest} {names : SymbolTable} {levels : Nat} {id : NodeId}

/-- The name is assigned to somewhere in the tree of a node. -/
inductive IsTarget (f : Forest) (x : Symbol) : NodeId → Prop where
  | here {id left right : NodeId} (node : f.get? id = some (.binary left .assign right))
      (target : f.get? left = some (.name x)) : IsTarget f x id
  | under {id child : NodeId} {parent : Node} (node : f.get? id = some parent)
      (mem : child ∈ parent.children) (inside : IsTarget f x child) : IsTarget f x id

theorem target_eq_ok {x : Symbol} (h : f.target id = .ok x) : f.get? id = some (.name x) := by
  unfold target at h
  split at h
  · next y hnode =>
    cases h
    exact hnode
  · cases h
  · cases h

/-- The environment is changed by assignments to targets in the tree, and by nothing else. -/
theorem assigns_evaluateWithin {targets : Symbol → Prop} (h : ∀ x, f.IsTarget x id → targets x) :
    Leaves (Environment.Assigns targets) (f.evaluateWithin names levels id) := by
  have htrans : ∀ e₁ e₂ e₃, Environment.Assigns targets e₁ e₂ → Environment.Assigns targets e₂ e₃ →
      Environment.Assigns targets e₁ e₃ := fun _ _ _ => Relation.ReflTransGen.trans
  induction levels generalizing id with
  | zero => exact fun e => .refl
  | succ levels ih =>
    unfold evaluateWithin
    rcases hnode : f.get? id with _ | value | x | ⟨left, _ | op, right⟩ | children
    · exact fun e => .refl
    · exact fun e => .refl
    · intro e
      simp only [bind, EStateM.bind, get_apply]
      cases e.find? x <;> exact .refl
    · dsimp only
      cases htarget : f.target left with
      | error failure => exact fun e => .refl
      | ok x =>
        have hx : targets x := h x (.here hnode (target_eq_ok htarget))
        refine Leaves.bind htrans (ih fun y hy => h y (.under hnode (by simp [Node.children]) hy)) ?_
        intro v e
        exact .single ⟨x, v, hx, rfl⟩
    · refine Leaves.bind htrans (ih fun y hy => h y (.under hnode (by simp [Node.children]) hy)) fun a => ?_
      refine Leaves.bind htrans (ih fun y hy => h y (.under hnode (by simp [Node.children]) hy)) fun b => ?_
      cases op.onValues a b <;> exact fun e => .refl
    · have hchildren : ∀ c ∈ children, Leaves (Environment.Assigns targets) (f.evaluateWithin names levels c) :=
        fun c hc => ih fun y hy => h y (.under hnode hc hy)
      exact Leaves.foldlM htrans (fun e => .refl) hchildren .void

/-! ## Assignments that an evaluation completes -/

/-- What comes of a step, and then of the next one if the step succeeds. -/
def chain {α β : Type} (first : Environment → List β) (step : Evaluate α) (next : α → Environment → List β)
    (e : Environment) : List β :=
  first e ++
    match step e with
    | .ok a e' => next a e'
    | .error _ _ => []

/-- The assignments that the evaluation of a node completes, in their order, each with its value. An assignment
is completed when its target is a name and its value was found. -/
def completedWithin (f : Forest) (names : SymbolTable) : Nat → NodeId → Environment → List (NodeId × Value)
  | 0, _ => fun _ => []
  | levels + 1, id =>
    match f.get? id with
    | some (.binary left .assign right) =>
      match f.target left with
      | .ok _ =>
        chain (f.completedWithin names levels right) (f.evaluateWithin names levels right) fun v _ => [(id, v)]
      | .error _ => fun _ => []
    | some (.binary left (.arithmetic _) right) =>
      chain (f.completedWithin names levels left) (f.evaluateWithin names levels left) fun _ =>
        f.completedWithin names levels right
    | some (.block children) =>
      children.foldr (fun child rest =>
        chain (f.completedWithin names levels child) (f.evaluateWithin names levels child) fun _ => rest)
        fun _ => []
    | _ => fun _ => []

/-- The assignments that the evaluation of a node completes. -/
def completed (f : Forest) (names : SymbolTable) (id : NodeId) : Environment → List (NodeId × Value) :=
  f.completedWithin names f.levels id

/-- What an environment remembers of an assignment that was completed: its target and its value. -/
structure Remembers (f : Forest) (a : Assignment) (done : NodeId × Value) : Prop where
  target : ∃ left right, f.get? done.1 = some (.binary left .assign right) ∧ f.get? left = some (.name a.symbol)
  value : a.value = done.2

/-- The step appends to the memory of the environment what was completed, also if it fails. -/
def Logs {α : Type} (f : Forest) (done : Environment → List (NodeId × Value)) (step : Evaluate α) : Prop :=
  ∀ e, ∃ made, (finalState (step e)).assignments.toList = e.assignments.toList ++ made ∧
    List.Forall₂ f.Remembers made (done e)

section Logs

variable {α β : Type} {step : Evaluate α} {next : α → Evaluate β}
  {first : Environment → List (NodeId × Value)} {rest : α → Environment → List (NodeId × Value)}

theorem Logs.bind (hx : f.Logs first step) (hk : ∀ a, f.Logs (rest a) (next a)) :
    f.Logs (chain first step rest) (step >>= next) := by
  intro e
  obtain ⟨made, hmade, hfirst⟩ := hx e
  change ∃ made, (finalState (EStateM.bind step next e)).assignments.toList = _ ∧ _
  unfold EStateM.bind chain
  cases h : step e with
  | ok a e' =>
    rw [h] at hmade
    obtain ⟨more, hmore, hrest⟩ := hk a e'
    refine ⟨made ++ more, ?_, List.rel_append hfirst hrest⟩
    rw [← List.append_assoc, ← hmade]
    exact hmore
  | error failure e' =>
    rw [h] at hmade
    refine ⟨made, hmade, ?_⟩
    rw [List.append_nil]
    exact hfirst

theorem logs_nil (h : ∀ e, (finalState (step e)).assignments = e.assignments) : f.Logs (fun _ => []) step :=
  fun e => ⟨[], by rw [h, List.append_nil], .nil⟩

theorem logs_onValues (op : Arithmetic) (a c : Value) :
    f.Logs (fun _ => []) (match op.onValues a c with
      | .ok v => return v
      | .error e => throw (.error e) : Evaluate Value) := by
  refine logs_nil fun e => ?_
  cases op.onValues a c <;> rfl

theorem chain_nil (first : Environment → List (NodeId × Value)) (step : Evaluate α) :
    chain first step (fun _ _ => []) = first := by
  funext e
  unfold chain
  cases step e <;> exact List.append_nil _

theorem Logs.foldlM {g : NodeId → Evaluate α} {c : NodeId → Environment → List (NodeId × Value)}
    (h : ∀ id, f.Logs (c id) (g id)) (children : List NodeId) (a : α) :
    f.Logs (children.foldr (fun id rest => chain (c id) (g id) fun _ => rest) fun _ => [])
      (children.foldlM (fun _ id => g id) a) := by
  induction children generalizing a with
  | nil => exact logs_nil fun e => rfl
  | cons id children ih =>
    rw [List.foldr_cons, List.foldlM_cons]
    exact (h id).bind ih

end Logs

/-- The environment remembers the assignments that were completed, and no others. -/
theorem logs_evaluateWithin (f : Forest) (names : SymbolTable) (levels : Nat) (id : NodeId) :
    f.Logs (f.completedWithin names levels id) (f.evaluateWithin names levels id) := by
  induction levels generalizing id with
  | zero => exact logs_nil fun e => rfl
  | succ levels ih =>
    unfold evaluateWithin completedWithin
    rcases hnode : f.get? id with _ | value | x | ⟨left, _ | op, right⟩ | children
    · exact logs_nil fun e => rfl
    · exact logs_nil fun e => rfl
    · refine logs_nil fun e => ?_
      simp only [bind, EStateM.bind, get_apply]
      cases e.find? x <;> rfl
    · dsimp only
      cases htarget : f.target left with
      | error failure => exact logs_nil fun e => rfl
      | ok x =>
        refine (ih right).bind fun v e => ?_
        obtain ⟨home, -, hmade, -⟩ := e.assign_spec x v
        exact ⟨[⟨x, v, home⟩], hmade, .cons ⟨⟨left, right, hnode, target_eq_ok htarget⟩, rfl⟩ .nil⟩
    · refine (ih left).bind fun a => ?_
      rw [← chain_nil (f.completedWithin names levels right) (f.evaluateWithin names levels right)]
      exact (ih right).bind fun c => logs_onValues op a c
    · exact Logs.foldlM ih children .void

end Forest

namespace Environment

variable {e e' e'' : Environment} {x : Symbol} {v : Value} {n : Nat} {targets : Symbol → Prop}

/-- What is kept from one environment to another one when only some names are assigned to: the number of
scopes, the names that each scope binds, to which the innermost scope may add some, and all other names. -/
structure Kept (targets : Symbol → Prop) (e e' : Environment) : Prop where
  depth : e'.depth = e.depth
  outer : ∀ k x, k + 1 < e.depth → ((e'.value? k x).isSome ↔ (e.value? k x).isSome)
  lasting : ∀ k x, (e.value? k x).isSome → (e'.value? k x).isSome
  others : ∀ k x, ¬ targets x → e'.value? k x = e.value? k x

theorem Kept.refl (e : Environment) : Kept targets e e :=
  ⟨rfl, fun _ _ _ => Iff.rfl, fun _ _ h => h, fun _ _ _ => rfl⟩

theorem Kept.trans (h : Kept targets e e') (h' : Kept targets e' e'') : Kept targets e e'' where
  depth := h'.depth.trans h.depth
  outer k x hk := (h'.outer k x (h.depth ▸ hk)).trans (h.outer k x hk)
  lasting k x hx := h'.lasting k x (h.lasting k x hx)
  others k x hx := (h'.others k x hx).trans (h.others k x hx)

theorem kept_assign (e : Environment) (hx : targets x) (v : Value) : Kept targets e (e.assign x v) := by
  obtain ⟨home, hdepth, -, hvalue, hhome⟩ := e.assign_spec x v
  refine ⟨hdepth, ?_, ?_, ?_⟩
  · intro k y hk
    rw [hvalue]
    by_cases hky : k = home ∧ y = x
    · -- the scope is not the innermost one, so it binds the name already
      obtain ⟨rfl, rfl⟩ := hky
      rcases hhome with hsome | ⟨hlast, -⟩
      · simp [hsome]
      · omega
    · rw [if_neg hky]
  · intro k y hy
    rw [hvalue]
    by_cases hky : k = home ∧ y = x
    · rw [if_pos hky]
      rfl
    · rw [if_neg hky]
      exact hy
  · intro k y hy
    rw [hvalue, if_neg]
    rintro ⟨-, rfl⟩
    exact hy hx

theorem Assigns.kept (h : Assigns targets e e') : Kept targets e e' := by
  induction h with
  | refl => exact .refl e
  | tail _ hstep ih =>
    obtain ⟨x, v, hx, rfl⟩ := hstep
    exact ih.trans (kept_assign _ hx v)

/-! ## No name is bound twice -/

/-- No name is bound in two scopes. -/
def Unshadowed (e : Environment) : Prop :=
  ∀ x j k v w, e.value? j x = some v → e.value? k x = some w → j = k

theorem Unshadowed.assign (h : e.Unshadowed) (x : Symbol) (v : Value) : (e.assign x v).Unshadowed := by
  obtain ⟨home, -, -, hvalue, hhome⟩ := e.assign_spec x v
  -- all scopes that bind the name after the assignment are the one that it went to
  have honly : ∀ k w, (e.assign x v).value? k x = some w → k = home := by
    intro k w hk
    rw [hvalue] at hk
    by_cases hkh : k = home
    · exact hkh
    · rw [if_neg fun hboth => hkh hboth.1] at hk
      rcases hhome with hsome | ⟨-, hnone⟩
      · obtain ⟨u, hu⟩ := Option.isSome_iff_exists.mp hsome
        exact h x k home w u hk hu
      · rw [hnone] at hk
        cases hk
  intro y j k a b hj hk
  by_cases hy : y = x
  · subst hy
    exact (honly j a hj).trans (honly k b hk).symm
  · rw [hvalue, if_neg fun hboth => hy hboth.2] at hj hk
    exact h y j k a b hj hk

theorem Unshadowed.assigns (h : e.Unshadowed) (ha : Assigns targets e e') : e'.Unshadowed := by
  induction ha with
  | refl => exact h
  | tail _ hstep ih =>
    obtain ⟨x, v, -, rfl⟩ := hstep
    exact ih.assign x v

theorem Unshadowed.enter (h : e.Unshadowed) : e.enter.Unshadowed := by
  intro x j k a b hj hk
  rw [value?_enter] at hj hk
  exact h x j k a b hj hk

theorem Unshadowed.exit (h : e.Unshadowed) : e.exit.Unshadowed := by
  by_cases hdepth : 1 < e.depth
  · obtain ⟨-, -, hvalue⟩ := exit_of_nested hdepth
    have hold : ∀ k x a, e.exit.value? k x = some a → e.value? k x = some a := by
      intro k x a hk
      rw [hvalue] at hk
      split at hk
      · cases hk
      · exact hk
    intro x j k a b hj hk
    exact h x j k a b (hold j x a hj) (hold k x b hk)
  · rw [exit_of_single (by rw [depth_eq] at hdepth ⊢; omega)]
    exact h

/-- One scope shadows nothing. -/
theorem unshadowed_ofBindings (bindings : List (Symbol × Value)) : (ofBindings bindings).Unshadowed := by
  have hdepth : (ofBindings bindings).depth = 1 := rfl
  intro x j k a b hj hk
  have hj := lt_depth hj
  have hk := lt_depth hk
  omega

/-! ## Calls -/

/-- What can be asked of an environment. -/
inductive Call where
  | enter
  | exit
  | evaluate (f : Forest) (names : SymbolTable) (root : NodeId)

/-- The environment after a call. An evaluation that fails leaves what was assigned before. -/
def perform (e : Environment) : Call → Environment
  | .enter => e.enter
  | .exit => e.exit
  | .evaluate f names root => finalState (f.evaluate names root e)

/-- The environment after some calls, one after the other. -/
def performAll (e : Environment) (calls : List Call) : Environment :=
  calls.foldl perform e

theorem assigns_evaluate (e : Environment) (f : Forest) (names : SymbolTable) (root : NodeId) :
    Assigns (f.IsTarget · root) e (e.perform (.evaluate f names root)) := by
  unfold perform Forest.evaluate
  exact Forest.assigns_evaluateWithin (fun x hx => hx) e

theorem logs_evaluate (e : Environment) (f : Forest) (names : SymbolTable) (root : NodeId) : ∃ made,
    (e.perform (.evaluate f names root)).assignments.toList = e.assignments.toList ++ made ∧
    List.Forall₂ f.Remembers made (f.completed names root e) := by
  unfold perform Forest.evaluate Forest.completed
  exact f.logs_evaluateWithin names f.levels root e

theorem Unshadowed.perform (h : e.Unshadowed) (call : Call) : (e.perform call).Unshadowed := by
  cases call with
  | enter => exact h.enter
  | exit => exact h.exit
  | evaluate f names root => exact h.assigns (e.assigns_evaluate f names root)

theorem Unshadowed.performAll (h : e.Unshadowed) (calls : List Call) : (e.performAll calls).Unshadowed := by
  induction calls generalizing e with
  | nil => exact h
  | cons call calls ih => exact ih (h.perform call)

/-! ## The last value that was assigned -/

/-- The last value that a name was given by some assignments. -/
def lastValue? (made : List Assignment) (x : Symbol) : Option Value :=
  (made.filter (·.symbol = x)).getLast?.map (·.value)

theorem lastValue?_append (made more : List Assignment) (x : Symbol) :
    lastValue? (made ++ more) x = (lastValue? more x).or (lastValue? made x) := by
  unfold lastValue?
  rw [List.filter_append, List.getLast?_append, Option.map_or]

theorem lastValue?_singleton (a : Assignment) (x : Symbol) :
    lastValue? [a] x = if a.symbol = x then some a.value else none := by
  unfold lastValue?
  by_cases hx : a.symbol = x <;> simp [hx]

/-- From one environment to another one, a number of outermost scopes bind the same names, and each name has
the last value that was assigned to it, or its old value. -/
def Updates (n : Nat) (e e' : Environment) : Prop :=
  ∃ made, e'.assignments.toList = e.assignments.toList ++ made ∧
    ∀ k < n, ∀ x, e'.value? k x = (e.value? k x).map (lastValue? made x).getD

theorem Updates.of_same (hmade : e'.assignments = e.assignments)
    (hvalue : ∀ k < n, ∀ x, e'.value? k x = e.value? k x) : Updates n e e' := by
  refine ⟨[], by rw [hmade, List.append_nil], ?_⟩
  intro k hk x
  rw [hvalue k hk x]
  exact Option.map_id'.symm

theorem Updates.trans (h : Updates n e e') (h' : Updates n e' e'') : Updates n e e'' := by
  obtain ⟨made, hmade, hvalue⟩ := h
  obtain ⟨more, hmore, hvalue'⟩ := h'
  refine ⟨made ++ more, by rw [hmore, hmade, List.append_assoc], ?_⟩
  intro k hk x
  rw [hvalue' k hk, hvalue k hk, Option.map_map, lastValue?_append]
  congr 1
  funext old
  cases hx : lastValue? more x <;> simp

theorem Unshadowed.updates_assign (h : e.Unshadowed) (hn : n < e.depth) (x : Symbol) (v : Value) :
    Updates n e (e.assign x v) := by
  obtain ⟨home, -, hmade, hvalue, hhome⟩ := e.assign_spec x v
  refine ⟨[⟨x, v, home⟩], hmade, ?_⟩
  intro k hk y
  rw [hvalue, lastValue?_singleton]
  by_cases hy : y = x
  · subst hy
    simp only [and_true, if_true]
    cases hold : e.value? k y with
    | some w =>
      -- the scope that binds the name is the one that is assigned to
      rcases hhome with hsome | ⟨-, hnone⟩
      · obtain ⟨u, hu⟩ := Option.isSome_iff_exists.mp hsome
        rw [if_pos (h y k home w u hold hu)]
        rfl
      · rw [hnone] at hold
        cases hold
    | none =>
      rw [if_neg]
      · rfl
      · rintro rfl
        rcases hhome with hsome | ⟨hlast, -⟩
        · rw [hold] at hsome
          cases hsome
        · omega
  · rw [if_neg fun hboth => hy hboth.2, if_neg (Ne.symm hy)]
    exact Option.map_id'.symm

theorem Unshadowed.updates_assigns (h : e.Unshadowed) (hn : n < e.depth) (ha : Assigns targets e e') :
    Updates n e e' := by
  induction ha with
  | refl => exact .of_same rfl fun _ _ _ => rfl
  | tail hrun hstep ih =>
    obtain ⟨x, v, -, rfl⟩ := hstep
    have hdepth := (Assigns.kept hrun).depth
    exact ih.trans ((h.assigns hrun).updates_assign (hdepth ▸ hn) x v)

/-! ## Calls inside of a scope -/

/-- Every scope that is opened is closed, and no other one is. -/
inductive Balanced : List Call → Prop where
  | nil : Balanced []
  | evaluate {rest : List Call} (f : Forest) (names : SymbolTable) (root : NodeId) (others : Balanced rest) :
      Balanced (.evaluate f names root :: rest)
  | nest {inside rest : List Call} (scope : Balanced inside) (others : Balanced rest) :
      Balanced (.enter :: inside ++ .exit :: rest)

theorem performAll_scope (e : Environment) (inside rest : List Call) :
    e.performAll (.enter :: inside ++ .exit :: rest) = (e.enter.performAll inside).exit.performAll rest := by
  unfold performAll
  rw [List.foldl_append]
  rfl

/-- What happens inside of a scope stays when the scope is closed, in the scopes around it. -/
theorem Updates.scope (hdepth : e'.depth = e.depth + 1) (hn : n ≤ e.depth) (h : Updates n e.enter e') :
    e'.exit.depth = e.depth ∧ Updates n e e'.exit := by
  obtain ⟨hclosed, hmade, hvalue⟩ := exit_of_nested (e := e') (by rw [hdepth, depth_eq]; omega)
  have henter : Updates n e e.enter := .of_same rfl fun k _ x => e.value?_enter k x
  have hexit : Updates n e' e'.exit := by
    refine .of_same hmade fun k hk x => ?_
    rw [hvalue, if_neg (by omega)]
  exact ⟨by omega, (henter.trans h).trans hexit⟩

/-- Balanced calls leave the scopes around the innermost one. -/
theorem Balanced.updates {calls : List Call} (hcalls : Balanced calls) (h : e.Unshadowed) (hn : n < e.depth) :
    (e.performAll calls).depth = e.depth ∧ Updates n e (e.performAll calls) := by
  induction hcalls generalizing e with
  | nil => exact ⟨rfl, .of_same rfl fun _ _ _ => rfl⟩
  | @evaluate rest f names root _ ih =>
    have hassigns := e.assigns_evaluate f names root
    have hdepth := hassigns.kept.depth
    obtain ⟨hdepth', hupdates⟩ := ih (h.perform (.evaluate f names root)) (hdepth ▸ hn)
    exact ⟨hdepth'.trans hdepth, (h.updates_assigns hn hassigns).trans hupdates⟩
  | @nest inside rest _ _ ihi ihr =>
    obtain ⟨hdepth, hupdates⟩ := ihi h.enter (Nat.lt_succ_of_lt hn)
    obtain ⟨hdepth', hupdates'⟩ := hupdates.scope hdepth (Nat.le_of_lt hn)
    obtain ⟨hdepth'', hupdates''⟩ := ihr (h.enter.performAll inside).exit (hdepth' ▸ hn)
    rw [performAll_scope]
    exact ⟨hdepth''.trans hdepth', hupdates'.trans hupdates''⟩

/-- In every environment that calls lead to, no name is bound in two scopes. An evaluation keeps the scopes
and the names that they bind, but for new names in the innermost one, and it changes targets of assignments
only; the environment remembers the assignments that it has completed. After a scope was opened, used and
closed, all scopes bind the names that they bound before, each with the last value that was assigned to it
meanwhile, or with its old value. -/
theorem scopes_never_shadow (bindings : List (Symbol × Value)) (calls : List Call) :
    let e := (ofBindings bindings).performAll calls
    0 < e.depth ∧ e.Unshadowed ∧
    (∀ f names root, Kept (Forest.IsTarget f · root) e (e.perform (.evaluate f names root)) ∧
      ∃ made, (e.perform (.evaluate f names root)).assignments.toList = e.assignments.toList ++ made ∧
        List.Forall₂ f.Remembers made (f.completed names root e)) ∧
    ∀ inside, Balanced inside →
      let e' := e.performAll (.enter :: inside ++ [.exit])
      e'.depth = e.depth ∧ ∃ made, e'.assignments.toList = e.assignments.toList ++ made ∧
        ∀ k x, e'.value? k x = (e.value? k x).map (lastValue? made x).getD := by
  intro e
  have h : e.Unshadowed := (unshadowed_ofBindings bindings).performAll calls
  refine ⟨Nat.succ_pos _, h,
    fun f names root => ⟨(e.assigns_evaluate f names root).kept, e.logs_evaluate f names root⟩, ?_⟩
  intro inside hinside e'
  have he' : e' = (e.enter.performAll inside).exit := e.performAll_scope inside []
  obtain ⟨hdepth, hupdates⟩ := hinside.updates h.enter (Nat.lt_succ_self e.depth)
  obtain ⟨hdepth', made, hmade, hvalue⟩ := hupdates.scope hdepth (Nat.le_refl _)
  rw [he']
  refine ⟨hdepth', made, hmade, ?_⟩
  intro k x
  by_cases hk : k < e.depth
  · exact hvalue k hk x
  · have hle : e.depth ≤ k := Nat.not_lt.mp hk
    rw [value?, value?, valueIn_of_le hle, valueIn_of_le (Nat.le_trans (Nat.le_of_eq hdepth') hle)]
    rfl

/-- The block `{ y = 7; z = y; x = w }`, where `x`, `y`, `z` and `w` are the symbols from 0 to 3. -/
def threeAssignments : Forest :=
  ⟨#[(.name ⟨1⟩, .zero), (.literal (.integer 7), .zero), (.binary ⟨0⟩ .assign ⟨1⟩, .zero),
    (.name ⟨2⟩, .zero), (.binary ⟨3⟩ .assign ⟨0⟩, .zero), (.name ⟨0⟩, .zero), (.name ⟨3⟩, .zero),
    (.binary ⟨5⟩ .assign ⟨6⟩, .zero), (.block [⟨2⟩, ⟨4⟩, ⟨7⟩], .zero)]⟩

/-- The evaluation fails, since `w` has no value. What was assigned to `y` before stays, and `z` goes with its
scope. -/
theorem scopes_never_shadow_failure :
    let e := ofBindings [(⟨0⟩, .integer 1), (⟨1⟩, .integer 2)]
    let inside := [.enter, .exit, .evaluate threeAssignments .empty ⟨8⟩]
    Balanced inside ∧ ∃ e', e' = e.performAll (.enter :: inside ++ [.exit]) ∧
      e'.value? 0 ⟨0⟩ = some (.integer 1) ∧ e'.value? 0 ⟨1⟩ = some (.integer 7) ∧
      e'.value? 0 ⟨2⟩ = none := by
  intro e inside
  have hinside : Balanced inside := .nest .nil (.evaluate _ _ _ .nil)
  obtain ⟨-, made, hmade, hvalue⟩ := (scopes_never_shadow _ []).2.2.2 inside hinside
  have hlog : (e.performAll (.enter :: inside ++ [.exit])).assignments.toList =
      [⟨⟨1⟩, .integer 7, 0⟩, ⟨⟨2⟩, .integer 7, 1⟩] := by decide +kernel
  obtain rfl : made = [⟨⟨1⟩, .integer 7, 0⟩, ⟨⟨2⟩, .integer 7, 1⟩] := hmade.symm.trans hlog
  refine ⟨hinside, _, rfl, ?_, ?_, ?_⟩ <;> exact (hvalue 0 _).trans (by decide)

end Environment

end ArithJit
