import ArithJit.Proofs.BlockReturns
import ArithJit.Proofs.Scopes
import Mathlib.Data.Set.List

/-!
# Proofs: one scope does the work of many

Evaluation asks an environment for values of names and assigns to names. An assignment changes what is found
under its name and nothing else, whatever scopes there are, so two environments in which the same values are
found cannot be told apart (`Alike.evaluateWithin`). Any stack of scopes, also one in which scopes shadow each
other, can therefore be replaced by one scope with the values that are found in the stack. Such a scope is
what the slots of bytecode hold, which are given out by name and know nothing of scopes.
-/

namespace ArithJit

namespace Environment

variable {e e' : Environment} {x : Symbol} {v : Value}

/-! ## Environments in which the same values are found -/

def Alike (e e' : Environment) : Prop :=
  ∀ x, e.find? x = e'.find? x

theorem Alike.assign (h : e.Alike e') (x : Symbol) (v : Value) : (e.assign x v).Alike (e'.assign x v) := by
  intro y
  rw [find?_assign, find?_assign, h y]

/-- Two evaluations come to the same value or to the same error, and the same values are found after them. -/
def Alike.Results : EStateM.Result Failure Environment Value →
    EStateM.Result Failure Environment Value → Prop :=
  Agree (fun v s w s' => v = w ∧ s.Alike s') Alike

theorem Alike.evaluateWithin (h : e.Alike e') (f : Forest) (names : SymbolTable) (levels : Nat) (id : NodeId) :
    Alike.Results (f.evaluateWithin names levels id e) (f.evaluateWithin names levels id e') := by
  induction levels generalizing id e e' with
  | zero => exact ⟨rfl, h⟩
  | succ levels ih =>
    unfold Forest.evaluateWithin
    rcases f.get? id with _ | value | x | ⟨left, _ | op, right⟩ | children
    · exact ⟨rfl, h⟩
    · exact ⟨rfl, h⟩
    · simp only [bind, EStateM.bind, get_apply, h x]
      cases e'.find? x <;> exact ⟨rfl, h⟩
    · dsimp only
      cases f.target left with
      | error failure => exact ⟨rfl, h⟩
      | ok x =>
        refine Agree.bind (ih h right) fun v s w s' hv => ?_
        obtain ⟨rfl, hs⟩ := hv
        exact ⟨rfl, hs.assign x v⟩
    · refine Agree.bind (ih h left) fun a s a' s' ha => ?_
      obtain ⟨rfl, hs⟩ := ha
      refine Agree.bind (ih hs right) fun b t b' t' hb => ?_
      obtain ⟨rfl, ht⟩ := hb
      cases op.onValues a b <;> exact ⟨rfl, ht⟩
    · refine Agree.foldlM (fun _ _ _ _ hv => hv.2) ?_ ⟨rfl, h⟩
      exact List.forall₂_same.mpr fun c _ s s' hs => ih hs c

/-! ## Flattening -/

/-- The values that are found in an environment, each of them once. -/
def found (e : Environment) : List (Symbol × Value) :=
  (e.scopes.flatMap fun scope => scope.bindings.map Prod.fst).eraseDups.filterMap fun x =>
    (e.find? x).map (x, ·)

/-- One scope with the values that are found in an environment. -/
def flatten (e : Environment) : Environment :=
  ofBindings e.found

theorem mem_found : (x, v) ∈ e.found ↔ e.find? x = some v := by
  constructor
  · intro hmem
    obtain ⟨y, -, hy⟩ := List.mem_filterMap.mp hmem
    obtain ⟨w, hw, hpair⟩ := Option.map_eq_some_iff.mp hy
    cases hpair
    exact hw
  · intro hx
    refine List.mem_filterMap.mpr ⟨x, ?_, by rw [hx]; rfl⟩
    obtain ⟨scope, hscope, hfind⟩ := List.exists_of_findSome?_eq_some hx
    rw [List.mem_eraseDups]
    exact List.mem_flatMap.mpr ⟨scope, hscope, List.mem_map.mpr ⟨_, Assoc.mem_of_find? hfind, rfl⟩⟩

theorem alike_flatten (e : Environment) : e.Alike e.flatten := by
  intro x
  unfold flatten
  rw [find?_ofBindings]
  cases hx : Assoc.find? x e.found.reverse with
  | some v => exact mem_found.mp (List.mem_reverse.mp (Assoc.mem_of_find? hx))
  | none =>
    rw [Assoc.find?_eq_none] at hx
    cases hfind : e.find? x with
    | none => rfl
    | some v => exact absurd (List.mem_map.mpr ⟨_, List.mem_reverse.mpr (mem_found.mpr hfind), rfl⟩) hx

/-- Where all values are integers, those that are found are initial values of bytecode. -/
theorem Integral.found_eq (h : e.Integral) : ∃ ns, e.found = asValues ns := by
  have hrange : e.found ∈ Set.range (List.map fun c : Symbol × Int32 => (c.1, Value.integer c.2)) := by
    rw [Set.range_list_map]
    intro b hb
    obtain ⟨n, hn⟩ := h b.1 b.2 (mem_found.mp hb)
    exact ⟨(b.1, n), by rw [← Prod.eta b, hn]⟩
  obtain ⟨ns, hns⟩ := hrange
  exact ⟨ns, hns.symm⟩

end Environment

/-! ## Bytecode for an environment -/

namespace Session

open Bytecode (Builder)

variable {s : Session} {e : Environment} {root : NodeId} {ns : List (Symbol × Int32)}

/-- The bytecode of a tree follows the evaluation of the tree in every environment in which the initial values
of the session are found. -/
theorem follows_build (h : s.forest.IsTree root) (hb : s.bindings = asValues ns)
    (he : e.Alike (.ofBindings (asValues ns))) :
    ∃ o b, s.build root = .ok o b ∧ ∀ s₀ : Bytecode.State, ∃ s₁,
      (Builder.bindAll ns .empty).Reflects b o s₀ s₁ e (s.forest.watch s.symbols root ⟨e, none⟩) := by
  obtain ⟨o, b, hnode, -, -, -, hreflects⟩ := Builder.follows_nodeWithin s.symbols h.within_levels
    (Builder.bindAll ns .empty) (valid_bindAll ns)
  rw [← Builder.node] at hnode
  refine ⟨o, b, build_of_node hb hnode, fun s₀ => ?_⟩
  obtain ⟨s₁, hleads, hagrees⟩ := Builder.leads_bindAll ns s₀
  refine ⟨s₁, hreflects s₀ s₁ e hleads fun x v hx => hagrees x v ?_⟩
  rw [← he x]
  exact hx

end Session

namespace Environment

/-- An environment with any number of scopes, which may shadow each other, and the one scope with the values
that are found in it: every evaluation comes to the same value or to the same error in both, and the same
values are found afterwards. Where these values are integers, the bytecode of a tree that has them as initial
values returns what the first block that is completed in the scopes has; for a tree without blocks it computes
the value that the tree has in the scopes, and its slots hold what is found in the scopes at the end. -/
theorem evaluation_flattens (e : Environment) :
    e.flatten.depth = 1 ∧ (∀ x, e.flatten.find? x = e.find? x) ∧
    (∀ (f : Forest) (names : SymbolTable) (root : NodeId),
      Alike.Results (f.evaluate names root e) (f.evaluate names root e.flatten)) ∧
    (e.Integral → ∀ (s : Session) (root : NodeId), s.bindings = e.found → s.forest.IsTree root →
      ∃ o b, s.build root = .ok o b ∧ ∀ s₀ : Bytecode.State,
        (∀ v, (finalState (s.forest.watch s.symbols root ⟨e, none⟩)).first = some v →
          ∃ n s', v = .integer n ∧ Bytecode.State.run? b.instructions s₀ = some (s', some n)) ∧
        (¬ s.forest.HasBlock root → ∀ v env, s.forest.evaluate s.symbols root e = .ok v env →
          ∃ n s', v = .integer n ∧ Bytecode.State.exec? b.instructions s₀ = some s' ∧
            s'.value? o = some n ∧ ∀ x,
              (∀ p, Assoc.find? x b.locals = some p →
                ∃ t, p = .register t .slot ∧ env.find? x = some (.integer (s'.slots t))) ∧
              ∀ v, env.find? x = some v → (Assoc.find? x b.locals).isSome)) := by
  refine ⟨rfl, fun x => (e.alike_flatten x).symm, fun f names root => ?_, fun he s root hb htree => ?_⟩
  · unfold Forest.evaluate
    exact e.alike_flatten.evaluateWithin f names f.levels root
  · obtain ⟨ns, hns⟩ := he.found_eq
    have halike : e.Alike (.ofBindings (asValues ns)) := hns ▸ e.alike_flatten
    obtain ⟨o, b, hbuild, hfollows⟩ := Session.follows_build htree (hb.trans hns) halike
    refine ⟨o, b, hbuild, fun s₀ => ?_⟩
    obtain ⟨s₁, hr⟩ := hfollows s₀
    refine ⟨hr.returns, fun hno v env hok => ?_⟩
    obtain ⟨w, hw, rfl⟩ := (Watch.erases_watch s.forest s.symbols root).exists_ok (w := ⟨e, none⟩) hok
    have hnone : w.first = none := by
      have hiff := Watch.first_isSome_iff htree.within_levels hw
      exact Option.not_isSome_iff_eq_none.mp fun hsome => hno (hiff.mp hsome)
    obtain ⟨⟨s', n, hexec, hn, hvalue, hagrees, -⟩, hbinds⟩ := hr.value v w hw hnone
    -- the code starts from the one scope, the evaluation from the scopes of `e`
    have hstart : (Bytecode.Builder.bindAll ns .empty).Binds b (.ofBindings (asValues ns)) w.environment :=
      ⟨fun x hx => hbinds.lasting x (by rw [halike x]; exact hx), hbinds.bound⟩
    exact ⟨n, s', hn, hexec, hvalue, Session.locals_hold hstart hagrees⟩

/-- An inner scope where `x` is 5, and an outer scope where `x` is 1 and `y` is 2. -/
def shadowing : Environment where
  current := ⟨[(⟨0⟩, .integer 5)]⟩
  outer := [⟨[(⟨0⟩, .integer 1), (⟨1⟩, .integer 2)]⟩]

/-- The tree of `y = x * y`, with the values of the two scopes. -/
def product : Session where
  bindings := shadowing.found
  forest := ⟨#[(.binary ⟨3⟩ .assign ⟨1⟩, .zero), (.binary ⟨2⟩ (.arithmetic .mul) ⟨3⟩, .zero),
    (.name ⟨0⟩, .zero), (.name ⟨1⟩, .zero)]⟩

/-- The inner `x` and the outer `y` are multiplied in the two scopes, in one scope and by the bytecode. -/
theorem evaluation_flattens_shadowing :
    shadowing.depth = 2 ∧ shadowing.flatten.depth = 1 ∧
    (∃ env flat, product.forest.evaluate product.symbols ⟨0⟩ shadowing = .ok (.integer 10) env ∧
      product.forest.evaluate product.symbols ⟨0⟩ shadowing.flatten = .ok (.integer 10) flat ∧
      env.Alike flat) ∧
    ∃ o b, product.build ⟨0⟩ = .ok o b ∧
      ∀ s₀, ∃ s', Bytecode.State.exec? b.instructions s₀ = some s' ∧ s'.value? o = some 10 := by
  obtain ⟨hdepth, -, hresults, hbytecode⟩ := evaluation_flattens shadowing
  have hintegral : shadowing.Integral := by
    intro x v hx
    have hmem : (x, v) ∈ [(⟨0⟩, .integer 5), (⟨1⟩, .integer 2)] := mem_found.mpr hx
    simp only [List.mem_cons, Prod.mk.injEq, List.not_mem_nil, or_false] at hmem
    rcases hmem with ⟨-, rfl⟩ | ⟨-, rfl⟩
    · exact ⟨5, rfl⟩
    · exact ⟨2, rfl⟩
  have htree : product.forest.IsTree ⟨0⟩ := ⟨3, .assign rfl rfl (.arithmetic rfl (.name rfl) (.name rfl))⟩
  have hno : ¬ product.forest.HasBlock ⟨0⟩ := by
    have hblock : ∀ root, product.forest.HasBlock root →
        ∃ id children, product.forest.get? id = some (.block children) := by
      intro root h
      induction h with
      | block node => exact ⟨_, _, node⟩
      | left _ _ ih => exact ih
      | right _ _ ih => exact ih
    intro h
    obtain ⟨⟨i⟩, children, node⟩ := hblock ⟨0⟩ h
    rcases i with _ | _ | _ | _ | i <;> simp [product, Forest.get?] at node
  have hvalue : ∃ env, product.forest.evaluate product.symbols ⟨0⟩ shadowing = .ok (.integer 10) env :=
    ⟨_, rfl⟩
  obtain ⟨env, hok⟩ := hvalue
  have hresult := hresults product.forest product.symbols ⟨0⟩
  refine ⟨rfl, hdepth, ?_, ?_⟩
  · rw [hok] at hresult
    cases hflat : product.forest.evaluate product.symbols ⟨0⟩ shadowing.flatten with
    | ok v flat =>
      rw [hflat] at hresult
      obtain ⟨rfl, halike⟩ := hresult
      exact ⟨env, flat, hok, rfl, halike⟩
    | error e flat =>
      rw [hflat] at hresult
      exact hresult.elim
  · obtain ⟨o, b, hbuild, hrun⟩ := hbytecode hintegral product ⟨0⟩ rfl htree
    refine ⟨o, b, hbuild, fun s₀ => ?_⟩
    obtain ⟨n, s', hn, hexec, hvalue, -⟩ := (hrun s₀).2 hno _ _ hok
    obtain rfl : 10 = n := Value.integer.inj hn
    exact ⟨s', hexec, hvalue⟩

end Environment

end ArithJit
