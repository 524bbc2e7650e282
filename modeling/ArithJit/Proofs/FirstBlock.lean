import ArithJit.Proofs.Evaluation
import ArithJit.Proofs.Trees

/-!
# Proofs: the first block to be completed

A watched evaluation also takes down the value of the first block that it completes, and keeps it if it
fails later on. Apart from that it is the evaluation (`erases_watchWithin`). What was taken down stays
(`lasts_watchWithin`); an evaluation of a tree that succeeds takes down a value if and only if the tree has
a block (`first_isSome_iff`).
-/

namespace ArithJit

/-- An environment, and what was seen of blocks. -/
structure Watched where
  environment : Environment
  /-- The value of the first block that was completed. -/
  first : Option Value := none

/-- A step of a watched evaluation. -/
abbrev Watch (α : Type) := EStateM Failure Watched α

namespace Watched

variable {α β : Type}

def assign (w : Watched) (x : Symbol) (v : Value) : Watched :=
  { w with environment := w.environment.assign x v }

/-- Takes down the value of a block, unless another one was completed before. -/
def complete (w : Watched) (v : Value) : Watched :=
  { w with first := w.first.or (some v) }

/-- The result without what was seen of blocks. -/
def forget : EStateM.Result Failure Watched α → EStateM.Result Failure Environment α
  | .ok a w => .ok a w.environment
  | .error e w => .error e w.environment

end Watched

open Watched (forget)

/-- The value of a node, found within a number of levels, while blocks are watched. -/
def Forest.watchWithin (f : Forest) (names : SymbolTable) : Nat → NodeId → Watch Value
  | 0, _ => throw (.fault .tooDeep)
  | levels + 1, id =>
    match f.get? id with
    | none => throw (.fault (.missingNode id.index))
    | some (.literal value) => return value
    | some (.name symbol) => do
      match (← get).environment.find? symbol with
      | some value => return value
      | none => throw (.error (.undefinedVariable (names.nameOf symbol)))
    | some (.binary left .assign right) => do
      match f.target left with
      | .error e => throw e
      | .ok symbol =>
        let value ← f.watchWithin names levels right
        modify (·.assign symbol value)
        return value
    | some (.binary left (.arithmetic op) right) => do
      let a ← f.watchWithin names levels left
      let b ← f.watchWithin names levels right
      match op.onValues a b with
      | .ok value => return value
      | .error e => throw (.error e)
    | some (.block children) => do
      let value ← children.foldlM (fun _ child => f.watchWithin names levels child) .void
      modify (·.complete value)
      return value

/-- The value of a node, while blocks are watched. -/
def Forest.watch (f : Forest) (names : SymbolTable) (id : NodeId) : Watch Value :=
  f.watchWithin names f.levels id

namespace Watch

variable {α β : Type} {x : Watch α} {k : α → Watch β} {w : Watched}

/-! ## Watching changes nothing -/

/-- The two steps do the same, apart from what is seen of blocks. -/
def Erases (x : Watch α) (y : Evaluate α) : Prop :=
  ∀ w, y w.environment = forget (x w)

theorem Erases.bind {y : Evaluate α} {l : α → Evaluate β} (hx : Erases x y) (hk : ∀ a, Erases (k a) (l a)) :
    Erases (x >>= k) (y >>= l) := by
  intro w
  have hw := hx w
  change EStateM.bind y l w.environment = forget (EStateM.bind x k w)
  cases h : x w with
  | ok a w' =>
    rw [h] at hw
    simp only [EStateM.bind, h, hw, forget]
    exact hk a w'
  | error e w' =>
    rw [h] at hw
    simp only [EStateM.bind, h, hw, forget]

theorem Erases.foldlM {g : NodeId → Watch Value} {g' : NodeId → Evaluate Value}
    (h : ∀ c, Erases (g c) (g' c)) (children : List NodeId) (v : Value) :
    Erases (children.foldlM (fun _ c => g c) v) (children.foldlM (fun _ c => g' c) v) := by
  induction children generalizing v with
  | nil => exact fun w => rfl
  | cons c rest ih =>
    rw [List.foldlM_cons, List.foldlM_cons]
    exact (h c).bind fun u => ih u

/-- A step that succeeds also succeeds while blocks are watched. -/
theorem Erases.exists_ok {y : Evaluate α} {a : α} {env : Environment} (h : Erases x y)
    (hok : y w.environment = .ok a env) : ∃ w', x w = .ok a w' ∧ w'.environment = env := by
  rw [h w] at hok
  cases hw : x w with
  | ok c w' =>
    rw [hw] at hok
    cases hok
    exact ⟨w', rfl, rfl⟩
  | error e w' =>
    rw [hw] at hok
    cases hok

theorem erases_watchWithin (f : Forest) (names : SymbolTable) (levels : Nat) (id : NodeId) :
    Erases (f.watchWithin names levels id) (f.evaluateWithin names levels id) := by
  induction levels generalizing id with
  | zero => exact fun w => rfl
  | succ levels ih =>
    rw [Forest.watchWithin, Forest.evaluateWithin]
    rcases f.get? id with _ | value | x | ⟨left, _ | op, right⟩ | children
    · exact fun w => rfl
    · exact fun w => rfl
    · intro w
      simp only [Bind.bind, EStateM.bind, get_apply]
      cases w.environment.find? x <;> rfl
    · dsimp only
      cases f.target left with
      | error e => exact fun w => rfl
      | ok x => exact (ih right).bind fun v w => rfl
    · refine (ih left).bind fun a => (ih right).bind fun c => ?_
      cases op.onValues a c <;> exact fun w => rfl
    · have hchildren := (Erases.foldlM ih children .void).bind (l := pure)
        (k := fun v => do modify (·.complete v); return v) fun v w => rfl
      rwa [bind_pure] at hchildren

theorem erases_watch (f : Forest) (names : SymbolTable) (id : NodeId) :
    Erases (f.watch names id) (f.evaluate names id) := by
  unfold Forest.watch Forest.evaluate
  exact erases_watchWithin f names f.levels id

/-! ## What was seen stays -/

/-- What the step does to the first block is related by `R`, also if it fails. -/
def Moves (R : Option Value → Option Value → Prop) (x : Watch α) : Prop :=
  Leaves (fun w w' : Watched => R w.first w'.first) x

theorem Moves.bind {R : Option Value → Option Value → Prop} (htrans : ∀ a b c, R a b → R b c → R a c)
    (hx : Moves R x) (hk : ∀ a, Moves R (k a)) : Moves R (x >>= k) :=
  Leaves.bind (fun _ _ _ => htrans _ _ _) hx hk

/-- The first block stays the first one. -/
def Lasts (x : Watch α) : Prop :=
  Moves (fun a b => ∀ v, a = some v → b = some v) x

/-- No block is completed. -/
def Still (x : Watch α) : Prop :=
  Moves (· = ·) x

theorem Lasts.bind (hx : Lasts x) (hk : ∀ a, Lasts (k a)) : Lasts (x >>= k) :=
  Moves.bind (fun _ _ _ hab hbc v hv => hbc v (hab v hv)) hx hk

theorem Still.bind (hx : Still x) (hk : ∀ a, Still (k a)) : Still (x >>= k) :=
  Moves.bind (fun _ _ _ => Eq.trans) hx hk

theorem Lasts.foldlM {g : NodeId → Watch Value} (h : ∀ c, Lasts (g c)) (children : List NodeId)
    (v : Value) : Lasts (children.foldlM (fun _ c => g c) v) := by
  unfold Lasts Moves at *
  exact Leaves.foldlM (fun _ _ _ hab hbc u hu => hbc u (hab u hu)) (fun _ _ hu => hu) (fun c _ => h c) v

theorem lasts_onValues (op : Arithmetic) (a c : Value) :
    Lasts (match op.onValues a c with
      | .ok v => return v
      | .error e => throw (.error e) : Watch Value) := by
  cases op.onValues a c <;> exact fun w v hv => hv

theorem lasts_assign (x : Symbol) (v : Value) : Lasts (do modify (·.assign x v); return v) :=
  fun _ _ hu => hu

theorem lasts_complete (v : Value) : Lasts (do modify (·.complete v); return v) := by
  intro w u hu
  change w.first.or (some v) = some u
  rw [hu]
  rfl

theorem lasts_watchWithin (f : Forest) (names : SymbolTable) (levels : Nat) (id : NodeId) :
    Lasts (f.watchWithin names levels id) := by
  induction levels generalizing id with
  | zero => exact fun w v hv => hv
  | succ levels ih =>
    rw [Forest.watchWithin]
    rcases f.get? id with _ | value | x | ⟨left, _ | op, right⟩ | children
    · exact fun w v hv => hv
    · exact fun w v hv => hv
    · intro w v hv
      simp only [Bind.bind, EStateM.bind, get_apply]
      cases w.environment.find? x <;> exact hv
    · dsimp only
      cases f.target left with
      | error e => exact fun w v hv => hv
      | ok x => exact (ih right).bind (lasts_assign x)
    · exact (ih left).bind fun a => (ih right).bind fun c => lasts_onValues op a c
    · exact (Lasts.foldlM ih children .void).bind lasts_complete

/-- One step after the other has seen a block in its first step, or it continues without one, or it fails
without one. -/
theorem bind_cases (hk : ∀ a, Lasts (k a)) (w : Watched) :
    (∃ v, (finalState (x w)).first = some v ∧ (finalState ((x >>= k) w)).first = some v) ∨
    (∃ a w', x w = .ok a w' ∧ w'.first = none ∧ (x >>= k) w = k a w') ∨
    (finalState ((x >>= k) w)).first = none ∧ ∃ e w', (x >>= k) w = .error e w' := by
  change _ ∨ (∃ a w', _ ∧ _ ∧ EStateM.bind x k w = _) ∨ _
  cases h : x w with
  | ok a w' =>
    have hbind : EStateM.bind x k w = k a w' := by simp only [EStateM.bind, h]
    cases hfirst : w'.first with
    | none => exact Or.inr (Or.inl ⟨a, w', rfl, hfirst, hbind⟩)
    | some v =>
      refine Or.inl ⟨v, hfirst, ?_⟩
      change (finalState (EStateM.bind x k w)).first = _
      rw [hbind]
      exact hk a w' v hfirst
  | error e w' =>
    have hbind : (x >>= k) w = .error e w' := by
      change EStateM.bind x k w = _
      simp only [EStateM.bind, h]
    cases hfirst : w'.first with
    | none => exact Or.inr (Or.inr ⟨by rw [hbind]; exact hfirst, e, w', hbind⟩)
    | some v => exact Or.inl ⟨v, hfirst, by rw [hbind]; exact hfirst⟩

/-! ## Trees with and without blocks -/

variable {f : Forest} {names : SymbolTable} {levels : Nat} {id : NodeId}

theorem still_watchWithin (names : SymbolTable) (h : f.TreeWithin levels id) (hno : ¬ f.HasBlock id) :
    Still (f.watchWithin names levels id) := by
  induction levels generalizing id with
  | zero => exact absurd h not_false
  | succ levels ih =>
    cases h with
    | literal node =>
      simp only [Forest.watchWithin, node]
      exact fun w => rfl
    | @name x node =>
      simp only [Forest.watchWithin, node]
      intro w
      simp only [Bind.bind, EStateM.bind, get_apply]
      cases w.environment.find? x <;> rfl
    | assign node target value =>
      have hright := ih value fun hb => hno (.right node hb)
      simp only [Forest.watchWithin, node, Forest.target, target]
      exact hright.bind fun v w => rfl
    | @arithmetic left right op node first second =>
      have hleft := ih first fun hb => hno (.left node hb)
      have hright := ih second fun hb => hno (.right node hb)
      simp only [Forest.watchWithin, node]
      refine hleft.bind fun a => hright.bind fun c => ?_
      cases op.onValues a c <;> exact fun w => rfl
    | block node => exact absurd (.block node) hno

/-- If the step succeeds, then it has seen a block. -/
def Sees (x : Watch α) : Prop :=
  ∀ w a w', x w = .ok a w' → w'.first ≠ none

theorem Sees.bind_left (hx : Sees x) (hk : ∀ a, Lasts (k a)) : Sees (x >>= k) := by
  intro w b w' h
  obtain ⟨a, u, hu, hw'⟩ := bind_eq_ok.mp h
  obtain ⟨v, hv⟩ := Option.ne_none_iff_exists'.mp (hx w a u hu)
  have hlast := hk a u v hv
  rw [hw'] at hlast
  rw [show w'.first = some v from hlast]
  exact Option.some_ne_none v

theorem Sees.bind_right (hk : ∀ a, Sees (k a)) : Sees (x >>= k) := by
  intro w b w' h
  obtain ⟨a, u, -, hw'⟩ := bind_eq_ok.mp h
  exact hk a u b w' hw'

theorem sees_throw (e : Failure) : Sees (throw e : Watch α) := by
  intro w a w' h
  rw [throw_apply] at h
  cases h

theorem sees_watchWithin (hb : f.HasBlock id) (levels : Nat) : Sees (f.watchWithin names levels id) := by
  induction hb generalizing levels with
  | @block id children node =>
    cases levels with
    | zero => exact sees_throw _
    | succ levels =>
      simp only [Forest.watchWithin, node]
      refine Sees.bind_right fun v w a w' h => ?_
      obtain ⟨-, rfl⟩ : v = a ∧ w.complete v = w' := by
        simpa [Bind.bind, EStateM.bind, modify_apply, pure, EStateM.pure] using h
      cases hfirst : w.first <;> simp [Watched.complete, hfirst]
  | @left id left right op node inside ih =>
    cases levels with
    | zero => exact sees_throw _
    | succ levels =>
      cases op with
      | assign =>
        -- what is assigned to is a name, or the evaluation fails
        have htarget : ∀ x, f.target left ≠ .ok x := by
          intro x hx
          cases inside <;> simp_all [Forest.target]
        simp only [Forest.watchWithin, node]
        cases hx : f.target left with
        | error e => exact sees_throw e
        | ok x => exact absurd hx (htarget x)
      | arithmetic op =>
        simp only [Forest.watchWithin, node]
        exact (ih levels).bind_left fun a =>
          (lasts_watchWithin f names levels right).bind fun c => lasts_onValues op a c
  | @right id left right op node inside ih =>
    cases levels with
    | zero => exact sees_throw _
    | succ levels =>
      cases op with
      | assign =>
        simp only [Forest.watchWithin, node]
        cases f.target left with
        | error e => exact sees_throw e
        | ok x => exact (ih levels).bind_left (lasts_assign x)
      | arithmetic op =>
        simp only [Forest.watchWithin, node]
        exact Sees.bind_right fun a => (ih levels).bind_left fun c => lasts_onValues op a c

/-- A tree whose evaluation succeeds has a block if and only if the value of one was taken down. -/
theorem first_isSome_iff {env : Environment} {v : Value} {w : Watched} (h : f.TreeWithin levels id)
    (hok : f.watchWithin names levels id ⟨env, none⟩ = .ok v w) : w.first.isSome ↔ f.HasBlock id := by
  constructor
  · intro hsome
    by_contra hno
    have hstill := still_watchWithin names h hno ⟨env, none⟩
    rw [hok] at hstill
    rw [show w.first = none from hstill.symm] at hsome
    simp at hsome
  · intro hb
    exact Option.isSome_iff_ne_none.mpr (sees_watchWithin hb levels _ _ _ hok)

end Watch

end ArithJit
