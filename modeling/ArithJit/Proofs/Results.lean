import Mathlib.Tactic.Common

/-!
# Proofs: results of steps

Steps that may fail, one after the other. A run of two steps succeeds if both do, and it fails if the first
one fails, or the second one after it. Two runs are related step by step.
-/

namespace ArithJit

/-! ## Steps with an error -/

section Except

variable {ε α β : Type} {x : Except ε α} {f : α → Except ε β} {b : β} {e : ε}

/-- If one step after the other succeeds, then both do. -/
theorem except_bind_eq_ok : x >>= f = .ok b ↔ ∃ a, x = .ok a ∧ f a = .ok b := by
  cases x with
  | ok a => simp [bind, Except.bind]
  | error e => simp [bind, Except.bind]

/-- If one step after the other fails, then the first one fails or the second one does. -/
theorem except_bind_eq_error : x >>= f = .error e ↔ x = .error e ∨ ∃ a, x = .ok a ∧ f a = .error e := by
  cases x with
  | ok a => simp [bind, Except.bind]
  | error e => simp [bind, Except.bind]

end Except

section Corresponds

variable {ε α β γ δ : Type} {R : α → β → Prop} {S : γ → δ → Prop} {x : Except ε α} {y : Except ε β}

/-- Two steps come to results as `R` says, or to the same error. -/
inductive Corresponds (R : α → β → Prop) : Except ε α → Except ε β → Prop where
  | ok {a : α} {b : β} (h : R a b) : Corresponds R (.ok a) (.ok b)
  | error (e : ε) : Corresponds R (.error e) (.error e)

theorem Corresponds.mono {R' : α → β → Prop} (h : Corresponds R x y) (hR : ∀ a b, R a b → R' a b) :
    Corresponds R' x y := by
  cases h with
  | ok h => exact .ok (hR _ _ h)
  | error e => exact .error e

theorem Corresponds.bind {f : α → Except ε γ} {g : β → Except ε δ} (h : Corresponds R x y)
    (hfg : ∀ a b, x = .ok a → R a b → Corresponds S (f a) (g b)) : Corresponds S (x >>= f) (y >>= g) := by
  cases h with
  | ok h => exact hfg _ _ rfl h
  | error e => exact .error e

end Corresponds

/-! ## Steps with a state -/

section State

variable {ε ε' σ α β : Type}

/-- If one step after the other succeeds, then both do. -/
theorem bind_eq_ok {x : EStateM ε σ α} {f : α → EStateM ε σ β} {s t : σ} {b : β} :
    (x >>= f) s = .ok b t ↔ ∃ a u, x s = .ok a u ∧ f a u = .ok b t := by
  change EStateM.bind x f s = _ ↔ _
  cases h : x s with
  | ok a u => simp [EStateM.bind, h]
  | error e u => simp [EStateM.bind, h]

/-- A run that returns ends in some state. -/
theorem exists_of_run' {x : EStateM ε σ α} {s : σ} {a : α} (h : x.run' s = some a) : ∃ t, x s = .ok a t := by
  delta EStateM.run' EStateM.run at h
  cases hx : x s with
  | ok b t =>
    rw [hx] at h
    cases h
    exact ⟨t, rfl⟩
  | error e t =>
    rw [hx] at h
    cases h

theorem throw_apply (e : ε) (s : σ) : (throw e : EStateM ε σ α) s = .error e s :=
  rfl

theorem get_apply (s : σ) : (get : EStateM ε σ σ) s = .ok s s :=
  rfl

theorem modify_apply (f : σ → σ) (s : σ) : (modify f : EStateM ε σ PUnit) s = .ok ⟨⟩ (f s) :=
  rfl

theorem adaptExcept_ok {x : EStateM ε σ α} {f : ε → ε'} {a : α} {s t : σ} (h : x s = .ok a t) :
    EStateM.adaptExcept f x s = .ok a t := by
  simp only [EStateM.adaptExcept, h]

end State

/-! ## The state at the end of a run -/

section Leaves

variable {ε σ α β γ : Type} {R : σ → σ → Prop}

/-- The state at the end of a run, also if the run fails. -/
def finalState : EStateM.Result ε σ α → σ
  | .ok _ s => s
  | .error _ s => s

/-- From any state, a step leads to a state that is related to it, also if the step fails. -/
def Leaves (R : σ → σ → Prop) (x : EStateM ε σ α) : Prop :=
  ∀ s, R s (finalState (x s))

theorem Leaves.bind {x : EStateM ε σ α} {f : α → EStateM ε σ β} (htrans : ∀ s t u, R s t → R t u → R s u)
    (hx : Leaves R x) (hf : ∀ a, Leaves R (f a)) : Leaves R (x >>= f) := by
  intro s
  have hs := hx s
  show R s (finalState (EStateM.bind x f s))
  unfold EStateM.bind
  cases h : x s with
  | ok a t =>
    rw [h] at hs
    exact htrans _ _ _ hs (hf a t)
  | error e t =>
    rw [h] at hs
    exact hs

theorem Leaves.foldlM {f : γ → EStateM ε σ α} {list : List γ} (htrans : ∀ s t u, R s t → R t u → R s u)
    (hrefl : ∀ s, R s s) (hf : ∀ c ∈ list, Leaves R (f c)) (a : α) :
    Leaves R (list.foldlM (fun _ c => f c) a) := by
  induction list generalizing a with
  | nil => exact hrefl
  | cons c list ih =>
    rw [List.foldlM_cons]
    exact (hf c (by simp)).bind htrans fun b => ih (fun d hd => hf d (by simp [hd])) b

end Leaves

/-! ## Runs with two ends -/

section Runs

variable {ε σ α β : Type} {x : EStateM ε σ α} {f : α → EStateM ε σ β} {s t : σ}
  {Q Q' : α → σ → Prop} {R : β → σ → Prop} {E E' : ε → σ → Prop}

/-- From the state `s`, the step `x` ends with a result as `Q` says or with a failure as `E` says. -/
def Runs (x : EStateM ε σ α) (s : σ) (Q : α → σ → Prop) (E : ε → σ → Prop) : Prop :=
  match x s with
  | .ok a t => Q a t
  | .error e t => E e t

theorem Runs.bind (hx : Runs x s Q E) (hf : ∀ a t, Q a t → Runs (f a) t R E) : Runs (x >>= f) s R E := by
  change Runs (EStateM.bind x f) s R E
  rw [Runs] at hx ⊢
  rw [EStateM.bind]
  cases h : x s with
  | ok a t =>
    rw [h] at hx
    exact hf a t hx
  | error e t =>
    rw [h] at hx
    exact hx

theorem Runs.mono (hx : Runs x s Q E) (hQ : ∀ a t, Q a t → Q' a t) (hE : ∀ e t, E e t → E' e t) :
    Runs x s Q' E' := by
  rw [Runs] at hx ⊢
  split at hx
  · exact hQ _ _ hx
  · exact hE _ _ hx

theorem Runs.of_ok {a : α} (h : x s = .ok a t) (hQ : Q a t) : Runs x s Q E := by
  rw [Runs, h]
  exact hQ

theorem Runs.of_error {e : ε} (h : x s = .error e t) (hE : E e t) : Runs x s Q E := by
  rw [Runs, h]
  exact hE

/-- A step whose outcome is known is followed by the others. -/
theorem Runs.after {a : α} (h : x s = .ok a t) (hf : Runs (f a) t R E) : Runs (x >>= f) s R E :=
  (Runs.of_ok (Q := fun b u => b = a ∧ u = t) h ⟨rfl, rfl⟩).bind fun b u hbu => by
    obtain ⟨rfl, rfl⟩ := hbu
    exact hf

end Runs

/-! ## Two runs -/

section Agree

variable {ε σ τ α β γ δ : Type} {R R' : α → σ → β → τ → Prop}
  {S : γ → σ → δ → τ → Prop} {E E' : σ → τ → Prop}

/-- Two runs come to results as `R` says, or to the same error with states as `E` says. -/
def Agree (R : α → σ → β → τ → Prop) (E : σ → τ → Prop) :
    EStateM.Result ε σ α → EStateM.Result ε τ β → Prop
  | .ok a s, .ok b t => R a s b t
  | .error e s, .error f t => e = f ∧ E s t
  | _, _ => False

theorem Agree.mono {r : EStateM.Result ε σ α} {r' : EStateM.Result ε τ β} (h : Agree R E r r')
    (hR : ∀ a s b t, R a s b t → R' a s b t) (hE : ∀ s t, E s t → E' s t) : Agree R' E' r r' := by
  cases r with
  | ok a s =>
    cases r' with
    | ok b t => exact hR a s b t h
    | error f t => exact h.elim
  | error e s =>
    cases r' with
    | ok b t => exact h.elim
    | error f t => exact ⟨h.1, hE s t h.2⟩

theorem Agree.bind {x : EStateM ε σ α} {y : EStateM ε τ β} {f : α → EStateM ε σ γ}
    {g : β → EStateM ε τ δ}
    {s : σ} {t : τ} (h : Agree R E (x s) (y t)) (hfg : ∀ a s b t, R a s b t → Agree S E (f a s) (g b t)) :
    Agree S E ((x >>= f) s) ((y >>= g) t) := by
  change Agree S E (EStateM.bind x f s) (EStateM.bind y g t)
  rw [EStateM.bind, EStateM.bind]
  cases hx : x s with
  | ok a s' =>
    cases hy : y t with
    | ok b t' =>
      rw [hx, hy] at h
      exact hfg a s' b t' h
    | error e t' =>
      rw [hx, hy] at h
      exact h.elim
  | error e s' =>
    cases hy : y t with
    | ok b t' =>
      rw [hx, hy] at h
      exact h.elim
    | error e' t' =>
      rw [hx, hy] at h
      exact h

/-- Two runs over lists are related step by step, where `I` is what a step needs of the states. -/
theorem Agree.foldlM {κ ι : Type} {I : σ → τ → Prop} {f : κ → EStateM ε σ α} {g : ι → EStateM ε τ β}
    {list : List κ} {list' : List ι} {a : α} {b : β} {s : σ} {t : τ} (hI : ∀ a s b t, R a s b t → I s t)
    (hfg : List.Forall₂ (fun c d => ∀ s t, I s t → Agree R E (f c s) (g d t)) list list') (h : R a s b t) :
    Agree R E (list.foldlM (fun _ c => f c) a s) (list'.foldlM (fun _ d => g d) b t) := by
  induction hfg generalizing a b s t with
  | nil => exact h
  | cons hcd _ ih =>
    rw [List.foldlM_cons, List.foldlM_cons]
    exact Agree.bind (hcd s t (hI a s b t h)) fun a' s' b' t' h' => ih h'

end Agree

/-! ## Related results -/

section Rel

variable {α β γ δ : Type} {R R' : α → β → Prop} {S : γ → δ → Prop} {x : Option α} {y : Option β}

theorem rel_bind {f : α → Option γ} {g : β → Option δ} (h : Option.Rel R x y)
    (hfg : ∀ a b, R a b → Option.Rel S (f a) (g b)) : Option.Rel S (x.bind f) (y.bind g) := by
  cases h with
  | none => exact .none
  | some hab => exact hfg _ _ hab

theorem rel_mono (h : Option.Rel R x y) (hR : ∀ a b, R a b → R' a b) : Option.Rel R' x y := by
  cases h with
  | none => exact .none
  | some hab => exact .some (hR _ _ hab)

theorem exists_of_rel_some {a : α} (h : Option.Rel R (some a) y) : ∃ b, y = some b ∧ R a b := by
  cases h with
  | some hab => exact ⟨_, rfl, hab⟩

end Rel

end ArithJit
