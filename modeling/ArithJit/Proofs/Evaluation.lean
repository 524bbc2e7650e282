import ArithJit.Proofs.Association
import ArithJit.Proofs.Expression

/-!
# Proofs: evaluating expressions

An assignment changes what is found under its name and nothing else, whatever scopes there are. Where all
values are integers, an expression without divisions evaluates to an integer, or it fails because a name
has no value; it cannot fail in any other way.
-/

namespace ArithJit

namespace Scope

theorem find?_declare (s : Scope) (x y : Symbol) (v : Value) :
    (s.declare x v).find? y = if y = x then some v else s.find? y :=
  Assoc.find?_insert x y v s.bindings

theorem find?_of_not_contains {s : Scope} {x : Symbol} (h : s.contains x = false) :
    s.find? x = none := by
  simpa [contains, Assoc.contains, find?] using h

end Scope

namespace Environment

variable {e : Environment} {x y : Symbol} {v : Value}

theorem findSome?_assignBound? {scopes scopes' : List Scope} {depth : Nat}
    (h : assignBound? x v scopes = some (depth, scopes')) :
    scopes'.findSome? (·.find? y) = if y = x then some v else scopes.findSome? (·.find? y) := by
  induction scopes generalizing scopes' depth with
  | nil => simp [assignBound?] at h
  | cons scope outer ih =>
    rw [assignBound?] at h
    split at h
    · obtain ⟨-, rfl⟩ : outer.length = depth ∧ scope.declare x v :: outer = scopes' := by
        simpa using h
      by_cases hy : y = x <;> simp [List.findSome?_cons, Scope.find?_declare, hy]
    · next hscope =>
      simp only [Option.map_eq_some_iff, Prod.mk.injEq] at h
      obtain ⟨⟨_, outer'⟩, hbound, -, rfl⟩ := h
      rw [List.findSome?_cons, List.findSome?_cons, ih hbound]
      by_cases hy : y = x
      · have hnone : scope.find? x = none := Scope.find?_of_not_contains (by simpa using hscope)
        simp [hy, hnone]
      · simp [hy]

/-- An assignment changes the value of its name and of no other. -/
theorem find?_assign (e : Environment) (x y : Symbol) (v : Value) :
    (e.assign x v).find? y = if y = x then some v else e.find? y := by
  have hhere : (e.current.declare x v :: e.outer).findSome? (·.find? y) =
      if y = x then some v else e.find? y := by
    by_cases hy : y = x <;> simp [find?, scopes, List.findSome?_cons, Scope.find?_declare, hy]
  rw [assign]
  split
  · exact hhere
  · next hcurrent =>
    -- the current scope does not know the name: an outer scope does, or the name is new
    split
    · next depth outer hbound =>
      have hnone : e.current.find? x = none := Scope.find?_of_not_contains (by simpa using hcurrent)
      simp only [find?, scopes, List.findSome?_cons, findSome?_assignBound? hbound]
      by_cases hy : y = x
      · simp [hy, hnone]
      · simp [hy]
    · exact hhere

/-- All values are integers. -/
def Integral (e : Environment) : Prop :=
  ∀ x v, e.find? x = some v → ∃ n, v = .integer n

theorem Integral.assign (h : e.Integral) (x : Symbol) (n : Int32) :
    (e.assign x (.integer n)).Integral := by
  intro y v hv
  rw [find?_assign] at hv
  split at hv
  · exact ⟨n, (Option.some.inj hv).symm⟩
  · exact h y v hv

theorem find?_current (s : Scope) (x : Symbol) : ({ current := s } : Environment).find? x = s.find? x := by
  rw [find?, scopes, List.findSome?_cons]
  cases s.find? x <;> rfl

/-- Of the initial values for a name the last one counts. -/
theorem find?_ofBindings (bindings : List (Symbol × Value)) (x : Symbol) :
    (ofBindings bindings).find? x = Assoc.find? x bindings.reverse := by
  have hfold : ∀ bs : List (Symbol × Value),
      (bs.foldr (fun b scope => scope.declare b.1 b.2) Scope.empty).find? x = Assoc.find? x bs := by
    intro bs
    induction bs with
    | nil => rfl
    | cons b bs ih =>
      rw [List.foldr_cons, Scope.find?_declare, ih]
      exact if_congr eq_comm rfl rfl
  rw [ofBindings, find?_current, List.foldl_eq_foldr_reverse, hfold]

theorem integral_ofBindings {bindings : List (Symbol × Value)}
    (h : ∀ b ∈ bindings, ∃ n, b.2 = .integer n) : (ofBindings bindings).Integral := by
  intro x v hv
  rw [find?_ofBindings] at hv
  exact h (x, v) (List.mem_reverse.mp (Assoc.mem_of_find? hv))

end Environment

/-- The three operators other than division have a result on all integers. -/
theorem Arithmetic.onValues_integer {op : Arithmetic} (h : op ≠ .div) (a b : Int32) :
    ∃ n, op.onValues (.integer a) (.integer b) = .ok (.integer n) := by
  cases op
  case div => exact absurd rfl h
  all_goals exact ⟨_, rfl⟩

/-- A result on integers is an integer. -/
theorem Arithmetic.onValues_eq_ok {op : Arithmetic} {a b : Int32} {v : Value}
    (h : op.onValues (.integer a) (.integer b) = .ok v) : ∃ n, op.apply? a b = some n ∧ v = .integer n := by
  simp only [onValues, Value.asInteger?] at h
  cases hn : op.apply? a b with
  | none => simp [hn] at h
  | some n =>
    simp only [hn, Except.ok.injEq] at h
    exact ⟨n, rfl, h.symm⟩

namespace Expr

variable {e l r : Expr} {names : SymbolTable} {x : Symbol} {op : Arithmetic} {env env' : Environment}
  {v : Value}

theorem evaluate_name (names : SymbolTable) (x : Symbol) (env : Environment) :
    (name x).evaluate names env = match env.find? x with
      | some v => .ok v env
      | none => .error (.error (.undefinedVariable (names.nameOf x))) env := by
  simp only [evaluate, bind, EStateM.bind, get_apply]
  cases env.find? x <;> rfl

theorem evaluate_assign_eq_ok (h : (assign x e).evaluate names env = .ok v env') :
    ∃ env₁, e.evaluate names env = .ok v env₁ ∧ env' = env₁.assign x v := by
  rw [evaluate, bind_eq_ok] at h
  obtain ⟨w, env₁, he, h⟩ := h
  obtain ⟨rfl, rfl⟩ : w = v ∧ env₁.assign x w = env' := by
    simpa [bind, EStateM.bind, modify_apply, pure, EStateM.pure] using h
  exact ⟨env₁, he, rfl⟩

theorem evaluate_arithmetic_eq_ok (h : (arithmetic op l r).evaluate names env = .ok v env') :
    ∃ a env₁ b, l.evaluate names env = .ok a env₁ ∧ r.evaluate names env₁ = .ok b env' ∧
      op.onValues a b = .ok v := by
  simp only [evaluate, bind_eq_ok] at h
  obtain ⟨a, env₁, hl, b, env₂, hr, h⟩ := h
  cases hv : op.onValues a b with
  | error e => simp [hv, throw_apply] at h
  | ok w =>
    obtain ⟨rfl, rfl⟩ : w = v ∧ env₂ = env' := by simpa [hv, pure, EStateM.pure] using h
    exact ⟨a, env₁, b, hl, hr, hv⟩

/-- An expression without divisions has an integer value, or one of its names has no value. -/
theorem evaluate_cases (names : SymbolTable) (hd : e.divides = false) (henv : env.Integral) :
    (∃ n env', e.evaluate names env = .ok (.integer n) env' ∧ env'.Integral) ∨
    ∃ x env', e.evaluate names env = .error (.error (.undefinedVariable x)) env' := by
  induction e generalizing env with
  | literal n => exact Or.inl ⟨n, env, rfl, henv⟩
  | name x =>
    cases hx : env.find? x with
    | none => exact Or.inr ⟨_, env, by rw [evaluate_name, hx]⟩
    | some v =>
      obtain ⟨n, rfl⟩ := henv x v hx
      exact Or.inl ⟨n, env, by rw [evaluate_name, hx], henv⟩
  | assign x value ih =>
    rcases ih hd henv with ⟨n, env', hv, henv'⟩ | ⟨y, env', hv⟩
    · refine Or.inl ⟨n, env'.assign x (.integer n), ?_, henv'.assign x n⟩
      simp only [evaluate, bind, EStateM.bind, hv]
      rfl
    · exact Or.inr ⟨y, env', by simp only [evaluate, bind, EStateM.bind, hv]⟩
  | arithmetic op l r ihl ihr =>
    simp only [divides, Bool.or_eq_false_iff, decide_eq_false_iff_not] at hd
    rcases ihl hd.1.2 henv with ⟨a, env₁, hl, henv₁⟩ | ⟨y, env', hl⟩
    · rcases ihr hd.2 henv₁ with ⟨b, env₂, hr, henv₂⟩ | ⟨y, env', hr⟩
      · obtain ⟨n, hn⟩ := Arithmetic.onValues_integer hd.1.1 a b
        refine Or.inl ⟨n, env₂, ?_, henv₂⟩
        simp only [evaluate, bind, EStateM.bind, hl, hr, hn]
        rfl
      · exact Or.inr ⟨y, env', by simp only [evaluate, bind, EStateM.bind, hl, hr]⟩
    · exact Or.inr ⟨y, env', by simp only [evaluate, bind, EStateM.bind, hl]⟩

end Expr

end ArithJit
