import ArithJit.Proofs.Grammar
import Mathlib.Logic.Function.Iterate

/-!
# Proofs: the parser unrolled

The parser repeats itself in three places: a chain goes on to its next operand, an expression contains
expressions, a program goes on to its next statement. Here what is repeated is taken by itself
(`Parser.chainRound`, `Parser.level`, `Parser.statementRound`) and put together any number of times, with
anything at all below the last round (`Parser.Bottom`).

Each round takes a token before the next one starts. So with more rounds than tokens it does not matter what is
below, nor how many rounds there are: the recursion ends by itself (`Parser.unrolledExpression_eq`,
`Parser.unrolledProgram_eq`).
-/

namespace ArithJit

namespace Parser

variable {α β : Type} {x y : Parse α} {f g : α → Parse β} {p q : Parser} {n : Nat}

/-! ## One round of each recursion -/

/-- A chain looks for a sign; behind the sign and an operand it goes on with `more`. -/
def chainRound (operator? : Token.Kind → Option Arithmetic) (operand : Parse NodeId)
    (more : NodeId → Parse NodeId) (left : NodeId) : Parse NodeId := do
  match operator? (← peek).kind with
  | none => return left
  | some op =>
    let _ ← advance
    let right ← operand
    more (← addBinary left (.arithmetic op) right)

/-- An expression, given its sums and the expressions behind an equals sign. -/
def level (sum inner : Parse NodeId) : Parse NodeId := do
  let target ← sum
  if !(← isAt .equal) then
    return target
  let sign ← advance
  if !(← isName target) then
    let span := (← get).forest.span target
    reject (.invalidAssignTarget (span.merge (← check sign.span)))
  let value ← inner
  addBinary target .assign value

/-- A statement, unless the input has ended; behind it, `more` follows. -/
def statementRound (expression : Parse NodeId) (more : Parse (List NodeId)) : Parse (List NodeId) := do
  if ← isAt .endOfInput then
    return []
  let first ← expression
  if ← isAt .semicolon then
    let _ ← advance
  else if !(← isAt .endOfInput) then
    reject (.expectedSemicolon (← check (← peek).span))
  return first :: (← more)

theorem chainFrom_eq_chainRound (operator? : Token.Kind → Option Arithmetic) (operand : Parse NodeId)
    (length : Nat) (left : NodeId) : chainFrom operator? operand (length + 1) left =
      chainRound operator? operand (chainFrom operator? operand length) left :=
  rfl

theorem expressionTo_eq_level (depth : Nat) :
    expressionTo (depth + 1) = level (sum (expressionTo depth)) (expressionTo depth) :=
  rfl

theorem statementsTo_eq_statementRound (count : Nat) :
    statementsTo (count + 1) = statementRound expression (statementsTo count) :=
  rfl

/-! ## Many rounds -/

/-- What stands below the last round of each recursion. -/
structure Bottom where
  chain : NodeId → Parse NodeId
  expression : Parse NodeId
  statements : Parse (List NodeId)

/-- A chain of so many rounds. -/
def unrolledChain (bottom : Bottom) (rounds : Nat) (operator? : Token.Kind → Option Arithmetic)
    (operand : Parse NodeId) : Parse NodeId := do
  let left ← operand
  (chainRound operator? operand)^[rounds] bottom.chain left

def unrolledSum (bottom : Bottom) (rounds : Nat) (inner : Parse NodeId) : Parse NodeId :=
  unrolledChain bottom rounds sumOperator? (unrolledChain bottom rounds productOperator? (primary inner))

/-- An expression of so many levels, with chains of so many rounds. -/
def unrolledExpression (bottom : Bottom) (rounds : Nat) : Parse NodeId :=
  (fun inner => level (unrolledSum bottom rounds inner) inner)^[rounds] bottom.expression

/-- A program of so many statements, with expressions of so many levels. -/
def unrolledProgram (bottom : Bottom) (rounds : Nat) : Parse NodeId := do
  let start ← check (← peek).span
  let statements ← (statementRound (unrolledExpression bottom rounds))^[rounds] bottom.statements
  let stop ← check (← peek).span
  addNode (.block statements) (start.merge stop)

/-! ## Steps that are the same below a number of tokens -/

/-- The two steps are the same if fewer than `n` tokens are left. -/
def Below (n : Nat) (x y : Parse α) : Prop :=
  ∀ p, p.rest.length < n → x p = y p

theorem Below.zero : Below 0 x y :=
  fun _ h => absurd h (Nat.not_lt_zero _)

/-- If it succeeds, then the step takes at least one token. -/
def Shortens (x : Parse α) : Prop :=
  ∀ p, Gives x p fun _ q => q.rest.length < p.rest.length

theorem shortens_of_reads {x : Parse NodeId} {kind : Precedence} (h : ∀ p, Gives x p (Reads kind p)) :
    Shortens x := by
  intro p id q hq
  obtain ⟨ts, tree, hts, hderives, -⟩ := h p id q hq
  have hpos := hderives.length_pos
  rw [hts, List.length_append]
  omega

/-- Steps that are the same, followed by steps that are the same where the first one may end. -/
theorem bind_congr_at (hx : x p = y p) (hf : ∀ a q, y p = .ok a q → f a q = g a q) :
    (x >>= f) p = (y >>= g) p := by
  change EStateM.bind x f p = EStateM.bind y g p
  rw [EStateM.bind, EStateM.bind, hx]
  cases h : y p with
  | ok a q => exact hf a q h
  | error e q => rfl

/-! ## The parser needs no more rounds than tokens -/

theorem below_primary {inner inner' : Parse NodeId} (hi : Below n inner inner') :
    Below (n + 1) (primary inner) (primary inner') := by
  intro p hp
  refine bind_congr_at rfl fun t q hq => ?_
  obtain ⟨us, hus, hq⟩ := gives_advance t q hq
  cases hkind : t.kind with
  | leftParen =>
    obtain rfl := hq (by simp [hkind])
    rw [hus, List.length_cons] at hp
    exact bind_congr_at (hi _ (Nat.lt_of_succ_lt_succ hp)) fun _ _ _ => rfl
  | _ => rfl

section Chain

variable {operand operand' : Parse NodeId} {operator? : Token.Kind → Option Arithmetic}
  (hsign : ∀ kind op, operator? kind = some op → kind ≠ .endOfInput)

include hsign

/-- Each round takes an operand. -/
theorem below_chainFrom (ho : Below n operand operand') (hs : Shortens operand')
    (bottom : NodeId → Parse NodeId)
    (k rounds length : Nat) (hk : k ≤ n) (hr : k ≤ rounds) (hl : k ≤ length) (left : NodeId) :
    Below k ((chainRound operator? operand)^[rounds] bottom left)
      (chainFrom operator? operand' length left) := by
  induction k generalizing rounds length left with
  | zero => exact .zero
  | succ k ih =>
    obtain ⟨rounds, rfl⟩ := Nat.exists_eq_add_one.mpr (Nat.lt_of_lt_of_le k.succ_pos hr)
    obtain ⟨length, rfl⟩ := Nat.exists_eq_add_one.mpr (Nat.lt_of_lt_of_le k.succ_pos hl)
    rw [Function.iterate_succ_apply', chainFrom_eq_chainRound]
    intro p hp
    refine bind_congr_at rfl fun t q hq => ?_
    obtain ⟨rfl, us, hus⟩ := gives_peek t q hq
    cases hop : operator? t.kind with
    | none => rfl
    | some op =>
      rw [hus, List.length_cons] at hp
      refine bind_congr_at rfl fun t' q' hq' => ?_
      rw [advance_cons hus (hsign t.kind op hop)] at hq'
      cases hq'
      refine bind_congr_at (ho _ (by change us.length < n; omega)) fun right r hright => ?_
      have hshorter : r.rest.length < us.length := hs _ right r hright
      refine bind_congr_at rfl fun id u hu => ?_
      cases hu
      exact ih rounds length (by omega) (by omega) (by omega) _ _ (by change r.rest.length < k; omega)

/-- A chain has as many rounds as it needs. -/
theorem below_chain (ho : Below n operand operand') (hs : Shortens operand') (bottom : Bottom) {rounds : Nat}
    (hr : n ≤ rounds) : Below n (unrolledChain bottom rounds operator? operand) (chain operator? operand') := by
  intro p hp
  refine bind_congr_at (ho p hp) fun left q hq => ?_
  have hshorter := hs p left q hq
  have hrounds := below_chainFrom hsign ho hs bottom.chain (q.rest.length + 1) rounds (q.rest.length + 1)
    (by omega) (by omega) (Nat.le_refl _) left
  exact hrounds q (Nat.lt_succ_self _)

end Chain

theorem below_sum {inner inner' : Parse NodeId} (hi : Below n inner inner')
    (he : ∀ p, Gives inner' p (Reads .expression p)) (bottom : Bottom) {rounds : Nat} (hr : n + 1 ≤ rounds) :
    Below (n + 1) (unrolledSum bottom rounds inner) (sum inner') := by
  have hprimary : Shortens (primary inner') := shortens_of_reads fun _ => gives_primary he
  have hproduct : Shortens (product inner') :=
    shortens_of_reads fun _ => gives_chain isChain_product fun _ => gives_primary he
  have hproducts : Below (n + 1) (unrolledChain bottom rounds productOperator? (primary inner))
      (product inner') :=
    below_chain (fun kind op h => (isChain_product.sign kind op h).1) (below_primary hi) hprimary bottom hr
  exact below_chain (fun kind op h => (isChain_sum.sign kind op h).1) hproducts hproduct bottom hr

/-- The sum in front of an equals sign takes a token, so fewer are left for the expression behind it. -/
theorem below_level {sum sum' inner inner' : Parse NodeId} (hsum : Below (n + 1) sum sum') (hs : Shortens sum')
    (hi : Below n inner inner') : Below (n + 1) (level sum inner) (level sum' inner') := by
  intro p hp
  refine bind_congr_at (hsum p hp) fun target q hq => ?_
  have hshorter := hs p target q hq
  refine bind_congr_at rfl fun b q' hb => ?_
  obtain ⟨rfl, t, us, hus, rfl⟩ := gives_isAt b q' hb
  split
  · rfl
  · next hequal =>
    have hkind : t.kind = .equal := by simpa using hequal
    refine bind_congr_at rfl fun t' r hr => ?_
    rw [advance_cons hus (by simp [hkind])] at hr
    cases hr
    refine bind_congr_at rfl fun b r hb => ?_
    cases hb
    have hinner : inner { q' with rest := us } = inner' { q' with rest := us } := by
      rw [hus, List.length_cons] at hshorter
      exact hi _ (by change us.length < n; omega)
    split
    · -- the target is rejected, whatever stands behind the equals sign
      refine bind_congr_at rfl fun _ r hr => ?_
      refine bind_congr_at rfl fun _ r hr => ?_
      refine bind_congr_at rfl fun _ _ hreject => ?_
      cases hreject
    · exact bind_congr_at hinner fun _ _ _ => rfl

theorem below_expressionTo (bottom : Bottom) (rounds k levels depth : Nat) (hr : k ≤ rounds) (hl : k ≤ levels)
    (hd : k ≤ depth) : Below k ((fun inner => level (unrolledSum bottom rounds inner) inner)^[levels]
      bottom.expression) (expressionTo depth) := by
  induction k generalizing levels depth with
  | zero => exact .zero
  | succ k ih =>
    obtain ⟨levels, rfl⟩ := Nat.exists_eq_add_one.mpr (Nat.lt_of_lt_of_le k.succ_pos hl)
    obtain ⟨depth, rfl⟩ := Nat.exists_eq_add_one.mpr (Nat.lt_of_lt_of_le k.succ_pos hd)
    have hinner := ih levels depth (by omega) (by omega) (by omega)
    rw [Function.iterate_succ_apply', expressionTo_eq_level]
    refine below_level (below_sum hinner (fun _ => gives_expressionTo depth) bottom hr) ?_ hinner
    exact shortens_of_reads fun _ => gives_sum fun _ => gives_expressionTo depth

/-- With more rounds than tokens, an expression is what it is with any number of them. -/
theorem unrolledExpression_eq (bottom : Bottom) {rounds : Nat} (h : p.rest.length < rounds) :
    unrolledExpression bottom rounds p = expression p := by
  have hbelow := below_expressionTo bottom rounds (p.rest.length + 1) rounds (p.rest.length + 1) h h
    (Nat.le_refl _)
  exact hbelow p (Nat.lt_succ_self _)

theorem shortens_expression : Shortens expression :=
  shortens_of_reads fun _ => gives_expression

/-- Each statement takes a token. -/
theorem below_statementsTo (bottom : Bottom) (rounds k statements count : Nat) (hr : k ≤ rounds)
    (hs : k ≤ statements) (hc : k ≤ count) :
    Below k ((statementRound (unrolledExpression bottom rounds))^[statements]
      bottom.statements) (statementsTo count) := by
  induction k generalizing statements count with
  | zero => exact .zero
  | succ k ih =>
    obtain ⟨statements, rfl⟩ := Nat.exists_eq_add_one.mpr (Nat.lt_of_lt_of_le k.succ_pos hs)
    obtain ⟨count, rfl⟩ := Nat.exists_eq_add_one.mpr (Nat.lt_of_lt_of_le k.succ_pos hc)
    have hmore := ih statements count (by omega) (by omega) (by omega)
    rw [Function.iterate_succ_apply', statementsTo_eq_statementRound]
    intro p hp
    refine bind_congr_at rfl fun b q hb => ?_
    obtain ⟨rfl, t, us, hus, rfl⟩ := gives_isAt b q hb
    split
    · rfl
    · refine bind_congr_at (unrolledExpression_eq bottom (by omega)) fun first r hfirst => ?_
      have hshorter := shortens_expression q first r hfirst
      refine bind_congr_at rfl fun b r' hb => ?_
      obtain ⟨rfl, v, vs, hvs, rfl⟩ := gives_isAt b r' hb
      split
      · next hsemi =>
        have hsemi : v.kind = .semicolon := of_decide_eq_true hsemi
        refine bind_congr_at rfl fun t' u hu => ?_
        rw [advance_cons hvs (by simp [hsemi])] at hu
        cases hu
        rw [hvs, List.length_cons] at hshorter
        exact bind_congr_at (hmore _ (by change vs.length < k; omega)) fun _ _ _ => rfl
      · refine bind_congr_at rfl fun b r hb => ?_
        obtain ⟨rfl, -⟩ := gives_isAt b r hb
        split
        · refine bind_congr_at rfl fun _ _ _ => ?_
          refine bind_congr_at rfl fun _ _ _ => ?_
          refine bind_congr_at rfl fun _ _ hreject => ?_
          cases hreject
        · exact bind_congr_at (hmore _ (by omega)) fun _ _ _ => rfl

/-- With more rounds than tokens, a program is what it is with any number of them. -/
theorem unrolledProgram_eq (bottom : Bottom) {rounds : Nat} (h : p.rest.length < rounds) :
    unrolledProgram bottom rounds p = program p := by
  refine bind_congr_at rfl fun t q hq => ?_
  obtain ⟨rfl, -⟩ := gives_peek t q hq
  refine bind_congr_at rfl fun start r hr => ?_
  obtain ⟨-, rfl⟩ := gives_check _ start r hr
  have hbelow := below_statementsTo bottom rounds (r.rest.length + 1) rounds (r.rest.length + 1) h h
    (Nat.le_refl _)
  exact bind_congr_at (hbelow r (Nat.lt_succ_self _)) fun _ _ _ => rfl

end Parser

end ArithJit
