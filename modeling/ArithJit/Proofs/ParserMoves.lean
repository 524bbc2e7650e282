import ArithJit.Proofs.Grammar
import Mathlib.Logic.Relation

/-!
# Proofs: the moves of the parser

However the functions of the parser call one another, what they do to the parser is a sequence of moves of four
kinds: a sign is taken, a number or a name is turned into a leaf, two nodes are joined by an operator. The
nodes that wait for their operator, for a closing parenthesis or for the end of the program form a stack
(`Parser.Move`). A run that fails has made such moves too, and may have taken one more token (`Parser.Quits`).
It ends with a fault only if the token in front of it is missing or not sound (`Parser.Abandons`).

So what each move preserves holds of all that is parsed, whether parsing succeeds or not.
-/

namespace ArithJit

/-- The column after the token is a machine word, and a number consists of digits and underscores. -/
structure Token.Sound (t : Token) : Prop where
  fits : t.Fits
  digits : t.kind = .integer → ∀ c ∈ t.lexeme.toList, Lexer.continuesNumber c = true

namespace Parser

open Relation (ReflTransGen)

variable {α β : Type} {x : Parse α} {f : α → Parse β} {p q r : Parser} {Q Q' : α → Parser → Prop}
  {R : β → Parser → Prop} {E : Failure → Parser → Prop} {t : Token} {us : List Token} {left : NodeId}
  {stack : List NodeId}

/-! ## Moves -/

/-- A parser with the nodes that wait, the last one first. -/
abbrev Stacked := Parser × List NodeId

/-- What the parser does at a time. -/
inductive Move : Stacked → Stacked → Prop where
  /-- A token that is neither a number nor a name is taken. -/
  | sign {p : Parser} {t : Token} {us : List Token} {stack : List NodeId} (next : p.rest = t :: us)
      (kind : t.kind ≠ .endOfInput ∧ t.kind ≠ .integer ∧ t.kind ≠ .identifier) :
      Move (p, stack) ({ p with rest := us }, stack)
  /-- A number becomes a leaf. -/
  | number {p : Parser} {t : Token} {us : List Token} {stack : List NodeId} {span : Span}
      (next : p.rest = t :: us)
      (kind : t.kind = .integer) (small : t.number ≤ largestLiteral) (placed : t.span = .ok span) :
      Move (p, stack) (withNode { p with rest := us } (.literal (.integer (Int32.ofNat t.number))) span,
        ⟨p.forest.size⟩ :: stack)
  /-- A name becomes a leaf. -/
  | name {p : Parser} {t : Token} {us : List Token} {stack : List NodeId} {span : Span}
      (next : p.rest = t :: us) (kind : t.kind = .identifier) (placed : t.span = .ok span) :
      Move (p, stack) (withNode { p with rest := us, symbols := (p.symbols.intern t.lexeme).2 }
        (.name (p.symbols.intern t.lexeme).1) span, ⟨p.forest.size⟩ :: stack)
  /-- The last two nodes are joined. -/
  | join (p : Parser) (left right : NodeId) (op : Operator) (stack : List NodeId) :
      Move (p, right :: left :: stack) (p.withNode (.binary left op right)
        ((p.forest.span left).merge (p.forest.span right)), ⟨p.forest.size⟩ :: stack)

/-- Some moves, one after the other. -/
abbrev Moves : Stacked → Stacked → Prop :=
  ReflTransGen Move

/-- What each move preserves, moves preserve. -/
theorem Moves.preserve {I : Stacked → Prop} {c d : Stacked} (h : Moves c d)
    (hstep : ∀ c d, Move c d → I c → I d) (hc : I c) : I d := by
  induction h with
  | refl => exact hc
  | tail _ hmove ih => exact hstep _ _ hmove ih

/-- How a run that fails may leave the parser: a token was taken of which no leaf was made. -/
inductive Quits : Parser → Parser → Prop where
  | here (p : Parser) : Quits p p
  | token {p : Parser} {t : Token} {us : List Token} (next : p.rest = t :: us) (kind : t.kind ≠ .endOfInput) :
      Quits p { p with rest := us }
  | name {p : Parser} {t : Token} {us : List Token} (next : p.rest = t :: us) (kind : t.kind = .identifier) :
      Quits p { p with rest := us, symbols := (p.symbols.intern t.lexeme).2 }

/-- Some moves were made from `c`, and then the parser failed and was left as `q`. If it faulted, then the token
in front of it was missing or not sound. -/
def Abandons (c : Stacked) (f : Failure) (q : Parser) : Prop :=
  ∃ r stack, Moves c (r, stack) ∧ Quits r q ∧ ∀ x, f = .fault x → ∀ t us, r.rest = t :: us → ¬ t.Sound

theorem Abandons.from {c d : Stacked} {f : Failure} (h : Abandons d f q) (hc : Moves c d) : Abandons c f q := by
  obtain ⟨r, stack, hmoves, hrest⟩ := h
  exact ⟨r, stack, hc.trans hmoves, hrest⟩

/-- What a step gives may be used, too. -/
theorem Gives.runs (hg : Gives x p Q') (hx : Runs x p Q E) : Runs x p (fun a q => Q a q ∧ Q' a q) E := by
  rw [Runs] at hx ⊢
  cases h : x p with
  | ok a q =>
    rw [h] at hx
    exact ⟨hx, hg a q h⟩
  | error e q =>
    rw [h] at hx
    exact hx

/-! ## Reading tokens -/

section Steps

variable {c : Stacked} (hc : Moves c (p, stack))

include hc

theorem runs_peek : Runs peek p (fun t q => q = p ∧ ∃ us, p.rest = t :: us) (Abandons c) := by
  cases hrest : p.rest with
  | cons t us => exact .of_ok (peek_cons hrest) ⟨rfl, us, rfl⟩
  | nil =>
    refine .of_error (peek_nil hrest) ⟨p, stack, hc, .here p, fun _ _ t us hus => ?_⟩
    rw [hrest] at hus
    cases hus

theorem runs_isAt (kind : Token.Kind) : Runs (isAt kind) p
    (fun b q => q = p ∧ ∃ t us, p.rest = t :: us ∧ b = decide (t.kind = kind)) (Abandons c) :=
  (runs_peek hc).bind fun t _ hq => .of_ok rfl ⟨hq.1, t, hq.2.choose, hq.2.choose_spec, rfl⟩

theorem runs_reject (hq : Quits p q) (e : Error) : Runs (reject e) q Q (Abandons c) :=
  .of_error rfl ⟨p, stack, hc, hq, nofun⟩

/-- What stands behind a rejection is not carried out. -/
theorem runs_reject_bind (hq : Quits p q) (e : Error) : Runs (reject e >>= f) q R (Abandons c) :=
  (runs_reject hc hq e (Q := fun _ _ => False)).bind fun _ _ hfalse => hfalse.elim

variable (ht : p.rest = t :: us)

include ht

/-- What is sure of a sound token can only fault at one that is not sound. -/
theorem runs_check {y : Except Fault α} (hq : Quits p q) (hy : t.Sound → ∃ a, y = .ok a) :
    Runs (check y) q (fun a r => y = .ok a ∧ r = q) (Abandons c) := by
  cases h : y with
  | ok a => exact .of_ok rfl ⟨rfl, rfl⟩
  | error e =>
    refine .of_error rfl ⟨p, stack, hc, hq, fun _ _ u vs hvs hsound => ?_⟩
    obtain rfl : t = u := (List.cons.inj (ht.symm.trans hvs)).1
    obtain ⟨a, ha⟩ := hy hsound
    rw [h] at ha
    cases ha

/-- A sound token has a span. -/
theorem runs_span (hq : Quits p q) :
    Runs (check t.span) q (fun span r => t.span = .ok span ∧ r = q) (Abandons c) :=
  runs_check hc ht hq fun hsound => t.span_eq_ok.mpr hsound.fits

theorem runs_unexpected (hq : Quits p q) (expected : String) :
    Runs (unexpected t expected) q Q (Abandons c) := by
  refine (runs_span hc ht hq).bind fun span r hr => ?_
  obtain ⟨-, rfl⟩ := hr
  exact runs_reject hc hq _

/-- A sound number is read, unless it is too large. -/
theorem runs_integerValue (hq : Quits p q) (hkind : t.kind = .integer) : Runs (integerValue t) q
    (fun value r => r = q ∧ value = Int32.ofNat t.number ∧ t.number ≤ largestLiteral) (Abandons c) := by
  have hdigits : t.Sound → ∃ m, readDigits 0 (t.lexeme.toList.filter (· ≠ '_')) = .ok m :=
    fun hsound => readDigits_digits 0 (isDigit_of_continuesNumber (hsound.digits hkind))
  have hruns : Runs (integerValue t) q (fun _ r => r = q) (Abandons c) := by
    refine (runs_check hc ht hq hdigits).bind fun m r hr => ?_
    obtain ⟨-, rfl⟩ := hr
    cases m with
    | none =>
      refine (runs_span hc ht hq).bind fun span u hu => ?_
      obtain ⟨-, rfl⟩ := hu
      exact runs_reject hc hq _
    | some n => exact .of_ok rfl rfl
  exact (gives_integerValue.runs hruns).mono (fun _ _ h => ⟨h.1, h.2.2⟩) fun _ _ h => h

end Steps

/-! ## The grammar -/

/-- From any stack, the step moves to one more node on it, which is its result. -/
def Pushes (x : Parse NodeId) : Prop :=
  ∀ p stack, Runs x p (fun id q => Moves (p, stack) (q, id :: stack)) (Abandons (p, stack))

/-- A step of this kind may come after other moves. -/
theorem Pushes.runs {x : Parse NodeId} (hx : Pushes x) {c : Stacked} (hc : Moves c (p, stack)) :
    Runs x p (fun id q => Moves c (q, id :: stack)) (Abandons c) :=
  (hx p stack).mono (fun _ _ h => hc.trans h) fun _ _ h => h.from hc

theorem pushes_primary {inner : Parse NodeId} (hi : Pushes inner) : Pushes (primary inner) := by
  intro p stack
  have hstart : Moves (p, stack) (p, stack) := .refl
  cases hrest : p.rest with
  | nil =>
    have hadvance : Runs advance p (fun _ _ => False) (Abandons (p, stack)) := by
      refine (runs_peek hstart).bind fun t q hq => ?_
      obtain ⟨us, hus⟩ := hq.2
      rw [hrest] at hus
      cases hus
    exact hadvance.bind fun _ _ hfalse => hfalse.elim
  | cons t us =>
    by_cases hend : t.kind = .endOfInput
    · refine .after (advance_end hrest hend) ?_
      rw [hend]
      exact runs_unexpected hstart hrest (.here p) _
    · have hquits : Quits p { p with rest := us } := .token hrest hend
      refine .after (advance_cons hrest hend) ?_
      split
      · next hkind =>
        refine (runs_integerValue hstart hrest hquits hkind).bind fun value q hvalue => ?_
        obtain ⟨rfl, rfl, hle⟩ := hvalue
        refine (runs_span hstart hrest hquits).bind fun span q hspan => ?_
        obtain ⟨hspan, rfl⟩ := hspan
        exact .of_ok (addNode_apply _ _) (.single (.number hrest hkind hle hspan))
      · next hkind =>
        refine .after rfl ?_
        refine (runs_span hstart hrest (.name hrest hkind)).bind fun span q hspan => ?_
        obtain ⟨hspan, rfl⟩ := hspan
        exact .of_ok (addNode_apply _ _) (.single (.name hrest hkind hspan))
      · next hkind =>
        have hopen : Moves (p, stack) ({ p with rest := us }, stack) := .single (.sign hrest (by simp [hkind]))
        refine (hi.runs hopen).bind fun id q hid => ?_
        refine Runs.bind (Q := fun _ r => Moves (p, stack) (r, id :: stack)) ?_ fun _ r hr => .of_ok rfl hr
        refine (runs_peek hid).bind fun v r hv => ?_
        obtain ⟨rfl, vs, hvs⟩ := hv
        split
        · next hclosing =>
          exact .of_ok (advance_cons hvs (by simp [hclosing])) (hid.tail (.sign hvs (by simp [hclosing])))
        · exact runs_unexpected hid hvs (.here r) _
      · exact runs_unexpected hstart hrest hquits _

section Chain

variable {operand : Parse NodeId} {operator? : Token.Kind → Option Arithmetic}

/-- A chain moves over a sign and an operand, and joins what it has with the operand. -/
theorem runs_chainFrom
    (hs : ∀ kind op, operator? kind = some op → kind ≠ .endOfInput ∧ kind ≠ .integer ∧ kind ≠ .identifier)
    (ho : Pushes operand) (length : Nat) {c : Stacked} (hc : Moves c (p, left :: stack)) :
    Runs (chainFrom operator? operand length left) p (fun id q => Moves c (q, id :: stack)) (Abandons c) := by
  induction length generalizing p left with
  | zero => exact .of_ok rfl hc
  | succ length ih =>
    refine (runs_peek hc).bind fun t q hq => ?_
    obtain ⟨rfl, us, hus⟩ := hq
    split
    · exact .of_ok rfl hc
    · next op hop =>
      have hsign := hs t.kind op hop
      refine .after (advance_cons hus hsign.1) ?_
      refine (ho.runs (hc.tail (.sign hus hsign))).bind fun right r hright => ?_
      exact .after (t := r.withNode _ _) rfl (ih (hright.tail (.join r left right _ stack)))

theorem pushes_chain
    (hs : ∀ kind op, operator? kind = some op → kind ≠ .endOfInput ∧ kind ≠ .integer ∧ kind ≠ .identifier)
    (ho : Pushes operand) : Pushes (chain operator? operand) := by
  intro p stack
  refine (ho p stack).bind fun left q hq => ?_
  exact .after (get_apply q) (runs_chainFrom hs ho _ hq)

end Chain

theorem pushes_sum {inner : Parse NodeId} (hi : Pushes inner) : Pushes (sum inner) :=
  pushes_chain isChain_sum.sign (pushes_chain isChain_product.sign (pushes_primary hi))

theorem pushes_expressionTo (depth : Nat) : Pushes (expressionTo depth) := by
  induction depth with
  | zero =>
    intro p stack
    refine (runs_peek .refl).bind fun t q hq => ?_
    obtain ⟨rfl, us, hus⟩ := hq
    exact runs_unexpected .refl hus (.here q) _
  | succ depth ih =>
    intro p stack
    refine (pushes_sum ih p stack).bind fun target q hq => ?_
    refine (runs_isAt hq .equal).bind fun b r hb => ?_
    obtain ⟨rfl, t, us, hus, rfl⟩ := hb
    by_cases hkind : t.kind = .equal
    · simp only [hkind, decide_true, Bool.not_true, Bool.false_eq_true, if_false]
      have hend : t.kind ≠ .endOfInput := by simp [hkind]
      refine .after (advance_cons hus hend) ?_
      refine .after (isName_apply target) ?_
      split
      · refine .after (get_apply _) ?_
        refine (runs_span hq hus (.token hus hend)).bind fun span u hspan => ?_
        obtain ⟨-, rfl⟩ := hspan
        exact runs_reject_bind hq (.token hus hend) _
      · refine (ih.runs (hq.tail (.sign hus (by simp [hkind])))).bind fun value u hvalue => ?_
        exact .of_ok rfl (hvalue.tail (.join u target value .assign stack))
    · simp only [hkind, decide_false, Bool.not_false, if_true]
      exact .of_ok rfl hq

theorem pushes_expression : Pushes expression :=
  fun p stack => .after (get_apply p) (pushes_expressionTo _ p stack)

/-- The statements of a program are pushed one after the other. -/
theorem runs_statementsTo (count : Nat) {c : Stacked} (hc : Moves c (p, stack)) :
    Runs (statementsTo count) p (fun ids q => Moves c (q, ids.reverse ++ stack)) (Abandons c) := by
  induction count generalizing p stack with
  | zero => exact .of_ok rfl hc
  | succ count ih =>
    refine (runs_isAt hc .endOfInput).bind fun b q hb => ?_
    obtain ⟨rfl, t, us, hus, rfl⟩ := hb
    split
    · exact .of_ok rfl hc
    · refine (pushes_expression.runs hc).bind fun first q hfirst => ?_
      -- however the expression ends, the others follow
      have hothers : ∀ r, Moves c (r, first :: stack) → Runs (do return first :: (← statementsTo count)) r
          (fun ids q => Moves c (q, ids.reverse ++ stack)) (Abandons c) := by
        intro r hr
        refine (ih hr).bind fun ids u hids => ?_
        rw [List.append_cons, ← List.reverse_cons] at hids
        exact .of_ok rfl hids
      refine (runs_isAt hfirst .semicolon).bind fun b r hb => ?_
      obtain ⟨rfl, v, vs, hvs, rfl⟩ := hb
      split
      · next hsemi =>
        have hsemi : v.kind = .semicolon := of_decide_eq_true hsemi
        refine .after (advance_cons hvs (by simp [hsemi])) ?_
        exact hothers _ (hfirst.tail (.sign hvs (by simp [hsemi])))
      · refine .after (isAt_cons hvs .endOfInput) ?_
        split
        · refine .after (peek_cons hvs) ?_
          refine (runs_span hfirst hvs (.here r)).bind fun span u hspan => ?_
          obtain ⟨-, rfl⟩ := hspan
          exact runs_reject_bind hfirst (.here u) _
        · exact hothers r hfirst

/-- Moves have led from `p` to the end of the input, and then the nodes on the stack were made a block, from the
first token to the end of the input. -/
structure Closes (p : Parser) (root : NodeId) (q : Parser) (ids : List NodeId) (r : Parser) : Prop where
  moves : Moves (p, []) (r, ids.reverse)
  root : root = ⟨r.forest.size⟩
  closed : ∃ first vs stop us start last, p.rest = first :: vs ∧ first.span = .ok start ∧ r.rest = stop :: us ∧
    stop.kind = .endOfInput ∧ stop.span = .ok last ∧ q = r.withNode (.block ids) (start.merge last)

theorem runs_program (p : Parser) :
    Runs program p (fun root q => ∃ ids r, Closes p root q ids r) (Abandons (p, [])) := by
  refine (runs_peek .refl).bind fun first q hq => ?_
  obtain ⟨rfl, vs, hvs⟩ := hq
  refine (runs_span .refl hvs (.here q)).bind fun start q' hstart => ?_
  obtain ⟨hstart, rfl⟩ := hstart
  refine .after (get_apply q') ?_
  refine ((gives_statementsTo (Nat.lt_succ_self _)).runs (runs_statementsTo _ .refl)).bind fun ids r hids => ?_
  obtain ⟨hmoves, -, -, -, -, -, -, -, -, stop, us, hus, hend⟩ := hids
  rw [List.append_nil] at hmoves
  refine .after (peek_cons hus) ?_
  refine (runs_span hmoves hus (.here r)).bind fun last u hlast => ?_
  obtain ⟨hlast, rfl⟩ := hlast
  exact .of_ok (addNode_apply _ _)
    ⟨ids, u, hmoves, rfl, first, vs, stop, us, start, last, hvs, hstart, hus, hend, hlast, rfl⟩

end Parser

end ArithJit
