import ArithJit.Proofs.CodeSize
import ArithJit.Proofs.Interning
import ArithJit.Proofs.Tokens
import Mathlib.Data.List.Forall2

/-!
# Proofs: parsing

What the parser builds. Reading a program ends with a block of expressions, or with an error of the
program; it never faults, unless the text is longer than there are columns. The expressions have at most
as many tokens as the text. Nodes and names that were there before stay.
-/

namespace ArithJit

/-! ## Adding nodes -/

theorem Forest.get?_add_self (f : Forest) (node : Node) (span : Span) :
    (f.add node span).2.get? ⟨f.size⟩ = some node := by
  simp [Forest.add, Forest.get?, Forest.size]

theorem Forest.extends_add (f : Forest) (node : Node) (span : Span) : f.Extends (f.add node span).2 := by
  intro id old hold
  have hlt := Forest.index_lt_size hold
  rw [Forest.size] at hlt
  rw [Forest.get?] at hold ⊢
  rw [Forest.add, Array.getElem?_push_lt hlt, ← Array.getElem?_eq_getElem hlt]
  exact hold

namespace Parser

variable {α β : Type} {n k l : Nat} {p q r : Parser} {t : Token} {x : Parse α} {f : α → Parse β}
  {Q Q' : α → Parser → Prop} {R : β → Parser → Prop}

/-! ## Runs of a parser -/

/-- Why a parser gives up: for an error of the program, or because the text is too long. -/
def Rejects (n : Nat) (f : Failure) : Prop :=
  (∃ e, f = .error e ∧ e.stage = .parsing) ∨ (wordCount ≤ n + 1 ∧ ∃ x, f = .fault x)

/-- From the parser `p`, the step `x` ends with a result and a parser as `Q` says, or gives up. -/
def Ends (n : Nat) (x : Parse α) (p : Parser) (Q : α → Parser → Prop) : Prop :=
  match x p with
  | .ok a q => Q a q
  | .error f _ => Rejects n f

theorem Ends.bind (hx : Ends n x p Q) (hf : ∀ a q, Q a q → Ends n (f a) q R) : Ends n (x >>= f) p R := by
  simp only [Ends, Bind.bind, EStateM.bind]
  rw [Ends] at hx
  cases h : x p with
  | ok a q =>
    rw [h] at hx
    exact hf a q hx
  | error e q =>
    rw [h] at hx
    exact hx

theorem Ends.mono (hx : Ends n x p Q) (h : ∀ a q, Q a q → Q' a q) : Ends n x p Q' := by
  rw [Ends] at hx ⊢
  split at hx
  · exact h _ _ hx
  · exact hx

/-- A parser in front of the tokens of a text with `n` characters. -/
structure Ready (n : Nat) (p : Parser) : Prop where
  ended : Ended p.rest
  within : ∀ t ∈ p.rest, t.Within n

/-- The parser `q` was reached from `p` by reading at least `k` tokens. -/
structure Advances (n : Nat) (p q : Parser) (k : Nat) : Prop where
  ready : q.Ready n
  forest : p.forest.Extends q.forest
  symbols : p.symbols.names <+: q.symbols.names
  rest : q.rest.length + k ≤ p.rest.length

theorem Advances.refl (h : p.Ready n) : Advances n p p 0 :=
  ⟨h, .refl _, List.prefix_refl _, Nat.le_refl _⟩

theorem Advances.trans (h : Advances n p q k) (h' : Advances n q r l) : Advances n p r (k + l) := by
  have hrest := h.rest
  have hrest' := h'.rest
  exact ⟨h'.ready, h.forest.trans h'.forest, h.symbols.trans h'.symbols, by omega⟩

/-! ## Reading tokens -/

theorem ends_check (h : t.Within n) : Ends n (check t.span) p fun _ q => q = p := by
  rcases h.span with ⟨span, hspan⟩ | ⟨hlong, x, hspan⟩
  · rw [hspan]
    exact rfl
  · rw [hspan]
    exact Or.inr ⟨hlong, x, rfl⟩

theorem ends_reject {e : Error} (he : e.stage = .parsing) : Ends n (reject e) p Q :=
  Or.inl ⟨e, rfl, he⟩

theorem ends_unexpected (h : t.Within n) (expected : String) : Ends n (unexpected t expected) p Q :=
  (ends_check h).bind fun _ _ _ => ends_reject rfl

theorem ends_peek (h : p.Ready n) : Ends n peek p fun t q => q = p ∧ p.rest.head? = some t := by
  obtain ⟨t, rest, hrest⟩ := h.ended.exists_cons
  simp only [Ends, peek, Bind.bind, EStateM.bind, get_apply, hrest]
  exact ⟨rfl, rfl⟩

theorem Ready.head (h : p.Ready n) (ht : p.rest.head? = some t) : t.Within n :=
  h.within t (List.mem_of_head? ht)

theorem ends_isName (p : Parser) (id : NodeId) :
    Ends n (isName id) p fun b q => q = p ∧ b = (p.forest.get? id).any Node.isName :=
  ⟨rfl, rfl⟩

theorem ends_isAt (h : p.Ready n) (kind : Token.Kind) : Ends n (isAt kind) p fun b q =>
    q = p ∧ ∃ t, p.rest.head? = some t ∧ b = decide (t.kind = kind) :=
  (ends_peek h).bind fun t _ hq => ⟨hq.1, t, hq.2, rfl⟩

/-- The end of the input is not taken away. -/
theorem ends_advance (h : p.Ready n) : Ends n advance p fun t q =>
    p.rest.head? = some t ∧ Advances n p q 0 ∧ (t.kind ≠ .endOfInput → Advances n p q 1) := by
  refine (ends_peek h).bind fun t q hq => ?_
  obtain ⟨rfl, ht⟩ := hq
  by_cases hend : t.kind = .endOfInput
  · rw [if_neg (not_not_intro hend)]
    exact ⟨ht, .refl h, fun hne => absurd hend hne⟩
  · rw [if_pos hend]
    obtain ⟨ts, hrest⟩ : ∃ ts, q.rest = t :: ts := List.head?_eq_some_iff.mp ht
    have hready : Ready n { q with rest := q.rest.tail } := by
      refine ⟨?_, fun u hu => h.within u (List.mem_of_mem_tail hu)⟩
      have hended := h.ended
      rw [hrest] at hended ⊢
      cases hended with
      | stop kind => exact absurd kind hend
      | more _ rest => exact rest
    have hstep : Advances n q { q with rest := q.rest.tail } 1 :=
      ⟨hready, .refl _, List.prefix_refl _, by simp [hrest]⟩
    exact ⟨ht, ⟨hready, .refl _, List.prefix_refl _, by simp⟩, fun _ => hstep⟩

theorem ends_expect (h : p.Ready n) (kind : Token.Kind) :
    Ends n (expect kind) p fun _ q => Advances n p q 0 := by
  refine (ends_peek h).bind fun t q hq => ?_
  obtain ⟨rfl, ht⟩ := hq
  split
  · exact (ends_advance h).mono fun _ _ hq => hq.2.1
  · exact ends_unexpected (h.head ht) _

/-! ## Adding to the forest -/

theorem ends_addNode (h : p.Ready n) (node : Node) (span : Span) : Ends n (addNode node span) p fun id q =>
    Advances n p q 0 ∧ id.index = p.forest.size ∧ q.forest.get? id = some node :=
  ⟨⟨⟨h.ended, h.within⟩, p.forest.extends_add node span, List.prefix_refl _, Nat.le_refl _⟩, rfl,
    p.forest.get?_add_self node span⟩

theorem ends_internName (h : p.Ready n) (name : String) :
    Ends n (internName name) p fun _ q => Advances n p q 0 :=
  ⟨⟨h.ended, h.within⟩, .refl _, p.symbols.names_intern name, Nat.le_refl _⟩

/-- The node was built for an expression, of which at least the tokens were read. -/
def Parsed (n : Nat) (p : Parser) (id : NodeId) (q : Parser) : Prop :=
  ∃ e : Expr, Advances n p q e.size ∧ q.forest.Holds id e

theorem Parsed.of_advances {id : NodeId} (h : Advances n p q k) (h' : Parsed n q id r) : Parsed n p id r := by
  obtain ⟨e, he, hholds⟩ := h'
  have hall := h.trans he
  have hrest := hall.rest
  exact ⟨e, ⟨hall.ready, hall.forest, hall.symbols, by omega⟩, hholds⟩

theorem Parsed.advances {id : NodeId} (h : Parsed n p id q) (h' : Advances n q r k) : Parsed n p id r := by
  obtain ⟨e, he, hholds⟩ := h
  have hall := he.trans h'
  have hrest := hall.rest
  exact ⟨e, ⟨hall.ready, hall.forest, hall.symbols, by omega⟩, hholds.mono h'.forest⟩

theorem Parsed.ready {id : NodeId} (h : Parsed n p id q) : q.Ready n := by
  obtain ⟨e, he, -⟩ := h
  exact he.ready

/-- Two operands, and a token for the operator between them. -/
theorem ends_addBinary_arithmetic {left right : NodeId} {q' : Parser} {op : Arithmetic}
    (hl : Parsed n p left q) (ht : Advances n q q' 1) (hr : Parsed n q' right r) :
    Ends n (addBinary left (.arithmetic op) right) r (Parsed n p) := by
  obtain ⟨l, hal, hleft⟩ := hl
  obtain ⟨e, har, hright⟩ := hr
  have hleft' := (hleft.mono ht.forest).mono har.forest
  refine (ends_addNode har.ready _ _).mono fun id r' h => ?_
  obtain ⟨hr', hid, hnode⟩ := h
  have hall := ((hal.trans ht).trans har).trans hr'
  have hrest := hall.rest
  refine ⟨.arithmetic op l e, ⟨hall.ready, hall.forest, hall.symbols, ?_⟩, ?_⟩
  · rw [Expr.size]
    omega
  · exact .arithmetic hnode (hid ▸ hleft'.index_lt) (hid ▸ hright.index_lt) (hleft'.mono hr'.forest)
      (hright.mono hr'.forest)

/-- A name, the sign and an expression. -/
theorem ends_addBinary_assign {left right : NodeId} {q' : Parser}
    (hl : Parsed n p left q) (ht : Advances n q q' 1)
    (hname : (q'.forest.get? left).any Node.isName = true) (hr : Parsed n q' right r) :
    Ends n (addBinary left .assign right) r (Parsed n p) := by
  obtain ⟨x, hx⟩ : ∃ x, q'.forest.get? left = some (.name x) := by
    cases hnode : q'.forest.get? left with
    | none => simp [hnode] at hname
    | some node => cases node <;> simp_all [Node.isName]
  obtain ⟨l, hal, hleft⟩ := hl
  obtain ⟨e, har, hright⟩ := hr
  have hone : 1 ≤ l.size := by cases l <;> simp [Expr.size]
  refine (ends_addNode har.ready _ _).mono fun id r' h => ?_
  obtain ⟨hr', hid, hnode⟩ := h
  have hall := ((hal.trans ht).trans har).trans hr'
  have hrest := hall.rest
  refine ⟨.assign x e, ⟨hall.ready, hall.forest, hall.symbols, ?_⟩, ?_⟩
  · rw [Expr.size]
    omega
  · exact .assign hnode (hr'.forest _ _ (har.forest _ _ hx)) (hid ▸ hright.index_lt)
      (hright.mono hr'.forest)

/-! ## Literals -/

/-- Digits are read without a fault. -/
theorem readDigits_digits (value : Int32) {cs : List Char} (h : ∀ c ∈ cs, Lexer.isDigit c = true) :
    ∃ m, readDigits value cs = .ok m := by
  induction cs generalizing value with
  | nil => exact ⟨_, rfl⟩
  | cons c cs ih =>
    have hdigit : digit? c = some (c.toNat - '0'.toNat) := by rw [digit?, if_pos (h c (by simp))]
    rw [readDigits, hdigit]
    simp only
    split
    · exact ⟨_, rfl⟩
    · exact ih _ fun d hd => h d (by simp [hd])

/-- Without its underscores, a number consists of digits. -/
theorem isDigit_of_continuesNumber {cs : List Char} (h : ∀ c ∈ cs, Lexer.continuesNumber c = true) :
    ∀ c ∈ cs.filter (· ≠ '_'), Lexer.isDigit c = true := by
  intro c hc
  obtain ⟨hmem, hne⟩ := List.mem_filter.mp hc
  simpa [Lexer.continuesNumber, of_decide_eq_true hne] using h c hmem

theorem ends_integerValue (h : t.Within n) (hkind : t.kind = .integer) :
    Ends n (integerValue t) p fun _ q => q = p := by
  obtain ⟨m, hm⟩ := readDigits_digits 0 (isDigit_of_continuesNumber (h.number hkind))
  rw [integerValue, hm]
  cases m with
  | none => exact (ends_check h).bind fun _ _ _ => ends_reject rfl
  | some m => exact rfl

/-! ## The grammar -/

section Grammar

variable {operand : Parse NodeId} {left : NodeId}

theorem ends_primary {expression : Parse NodeId} (he : ∀ p, p.Ready n → Ends n expression p (Parsed n p))
    (h : p.Ready n) : Ends n (primary expression) p (Parsed n p) := by
  refine (ends_advance h).bind fun t q hq => ?_
  obtain ⟨hhead, -, hq⟩ := hq
  have ht := h.head hhead
  split
  · next hkind =>
    have hq := hq (by simp [hkind])
    refine (ends_integerValue ht hkind).bind fun value q' hq' => ?_
    subst hq'
    refine (ends_check ht).bind fun span q' hq' => ?_
    subst hq'
    refine (ends_addNode hq.ready _ _).mono fun id r hr => ?_
    exact ⟨.literal value, hq.trans hr.1, .literal hr.2.2⟩
  · next hkind =>
    have hq := hq (by simp [hkind])
    refine (ends_internName hq.ready _).bind fun symbol q' hq' => ?_
    refine (ends_check ht).bind fun span q'' hq'' => ?_
    subst hq''
    refine (ends_addNode hq'.ready _ _).mono fun id r hr => ?_
    exact ⟨.name symbol, (hq.trans hq').trans hr.1, .name hr.2.2⟩
  · next hkind =>
    have hq := hq (by simp [hkind])
    refine (he q hq.ready).bind fun inner q' hq' => ?_
    refine (ends_expect hq'.ready _).bind fun _ r hr => ?_
    exact (hq'.advances hr).of_advances hq
  · exact ends_unexpected ht _

/-- A chain grows by one operator and one operand at a time. -/
theorem ends_chainFrom {operator? : Token.Kind → Option Arithmetic} (hend : operator? .endOfInput = none)
    (ho : ∀ p, p.Ready n → Ends n operand p (Parsed n p)) (length : Nat) (h : Parsed n p left q) :
    Ends n (chainFrom operator? operand length left) q (Parsed n p) := by
  induction length generalizing left q with
  | zero => exact h
  | succ length ih =>
    refine (ends_peek h.ready).bind fun t q' hq' => ?_
    obtain ⟨rfl, ht⟩ := hq'
    split
    · exact h
    · next op hop =>
      refine (ends_advance h.ready).bind fun u r hr => ?_
      obtain ⟨hu, -, hr⟩ := hr
      obtain rfl : t = u := Option.some.inj (ht.symm.trans hu)
      have hne : t.kind ≠ .endOfInput := by
        intro hkind
        simp [hkind, hend] at hop
      refine (ho r (hr hne).ready).bind fun right r' hright => ?_
      refine (ends_addBinary_arithmetic h (hr hne) hright).bind fun id r'' hid => ?_
      exact ih hid

theorem ends_chain {operator? : Token.Kind → Option Arithmetic} (hend : operator? .endOfInput = none)
    (ho : ∀ p, p.Ready n → Ends n operand p (Parsed n p)) (h : p.Ready n) :
    Ends n (chain operator? operand) p (Parsed n p) :=
  (ho p h).bind fun _ _ hq => ends_chainFrom hend ho _ hq

theorem ends_sum {expression : Parse NodeId} (he : ∀ p, p.Ready n → Ends n expression p (Parsed n p))
    (h : p.Ready n) : Ends n (sum expression) p (Parsed n p) :=
  ends_chain rfl (fun _ h => ends_chain rfl (fun _ h => ends_primary he h) h) h

theorem ends_expressionTo (depth : Nat) (h : p.Ready n) : Ends n (expressionTo depth) p (Parsed n p) := by
  induction depth generalizing p with
  | zero =>
    refine (ends_peek h).bind fun t q hq => ?_
    exact ends_unexpected (h.head hq.2) _
  | succ depth ih =>
    refine (ends_sum (fun _ h => ih h) h).bind fun target q hq => ?_
    refine (ends_isAt hq.ready _).bind fun b q' hb => ?_
    obtain ⟨rfl, t, ht, rfl⟩ := hb
    by_cases hkind : t.kind = .equal
    · simp only [hkind, decide_true, Bool.not_true, Bool.false_eq_true, if_false]
      refine (ends_advance hq.ready).bind fun sign r hr => ?_
      obtain ⟨hsign, -, hr⟩ := hr
      obtain rfl : t = sign := Option.some.inj (ht.symm.trans hsign)
      have hr := hr (by simp [hkind])
      refine (ends_isName r target).bind fun b r' hb => ?_
      obtain ⟨rfl, rfl⟩ := hb
      split
      · -- the target of an assignment must be a name
        refine Ends.bind (Q := fun _ _ => True) trivial fun _ _ _ => ?_
        refine (ends_check (hq.ready.head ht)).bind fun _ _ _ => ?_
        exact (ends_reject (Q := fun _ _ => False) rfl).bind fun _ _ hfalse => hfalse.elim
      · next hname =>
        refine (ih hr.ready).bind fun value r'' hvalue => ?_
        exact ends_addBinary_assign hq hr (by simpa using hname) hvalue
    · simp only [hkind, decide_false, Bool.not_false, if_true]
      exact hq

theorem ends_expression (h : p.Ready n) : Ends n expression p (Parsed n p) :=
  Ends.bind (Q := fun _ q => q = p) rfl fun _ _ hq => by
    subst hq
    exact ends_expressionTo _ h

/-- The nodes were built for expressions, of which at least the tokens were read. -/
def ParsedAll (n : Nat) (p : Parser) (ids : List NodeId) (q : Parser) : Prop :=
  ∃ es : List Expr, Advances n p q (Expr.sizeAll es) ∧ List.Forall₂ q.forest.Holds ids es

theorem ends_statementsTo (count : Nat) (h : p.Ready n) :
    Ends n (statementsTo count) p (ParsedAll n p) := by
  induction count generalizing p with
  | zero => exact ⟨[], .refl h, .nil⟩
  | succ count ih =>
    refine (ends_isAt h _).bind fun b q hb => ?_
    obtain ⟨rfl, -⟩ := hb
    split
    · exact ⟨[], .refl h, .nil⟩
    · refine (ends_expression h).bind fun first r hr => ?_
      -- however the expression ends, the others follow
      have hrest : ∀ r', Advances n r r' 0 →
          Ends n (do return first :: (← statementsTo count)) r' (ParsedAll n q) := by
        intro r' hr'
        refine (ih hr'.ready).bind fun ids r'' hids => ?_
        obtain ⟨e, he, hfirst⟩ := hr
        obtain ⟨es, hes, hall⟩ := hids
        exact ⟨e :: es, (he.trans hr').trans hes, .cons ((hfirst.mono hr'.forest).mono hes.forest) hall⟩
      refine (ends_isAt hr.ready _).bind fun b r' hb => ?_
      obtain ⟨rfl, -⟩ := hb
      split
      · exact (ends_advance hr.ready).bind fun _ r'' hr'' => hrest r'' hr''.2.1
      · refine (ends_isAt hr.ready _).bind fun b r'' hb => ?_
        obtain ⟨rfl, -⟩ := hb
        split
        · refine (ends_peek hr.ready).bind fun t r' ht => ?_
          refine (ends_check (hr.ready.head ht.2)).bind fun _ _ _ => ?_
          exact (ends_reject (Q := fun _ _ => False) rfl).bind fun _ _ hfalse => hfalse.elim
        · exact hrest _ (.refl hr.ready)

/-- A program is a block of expressions. -/
theorem ends_program (h : p.Ready n) : Ends n program p fun root q => ∃ es : List Expr,
    q.forest.HoldsAll root es ∧ Expr.sizeAll es < p.rest.length ∧ p.symbols.names <+: q.symbols.names := by
  refine (ends_peek h).bind fun t q ht => ?_
  obtain ⟨rfl, ht⟩ := ht
  refine (ends_check (h.head ht)).bind fun start q' hq' => ?_
  subst hq'
  refine Ends.bind (Q := fun _ r => r = q') rfl fun _ r hr => ?_
  subst hr
  refine (ends_statementsTo _ h).bind fun ids r' hids => ?_
  obtain ⟨es, hes, hall⟩ := hids
  refine (ends_peek hes.ready).bind fun u r'' hu => ?_
  obtain ⟨rfl, hu⟩ := hu
  refine (ends_check (hes.ready.head hu)).bind fun stop r hr => ?_
  subst hr
  refine (ends_addNode hes.ready _ _).mono fun root q hq => ?_
  obtain ⟨hq, -, hnode⟩ := hq
  -- the end of the input is never taken, so the expressions have fewer tokens than there are
  have hlast : 0 < r.rest.length := List.length_pos_of_mem (List.mem_of_head? hu)
  have hrest := hes.rest
  exact ⟨es, ⟨ids, hnode, hall.imp fun _ _ he => he.mono hq.forest⟩, by omega, hes.symbols.trans hq.symbols⟩

end Grammar

end Parser

/-! ## Reading a program in a session -/

/-- What reading a text of `n` characters in the session `s` comes to. -/
def Session.Reads (s : Session) (n : Nat) : Except Failure NodeId × Session → Prop
  | (.error f, _) => (∃ e, f = .error e ∧ (e.stage = .lexing ∨ e.stage = .parsing)) ∨
      (wordCount ≤ n + 1 ∧ ∃ x, f = .fault x)
  | (.ok root, s') => ∃ es : List Expr, s'.forest.HoldsAll root es ∧ Expr.sizeAll es ≤ n ∧
      s'.options = s.options ∧ s'.bindings = s.bindings ∧ s.symbols.names <+: s'.symbols.names

theorem Session.reads_parse (s : Session) (source : String) : s.Reads source.length (s.parse source) := by
  have htokens := tokenized_tokenize source
  rw [Session.parse]
  cases h : tokenize source with
  | error e =>
    rw [h] at htokens
    exact Or.inl ⟨e, rfl, Or.inl htokens⟩
  | ok tokens =>
    rw [h] at htokens
    obtain ⟨hended, hwithin, hlen⟩ := htokens
    have hends := Parser.ends_program (n := source.length) (p := .ofTokens tokens s.forest s.symbols)
      ⟨hended, hwithin⟩
    simp only [EStateM.run]
    rw [Parser.Ends] at hends
    split at hends
    · next root p hp =>
      obtain ⟨es, hall, hsize, hsymbols⟩ := hends
      rw [hp]
      exact ⟨es, hall, Nat.le_of_lt_succ (Nat.lt_of_lt_of_le hsize hlen), rfl, rfl, hsymbols⟩
    · next f p hp =>
      rw [hp]
      exact hends.imp_left fun ⟨e, he, hstage⟩ => ⟨e, he, Or.inr hstage⟩

end ArithJit
