import ArithJit.Proofs.NodeSpans

/-!
# Proofs: errors point at the wrong token

If the parser gives up with an error of the program, then the error names a wrong token: what stands in front
of this token can be completed to a program, but no program goes on with it.

The proof goes along with the parser (`Parser.Errs`). What has been read up to the error is derived by the
grammar, except for the expressions that are still open, and these are stuck (`Parser.Halts`).
-/

namespace ArithJit

/-- The kinds of tokens that a target may follow. -/
def Token.Kind.Opens (kind : Token.Kind) : Prop :=
  kind = .leftParen ∨ kind = .equal ∨ kind = .semicolon

/-- The tokens end with an expression that is not a name, and the equals sign behind them would assign to it.
The span reaches from the first leaf of this expression to the sign. -/
structure MisassignsAt (ts pre : List Token) (t : Token) (span : Span) : Prop where
  sign : t.kind = .equal
  opened : ∀ u ∈ pre.getLast?, u.kind.Opens
  target : ∃ target tree first s s', ts = pre ++ target ∧ Derives .sum target tree ∧ tree.isName = false ∧
    (leaves target).head? = some first ∧ first.span = .ok s ∧ t.span = .ok s' ∧ span = ⟨s.start, s'.stop⟩

/-- The error says what is wrong with the token `t` behind the tokens `ts` of an expression of the given kind. -/
def Error.Blames (level : Precedence) (ts : List Token) (t : Token) : Error → Prop
  | integerTooLarge lexeme span => lexeme = t.lexeme ∧ t.span = .ok span
  | unexpectedToken _ found span => found = t.shown ∧ t.span = .ok span
  | expectedSemicolon span => t.span = .ok span ∧ t.kind ≠ .endOfInput
  | invalidAssignTarget span => ∃ pre, MisassignsAt ts pre t span ∧ (pre = [] → level = .expression)
  | _ => False

/-- The error stands at the token: it has the span of the token, or it is about an assignment and its span ends
with that of the sign. -/
def Error.Offends (e : Error) (t : Token) : Prop :=
  match e with
  | invalidAssignTarget span => t.kind = .equal ∧ ∃ s, t.span = .ok s ∧ span.stop = s.stop
  | e => ∃ s, t.span = .ok s ∧ e.span? = some s

namespace Error.Blames

variable {a b : Precedence} {ts : List Token} {t : Token} {e : Error}

theorem offends (h : e.Blames a ts t) : e.Offends t := by
  cases e with
  | integerTooLarge lexeme span => exact ⟨span, h.2, rfl⟩
  | unexpectedToken expected found span => exact ⟨span, h.2, rfl⟩
  | expectedSemicolon span => exact ⟨span, h.1, rfl⟩
  | invalidAssignTarget span =>
    obtain ⟨pre, hmis, -⟩ := h
    obtain ⟨target, tree, first, s, s', -, -, -, -, -, hs', rfl⟩ := hmis.target
    exact ⟨hmis.sign, s', hs', rfl⟩
  | _ => exact h.elim

/-- What is wrong in an expression is wrong in one that starts with it. -/
theorem loosen (h : e.Blames a ts t) (ha : a = .expression → b = .expression) : e.Blames b ts t := by
  cases e with
  | invalidAssignTarget span =>
    obtain ⟨pre, hmis, hpre⟩ := h
    exact ⟨pre, hmis, fun hnil => ha (hpre hnil)⟩
  | _ => exact h

/-- What is wrong in an expression is wrong behind an operator, a parenthesis or another sign. -/
theorem behind (h : e.Blames a ts t) (us : List Token) (o : Token) (ho : a = .expression → o.kind.Opens) :
    e.Blames b (us ++ o :: ts) t := by
  cases e with
  | invalidAssignTarget span =>
    obtain ⟨pre, hmis, hpre⟩ := h
    obtain ⟨target, tree, first, s, s', rfl, hrest⟩ := hmis.target
    refine ⟨us ++ o :: pre, ⟨hmis.sign, ?_, target, tree, first, s, s', by simp, hrest⟩, by simp⟩
    intro u hu
    rcases List.eq_nil_or_concat pre with rfl | ⟨pre, v, rfl⟩
    · obtain rfl : o = u := by simpa using hu
      exact ho (hpre rfl)
    · refine hmis.opened u ?_
      rw [List.concat_eq_append, ← List.cons_append, ← List.append_assoc, List.getLast?_concat] at hu
      rw [List.concat_eq_append, List.getLast?_concat]
      exact hu
  | _ => exact h

end Error.Blames

namespace Parser

variable {α β : Type} {x : Parse α} {f : α → Parse β} {p q r : Parser} {Q : α → Parser → Prop}
  {E : Error → Prop}
  {e : Error} {t o : Token} {ts us : List Token} {id left right : NodeId} {tree : Tree} {kind : Token.Kind}
  {depth : Nat} {a b c : Precedence} {inner operand : Parse NodeId} {operator? : Token.Kind → Option Arithmetic}

/-! ## Runs that end with an error -/

/-- If the step `x` gives up with an error of the program, then with one as `E` says. -/
def Errs (x : Parse α) (p : Parser) (E : Error → Prop) : Prop :=
  ∀ e q, x p = .error (.error e) q → E e

theorem Errs.bind (hx : Errs x p E) (hg : Gives x p Q) (hf : ∀ a q, Q a q → Errs (f a) q E) :
    Errs (x >>= f) p E := by
  intro e r h
  change EStateM.bind x f p = _ at h
  cases hrun : x p with
  | ok a q =>
    rw [EStateM.bind, hrun] at h
    exact hf a q (hg a q hrun) e r h
  | error failure q =>
    rw [EStateM.bind, hrun] at h
    cases h
    exact hx e r hrun

theorem Errs.of_ok {a : α} (h : x p = .ok a q) : Errs x p E := by
  intro e r he
  rw [h] at he
  cases he

theorem Errs.after {a : α} (h : x p = .ok a q) (hf : Errs (f a) q E) : Errs (x >>= f) p E := by
  intro e r he
  rw [bind_of_ok h] at he
  exact hf e r he

theorem Errs.mono {E' : Error → Prop} (h : Errs x p E) (hE : ∀ e, E e → E' e) : Errs x p E' :=
  fun e q he => hE e (h e q he)

theorem errs_check (y : Except Fault α) : Errs (check y) p E := by
  intro e q h
  cases y with
  | ok a => cases h
  | error f => cases h

theorem errs_reject (he : E e) : Errs (reject (α := α) e) p E := by
  intro e' q h
  cases h
  exact he

theorem errs_reject_bind (he : E e) : Errs (reject e >>= f) p E :=
  (errs_reject he).bind (gives_reject e (Q := fun _ _ => False)) fun _ _ hfalse => hfalse.elim

theorem errs_peek : Errs peek p E := by
  cases hrest : p.rest with
  | cons t us => exact .of_ok (peek_cons hrest)
  | nil =>
    intro e q h
    rw [peek_nil hrest] at h
    cases h

theorem errs_isAt : Errs (isAt kind) p E :=
  errs_peek.bind gives_peek fun _ _ _ => .of_ok rfl

theorem errs_advance : Errs advance p E := by
  refine errs_peek.bind gives_peek fun t q hq => ?_
  split
  · exact .after (modify_apply _ q) (.of_ok rfl)
  · exact .of_ok rfl

theorem errs_unexpected {expected : String}
    (h : ∀ span, t.span = .ok span → E (.unexpectedToken expected t.shown span)) :
    Errs (unexpected (α := α) t expected) p E :=
  (errs_check _).bind (gives_check _) fun span _ hspan => errs_reject (h span hspan.1)

/-! ## Expressions -/

/-- The error is about the first wrong token, in an expression of the given kind from the parser `p` on. -/
def Halts (level : Precedence) (p : Parser) (e : Error) : Prop :=
  ∃ ts t us, p.rest = ts ++ t :: us ∧ Stuck level ts t ∧ e.Blames level ts t ∧ ∀ u ∈ ts, u.Placed

theorem Halts.loosen (h : Halts a p e) (ha : a = .expression → b = .expression)
    (hs : ∀ ts t, Stuck a ts t → Stuck b ts t) : Halts b p e := by
  obtain ⟨ts, t, us, hts, hstuck, hblames, hplaced⟩ := h
  exact ⟨ts, t, us, hts, hs ts t hstuck, hblames.loosen ha, hplaced⟩

/-- An error behind a sign is one of the expression that goes on with the sign. -/
theorem Halts.behind (hr : Reads a p left q) (hq : q.rest = o :: us)
    (ho : o.kind ≠ .integer ∧ o.kind ≠ .identifier)
    (h : Halts b { q with rest := us } e) (hb : b = .expression → o.kind.Opens)
    (hs : ∀ ts vs t tree, Derives a ts tree → tree.Valid → q.Shows left tree → Stuck b vs t →
      Stuck c (ts ++ o :: vs) t) :
    Halts c p e := by
  obtain ⟨ts, tree, hts, hderives, hvalid, hplaced, -, hshows⟩ := hr
  obtain ⟨vs, t, ws, hvs, hstuck, hblames, hplaced'⟩ := h
  have hvs : us = vs ++ t :: ws := hvs
  have hsign : o.Placed := by simp [Token.Placed, ho.1, ho.2]
  refine ⟨ts ++ o :: vs, t, ws, ?_, hs ts vs t tree hderives hvalid hshows hstuck, hblames.behind ts o hb, ?_⟩
  · rw [hts, hq, hvs]
    simp
  · exact List.forall_mem_append.mpr ⟨hplaced, List.forall_mem_cons.mpr ⟨hsign, hplaced'⟩⟩

theorem halts_start (hp : p.rest = t :: us) (hs : Stuck .primary [] t) (he : e.Blames .primary [] t) :
    Halts .primary p e :=
  ⟨[], t, us, hp, hs, he, by simp⟩

theorem errs_integerValue (hd : ∀ c ∈ t.lexeme.toList, Lexer.continuesNumber c = true)
    (h : ∀ span, largestLiteral < t.number → t.span = .ok span → E (.integerTooLarge t.lexeme span)) :
    Errs (integerValue t) p E := by
  by_cases hle : t.number ≤ largestLiteral
  · exact .of_ok (integerValue_of_le hd hle)
  · refine (errs_check _).bind (gives_check _) fun m q hm => ?_
    cases m with
    | some n => exact .of_ok rfl
    | none => exact (errs_check _).bind (gives_check _) fun span _ hspan =>
        errs_reject (h span (by omega) hspan.1)

theorem errs_primary
    (hi : ∀ q, q.rest.length < depth → Orderly q.rest → Errs (expressionTo depth) q (Halts .expression q))
    (hdepth : p.rest.length ≤ depth) (hp : Orderly p.rest) :
    Errs (primary (expressionTo depth)) p (Halts .primary p) := by
  refine errs_advance.bind gives_advance fun t q hq => ?_
  obtain ⟨us, hus, hq⟩ := hq
  split
  · next hkind =>
    obtain rfl := hq (by simp [hkind])
    have hdigits := hp.digits t (by simp [hus]) hkind
    refine (errs_integerValue hdigits fun span hlarge hspan => ?_).bind gives_integerValue
      fun value q hvalue => ?_
    · exact halts_start hus (.large hkind hlarge) ⟨rfl, hspan⟩
    · exact (errs_check _).bind (gives_check _) fun _ _ _ => .of_ok (addNode_apply _ _)
  · obtain ⟨y, q', hintern, -⟩ := internName_apply (p := q) t.lexeme
    refine .after hintern ?_
    exact (errs_check _).bind (gives_check _) fun _ _ _ => .of_ok (addNode_apply _ _)
  · next hkind =>
    obtain rfl := hq (by simp [hkind])
    rw [hus] at hp hdepth
    have hopens : t.kind.Opens := Or.inl hkind
    have hopened : t.Placed := by simp [Token.Placed, hkind]
    refine ((hi { p with rest := us } hdepth hp.tail).mono fun e he => ?_).bind
      (takes_expressionTo depth hp.tail)
      fun id q hid => ?_
    · obtain ⟨ts, v, vs, hts, hstuck, hblames, hplaced⟩ := he
      have hts : us = ts ++ v :: vs := hts
      refine ⟨t :: ts, v, vs, by rw [hus, hts]; rfl, .inside hkind hstuck,
        hblames.behind [] t fun _ => hopens, ?_⟩
      exact List.forall_mem_cons.mpr ⟨hopened, hplaced⟩
    · obtain ⟨ts, tree, hts, hderives, hvalid, hplaced, -, -⟩ := hid.reads
      have hts : us = ts ++ q.rest := hts
      refine Errs.bind (Q := fun _ _ => True) ?_ (fun _ _ _ => trivial) fun _ _ _ => .of_ok rfl
      refine errs_peek.bind gives_peek fun v q' hv => ?_
      obtain ⟨rfl, vs, hvs⟩ := hv
      split
      · exact errs_advance
      · next hclosing =>
        refine errs_unexpected fun span hspan => ?_
        refine ⟨t :: ts, v, vs, by rw [hus, hts, hvs]; rfl, ?_, ⟨rfl, hspan⟩,
          List.forall_mem_cons.mpr ⟨hopened, hplaced⟩⟩
        exact .unclosed hkind hderives hvalid (hid.stops v vs hvs) hclosing
  · next hinteger hname hparen =>
    exact errs_unexpected fun span hspan => halts_start hus (.start ⟨hinteger, hname, hparen⟩) ⟨rfl, hspan⟩

section Chain

variable (hc : IsChain operator? a b) (hb : b ≠ .expression) (hone : ∀ ts t, Stuck b ts t → Stuck a ts t)
  (hmore : ∀ ts us o t op left, operator? o.kind = some op → Derives a ts left → left.Valid → Stuck b us t →
    Stuck a (ts ++ o :: us) t)

include hc hb hmore

theorem errs_chainFrom {length : Nat} (hdepth : p.rest.length ≤ depth)
    (ho : ∀ q, q.rest.length ≤ depth → Orderly q.rest → Errs operand q (Halts b q))
    (hg : ∀ q, Gives operand q (Reads b q)) (hp : Orderly p.rest) (hr : Reads a p left q) :
    Errs (chainFrom operator? operand length left) q (Halts a p) := by
  induction length generalizing left q with
  | zero => exact .of_ok rfl
  | succ length ih =>
    refine errs_peek.bind gives_peek fun t q' hq' => ?_
    obtain ⟨rfl, us, hus⟩ := hq'
    split
    · exact .of_ok rfl
    · next op hop =>
      obtain ⟨hend, hplain⟩ := hc.sign t.kind op hop
      have hrest : us.length ≤ depth ∧ Orderly us := by
        obtain ⟨ts, -, hts, -⟩ := hr
        rw [hts, hus] at hp
        rw [hts, hus, List.length_append, List.length_cons] at hdepth
        exact ⟨by omega, hp.right.tail⟩
      refine .after (advance_cons hus hend) ?_
      refine ((ho { q' with rest := us } hrest.1 hrest.2).mono fun e he => ?_).bind (hg _)
        fun right r hright => ?_
      · refine Halts.behind hr hus hplain he (fun h => absurd h hb) ?_
        exact fun ts vs v tree hd hv _ hs => hmore ts vs t v op tree hop hd hv hs
      · have hadd := gives_addBinary hr hus hplain hright (fun ts vs l r => hc.more ts vs t op l r hop) nofun
        have hok : Errs (addBinary left (.arithmetic op) right) r (Halts a p) := .of_ok rfl
        exact hok.bind hadd fun id r' hid => ih hid

include hone

theorem errs_chain (hdepth : p.rest.length ≤ depth)
    (ho : ∀ q, q.rest.length ≤ depth → Orderly q.rest → Errs operand q (Halts b q))
    (hg : ∀ q, Gives operand q (Reads b q)) (hp : Orderly p.rest) :
    Errs (chain operator? operand) p (Halts a p) := by
  refine ((ho p hdepth hp).mono fun e he => ?_).bind (hg p) fun left q hq => ?_
  · exact he.loosen (fun h => absurd h hb) hone
  · refine .after (get_apply q) ?_
    exact errs_chainFrom hc hb hmore hdepth ho hg hp (hq.mono hc.one)

end Chain

theorem errs_sum
    (hi : ∀ q, q.rest.length < depth → Orderly q.rest →
      Errs (expressionTo depth) q (Halts .expression q))
    (hdepth : p.rest.length ≤ depth) (hp : Orderly p.rest) :
    Errs (sum (expressionTo depth)) p (Halts .sum p) := by
  have hexpression : ∀ q, Gives (expressionTo depth) q (Reads .expression q) :=
    fun _ => gives_expressionTo depth
  refine errs_chain isChain_sum (by simp) (fun _ _ => .term)
    (fun ts us o t op left hop hd hv hs => .sum hd hv hop hs) hdepth (fun q hq ho => ?_)
    (fun q => gives_chain isChain_product fun _ => gives_primary hexpression) hp
  exact errs_chain isChain_product (by simp) (fun _ _ => .factor)
    (fun ts us o t op left hop hd hv hs => .product hd hv hop hs) hq (fun q hq ho => errs_primary hi hq ho)
    (fun q => gives_primary hexpression) ho

/-- An assignment to something that is not a name is blamed on the sign. -/
theorem halts_target (ht : Takes .sum p id q) (hq : q.rest = o :: us) (ho : o.kind = .equal)
    (hname : (q.forest.get? id).any Node.isName = false) {span : Span} (hspan : o.span = .ok span)
    (hp : Orderly p.rest) :
    Halts .expression p (.invalidAssignTarget ((q.forest.span id).merge span)) := by
  obtain ⟨ts, tree, hts, hderives, hvalid, hplaced, -, hshows⟩ := ht.reads
  obtain ⟨ts', hts', first, last, s, s', hfirst, hlast, hs, hs', hcovers⟩ := ht.spans
  obtain rfl : ts = ts' := List.append_cancel_right (hts.symm.trans hts')
  have hother : tree.isName = false := by
    rw [← Forest.Shows.isName hshows]
    exact hname
  -- the first and the last leaf stand before the sign
  have hprecedes : ∀ v ∈ leaves ts, v.Precedes o := by
    have hordered := hp.ordered
    rw [hts, hq] at hordered
    exact fun v hv => (List.pairwise_append.mp hordered).2.2 v (mem_of_mem_leaves hv) o (by simp)
  have hmerge : (q.forest.span id).merge span = ⟨s.start, span.stop⟩ := by
    have hstart := (hprecedes _ (List.mem_of_head? hfirst)).span_lt hs hspan
    have hstop := (hprecedes _ (List.mem_of_getLast? hlast)).span_lt hs' hspan
    rw [hcovers]
    exact Span.merge_of_lt hstart.1 hstop.2
  refine ⟨ts, o, us, by rw [hts, hq], .target hderives hvalid hother ho,
    ⟨[], ⟨ho, by simp, ?_⟩, fun _ => rfl⟩, hplaced⟩
  exact ⟨ts, tree, first, s, span, rfl, hderives, hother, hfirst, hs, hspan, hmerge⟩

theorem errs_expressionTo (hdepth : p.rest.length < depth) (hp : Orderly p.rest) :
    Errs (expressionTo depth) p (Halts .expression p) := by
  induction depth generalizing p with
  | zero => exact absurd hdepth (Nat.not_lt_zero _)
  | succ depth ih =>
    have hspans : ∀ q, Orderly q.rest → Gives (expressionTo depth) q (Spans q) :=
      fun q hq id r hr => (takes_expressionTo depth hq id r hr).spans
    refine ((errs_sum (fun q => ih) (Nat.le_of_lt_succ hdepth) hp).mono fun e he => ?_).bind
      (takes_sum (fun _ => gives_expressionTo depth) hspans hp) fun target q hq => ?_
    · exact he.loosen (fun _ => rfl) fun _ _ => .plain
    · refine errs_isAt.bind gives_isAt fun b q' hb => ?_
      obtain ⟨rfl, t, us, hus, rfl⟩ := hb
      by_cases hkind : t.kind = .equal
      · simp only [hkind, decide_true, Bool.not_true, Bool.false_eq_true, if_false]
        refine .after (advance_cons hus (by simp [hkind])) ?_
        refine .after (isName_apply target) ?_
        split
        · next hname =>
          refine .after (get_apply _) ?_
          refine (errs_check _).bind (gives_check _) fun span _ hspan => ?_
          exact errs_reject_bind (halts_target hq hus hkind (by simpa using hname) hspan.1 hp)
        · next hname =>
          have hplain : t.kind ≠ .integer ∧ t.kind ≠ .identifier := by simp [hkind]
          have hopens : t.kind.Opens := Or.inr (Or.inl hkind)
          have hrest : us.length < depth ∧ Orderly us := by
            obtain ⟨ts, tree, hts, hderives, -⟩ := hq.reads
            have hpos := hderives.length_pos
            rw [hts, hus] at hp
            rw [hts, hus, List.length_append, List.length_cons] at hdepth
            exact ⟨by omega, hp.right.tail⟩
          refine ((ih (p := { q' with rest := us }) hrest.1 hrest.2).mono fun e he => ?_).bind
            (gives_expressionTo depth) fun value r hvalue => .of_ok rfl
          refine Halts.behind hq.reads hus hplain he (fun _ => hopens) fun ts vs v tree hd hv hshows hs => ?_
          refine .value hd hv ?_ hkind hs
          rw [← Forest.Shows.isName hshows]
          simpa using hname
      · simp only [hkind, decide_false, Bool.not_false, if_true]
        exact .of_ok rfl

theorem errs_expression (hp : Orderly p.rest) : Errs expression p (Halts .expression p) :=
  .after (get_apply p) (errs_expressionTo (Nat.lt_succ_self _) hp)

/-! ## Programs -/

/-- The error is about the first wrong token of the program from the parser `p` on. -/
def HaltsAll (p : Parser) (e : Error) : Prop :=
  ∃ ts t us, p.rest = ts ++ t :: us ∧ StuckAll ts t ∧ e.Blames .expression ts t ∧ ∀ u ∈ ts, u.Placed

theorem errs_statementsTo {count : Nat} (hp : Orderly p.rest) : Errs (statementsTo count) p (HaltsAll p) := by
  induction count generalizing p with
  | zero => exact .of_ok rfl
  | succ count ih =>
    refine errs_isAt.bind gives_isAt fun b q hb => ?_
    obtain ⟨rfl, t, us, hus, rfl⟩ := hb
    split
    · exact .of_ok rfl
    · next hend =>
      refine ((errs_expression hp).mono fun e he => ?_).bind (takes_expression hp) fun first r hfirst => ?_
      · obtain ⟨ts, v, vs, hts, hstuck, hblames, hplaced⟩ := he
        refine ⟨ts, v, vs, hts, .statement hstuck ?_, hblames, hplaced⟩
        rintro rfl
        obtain rfl : t = v := (List.cons.inj (hus.symm.trans hts)).1
        simpa using hend
      · obtain ⟨ts, tree, hts, hderives, hvalid, hplaced, -, -⟩ := hfirst.reads
        refine errs_isAt.bind gives_isAt fun b r' hb => ?_
        obtain ⟨rfl, v, vs, hvs, rfl⟩ := hb
        have hbehind : Orderly (v :: vs) := hvs ▸ hfirst.spans.orderly hp
        split
        · next hsemi =>
          have hsemi : v.kind = .semicolon := of_decide_eq_true hsemi
          refine .after (advance_cons hvs (by simp [hsemi])) ?_
          refine ((ih (p := { r' with rest := vs }) hbehind.tail).mono fun e he => ?_).bind
            (Q := fun _ _ => True) (fun _ _ _ => trivial) fun _ _ _ => .of_ok rfl
          obtain ⟨ws, w, xs, hws, hstuck, hblames, hplaced'⟩ := he
          have hws : vs = ws ++ w :: xs := hws
          have hsign : v.Placed := by simp [Token.Placed, hsemi]
          refine ⟨ts ++ v :: ws, w, xs, ?_, .cons hderives hvalid hsemi hstuck,
            hblames.behind ts v fun _ => Or.inr (Or.inr hsemi), ?_⟩
          · rw [hts, hvs, hws]
            simp
          · exact List.forall_mem_append.mpr ⟨hplaced, List.forall_mem_cons.mpr ⟨hsign, hplaced'⟩⟩
        · next hsemi =>
          refine .after (isAt_cons hvs .endOfInput) ?_
          split
          · next hend' =>
            have hunended : v.kind ≠ .semicolon ∧ v.kind ≠ .endOfInput :=
              ⟨by simpa using hsemi, by simpa using hend'⟩
            refine .after (peek_cons hvs) ?_
            refine (errs_check _).bind (gives_check _) fun span _ hspan => errs_reject_bind ?_
            exact ⟨ts, v, vs, by rw [hts, hvs], .unended hderives hvalid (hfirst.stops v vs hvs) hunended,
              ⟨hspan.1, hunended.2⟩, hplaced⟩
          · next hend' =>
            have hend' : v.kind = .endOfInput := by simpa using hend'
            exact .after (statementsTo_atEnd count hvs hend') (.of_ok rfl)

/-- An error of a program is about its first wrong token; the first token of all has a span. -/
theorem errs_program (hp : Orderly p.rest) :
    Errs program p fun e => HaltsAll p e ∧ ∀ u ∈ p.rest.head?, u.Fits := by
  refine errs_peek.bind gives_peek fun t q hq => ?_
  obtain ⟨rfl, us, hus⟩ := hq
  refine (errs_check _).bind (gives_check _) fun start q' hstart => ?_
  obtain ⟨hstart, rfl⟩ := hstart
  have hfits : ∀ u ∈ q'.rest.head?, u.Fits := by
    rw [hus]
    simpa using t.span_eq_ok.mp ⟨start, hstart⟩
  refine .after (get_apply q') ?_
  refine ((errs_statementsTo hp).mono fun e he => ⟨he, hfits⟩).bind (Q := fun _ _ => True)
    (fun _ _ _ => trivial)
    fun ids r _ => ?_
  refine errs_peek.bind gives_peek fun u r' _ => ?_
  exact (errs_check _).bind (gives_check _) fun _ _ _ => .of_ok (addNode_apply _ _)

/-- What stands in front of a wrong token can be completed to a program that is accepted. -/
theorem exists_program (h : StuckAll ts t) (hr : ∀ u ∈ ts, u.Readable) (hfirst : ∀ u ∈ ts.head?, u.Fits) :
    ∃ more, ∀ forest symbols, ∃ root p, program.run (.ofTokens (ts ++ more) forest symbols) = .ok root p := by
  obtain ⟨more, trees, hderives, hvalid, hmore⟩ := h.completed
  have hadded : ∀ u ∈ more, u.Readable ∧ u.kind ≠ .endOfInput ∧ u.Fits := by
    intro u hu
    rcases hmore u hu with rfl | rfl
    · exact ⟨⟨fun _ => by decide, fun _ => List.all_eq_true.mp (by decide)⟩, by decide, by decide⟩
    · exact ⟨⟨fun _ => by decide, nofun⟩, by decide, by decide⟩
  set stop : Token := ⟨.endOfInput, "", ⟨1, 0⟩⟩
  refine ⟨more ++ [stop], fun forest symbols => ?_⟩
  have hreadable : ∀ u ∈ ts ++ more, u.Readable :=
    List.forall_mem_append.mpr ⟨hr, fun u hu => (hadded u hu).1⟩
  have hkinds : ∀ u ∈ ts ++ more, u.kind ≠ .endOfInput :=
    List.forall_mem_append.mpr ⟨h.kind_ne, fun u hu => (hadded u hu).2.1⟩
  have hhead : ∀ u ∈ ((ts ++ more) ++ [stop]).head?, u.Fits := by
    intro u hu
    cases ts with
    | cons v ts => exact hfirst u hu
    | nil =>
      cases more with
      | cons v more =>
        obtain rfl : v = u := by simpa using hu
        exact (hadded v (by simp)).2.2
      | nil =>
        obtain rfl : stop = u := by simpa using hu
        decide
  rw [← List.append_assoc]
  obtain ⟨root, p, hrun, -⟩ := program_derivesAll (p := .ofTokens (ts ++ more ++ [stop]) forest symbols)
    hderives hvalid hreadable hkinds rfl rfl hhead (by decide)
  exact ⟨root, p, hrun⟩

end Parser

/-! ## Errors of a text -/

theorem orderly_tokenize {source : String} {tokens : List Token} (h : tokenize source = .ok tokens) :
    Orderly tokens where
  ordered := (tokenize_eq_ok_iff.mp h).ordered
  digits t ht := by
    have htokens := tokenized_tokenize source
    rw [h] at htokens
    exact (htokens.2.1 t ht).number

/-- An error of the parser is about the first wrong token of the text. -/
theorem Session.halts_parse {s s' : Session} {source : String} {tokens : List Token} {e : Error}
    (ht : tokenize source = .ok tokens) (h : s.parse source = (.error (.error e), s')) :
    ∃ ts t us, tokens = ts ++ t :: us ∧ StuckAll ts t ∧ e.Blames .expression ts t ∧
      (∀ u ∈ ts, u.Readable) ∧ ∀ u ∈ tokens.head?, u.Fits := by
  have horderly := orderly_tokenize ht
  have hrun : ∃ q, Parser.program (.ofTokens tokens s.forest s.symbols) = .error (.error e) q := by
    rw [Session.parse, ht] at h
    simp only [EStateM.run] at h
    cases hprogram : Parser.program (.ofTokens tokens s.forest s.symbols) with
    | ok root q =>
      rw [hprogram] at h
      cases h
    | error failure q =>
      rw [hprogram] at h
      cases h
      exact ⟨q, rfl⟩
  obtain ⟨q, hrun⟩ := hrun
  obtain ⟨⟨ts, t, us, hts, hstuck, hblames, hplaced⟩, hfirst⟩ := Parser.errs_program horderly e q hrun
  have hts : tokens = ts ++ t :: us := hts
  refine ⟨ts, t, us, hts, hstuck, hblames, fun u hu => ⟨hplaced u hu, horderly.digits u ?_⟩, hfirst⟩
  rw [hts]
  exact List.mem_append_left _ hu

/-- An error does not stand at two tokens. -/
theorem Error.Offends.not_precedes {e : Error} {t u : Token} (ht : e.Offends t) (hu : e.Offends u) :
    ¬ t.Precedes u := by
  intro h
  cases e with
  | invalidAssignTarget span =>
    obtain ⟨-, s, hs, hstop⟩ := ht
    obtain ⟨-, s', hs', hstop'⟩ := hu
    have hlt := (h.span_lt hs hs').2
    rw [← hstop, ← hstop'] at hlt
    exact Position.not_lt_of_lt hlt hlt
  | _ =>
    obtain ⟨s, hs, hspan⟩ := ht
    obtain ⟨s', hs', hspan'⟩ := hu
    have hlt := (h.span_lt hs hs').1
    rw [hspan, Option.some.injEq] at hspan'
    rw [hspan'] at hlt
    exact Position.not_lt_of_lt hlt hlt

/-- The token with the number `k` is wrong: what stands in front of it can be completed to a program that is
accepted, and nothing that goes on with it is accepted. -/
def IsWrong (tokens : List Token) (k : Nat) : Prop :=
  (∃ more, ∀ forest symbols, ∃ root p,
    Parser.program.run (.ofTokens (tokens.take k ++ more) forest symbols) = .ok root p) ∧
  ∀ more forest symbols root p,
    Parser.program.run (.ofTokens (tokens.take (k + 1) ++ more) forest symbols) ≠ .ok root p

/-- An error of the parser is about a wrong token. -/
theorem Session.isWrong_parse {s s' : Session} {source : String} {tokens : List Token} {e : Error}
    (ht : tokenize source = .ok tokens) (h : s.parse source = (.error (.error e), s')) :
    ∃ (k : Nat) (t : Token), tokens[k]? = some t ∧ e.Blames .expression (tokens.take k) t ∧
      IsWrong tokens k := by
  obtain ⟨ts, t, us, hts, hstuck, hblames, hreadable, hfirst⟩ := Session.halts_parse ht h
  have hbefore : tokens.take ts.length = ts := by rw [hts, List.take_left]
  have hupto : tokens.take (ts.length + 1) = ts ++ [t] := by
    rw [hts, List.append_cons, List.take_left' (by simp)]
  refine ⟨ts.length, t, by rw [hts]; simp, hbefore.symm ▸ hblames, ?_⟩
  rw [IsWrong, hbefore, hupto]
  constructor
  · refine Parser.exists_program hstuck hreadable fun v hv => hfirst v ?_
    rw [hts, List.head?_append, Option.mem_def.mp hv]
    rfl
  · intro more forest symbols root p hrun
    exact Parser.fails_program hstuck hreadable (p := .ofTokens (ts ++ [t] ++ more) forest symbols)
      (List.append_assoc ts [t] more) root p hrun

/-- An error of the parser stands at one token, and this token is wrong: what stands in front of it can be
completed to a program that is accepted, and nothing that goes on with it is accepted. -/
theorem parse_error_at_wrong_token {s s' : Session} {source : String} {tokens : List Token} {e : Error}
    (ht : tokenize source = .ok tokens) (h : s.parse source = (.error (.error e), s')) :
    (∃ (k : Nat) (t : Token), tokens[k]? = some t ∧ e.Offends t) ∧
      ∀ (k : Nat) (t : Token), tokens[k]? = some t → e.Offends t →
        (∃ more, ∀ forest symbols, ∃ root p,
          Parser.program.run (.ofTokens (tokens.take k ++ more) forest symbols) = .ok root p) ∧
        ∀ more forest symbols root p,
          Parser.program.run (.ofTokens (tokens.take (k + 1) ++ more) forest symbols) ≠ .ok root p := by
  obtain ⟨n, t, hat, hblames, hwrong⟩ := Session.isWrong_parse ht h
  refine ⟨⟨n, t, hat, hblames.offends⟩, ?_⟩
  intro k u hk hu
  -- the tokens stand in their order, so that no other token is offended
  suffices hunique : k = n by
    rw [hunique]
    exact hwrong
  have hpairs := List.pairwise_iff_getElem.mp (orderly_tokenize ht).ordered
  obtain ⟨hlt, rfl⟩ := List.getElem?_eq_some_iff.mp hk
  obtain ⟨hlt', rfl⟩ := List.getElem?_eq_some_iff.mp hat
  rcases Nat.lt_trichotomy k n with hless | heq | hmore
  · exact absurd (hpairs k n hlt hlt' hless) (hu.not_precedes hblames.offends)
  · exact heq
  · exact absurd (hpairs n k hlt' hlt hmore) (hblames.offends.not_precedes hu)

/-- The tokens of `(1)=`. -/
def misassigned : List Token :=
  [⟨.leftParen, "(", ⟨1, 0⟩⟩, ⟨.integer, "1", ⟨1, 1⟩⟩, ⟨.rightParen, ")", ⟨1, 2⟩⟩,
    ⟨.equal, "=", ⟨1, 3⟩⟩, ⟨.endOfInput, "", ⟨1, 4⟩⟩]

/-- The number can be followed by something, but not by an equals sign; the span starts inside the parentheses. -/
theorem parse_error_at_wrong_token_target :
    tokenize "(1)=" = .ok misassigned ∧
      ((Session.new {}).parse "(1)=").1 = .error (.error (.invalidAssignTarget ⟨⟨1, 1⟩, ⟨1, 4⟩⟩)) ∧
      (∃ more, ∀ forest symbols, ∃ root p,
        Parser.program.run (.ofTokens (misassigned.take 3 ++ more) forest symbols) = .ok root p) ∧
      ∀ more forest symbols root p,
        Parser.program.run (.ofTokens (misassigned.take 4 ++ more) forest symbols) ≠ .ok root p := by
  have htokens : tokenize "(1)=" = .ok misassigned := by decide +kernel
  have hparse : ((Session.new {}).parse "(1)=").1 =
      .error (.error (.invalidAssignTarget ⟨⟨1, 1⟩, ⟨1, 4⟩⟩)) := by
    decide +kernel
  refine ⟨htokens, hparse, ?_⟩
  exact (parse_error_at_wrong_token htokens (Prod.ext hparse rfl)).2 3 ⟨.equal, "=", ⟨1, 3⟩⟩ rfl
    ⟨rfl, ⟨⟨1, 3⟩, ⟨1, 4⟩⟩, rfl, rfl⟩

end ArithJit
