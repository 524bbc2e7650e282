import ArithJit.Proofs.Acceptance

/-!
# Proofs: where a program goes wrong

A token is wrong if what stands in front of it can be completed to a program, but no program goes on with it.
The grammar of what stands in front of a wrong token (`Stuck`, `StuckAll`) follows the grammar of programs:
what is open there are parentheses, operators and equals signs that wait for an operand.

What is stuck can be completed by the number zero and closing parentheses (`StuckAll.completed`). The parser
does not get past the wrong token, whatever stands behind it (`Parser.fails_program`).
-/

namespace ArithJit

/-- A token of the kind does not continue an expression of the given kind. -/
def Precedence.Stops : Precedence → Token.Kind → Prop
  | expression, kind => Parser.productOperator? kind = none ∧ Parser.sumOperator? kind = none ∧ kind ≠ .equal
  | sum, kind => Parser.productOperator? kind = none ∧ Parser.sumOperator? kind = none
  | product, kind => Parser.productOperator? kind = none
  | primary, _ => True

/-- The tokens begin an expression of the given kind, and no such expression goes on with the token `t`. -/
inductive Stuck : Precedence → List Token → Token → Prop where
  | start {t : Token} (kind : t.kind ≠ .integer ∧ t.kind ≠ .identifier ∧ t.kind ≠ .leftParen) :
      Stuck .primary [] t
  | large {t : Token} (kind : t.kind = .integer) (large : Parser.largestLiteral < t.number) :
      Stuck .primary [] t
  | inside {l t : Token} {ts : List Token} (opening : l.kind = .leftParen) (within : Stuck .expression ts t) :
      Stuck .primary (l :: ts) t
  | unclosed {l t : Token} {ts : List Token} {tree : Tree} (opening : l.kind = .leftParen)
      (inner : Derives .expression ts tree) (valid : tree.Valid) (stops : Precedence.expression.Stops t.kind)
      (unclosed : t.kind ≠ .rightParen) : Stuck .primary (l :: ts) t
  | factor {t : Token} {ts : List Token} (only : Stuck .primary ts t) : Stuck .product ts t
  | product {t o : Token} {ts us : List Token} {op : Arithmetic} {left : Tree}
      (first : Derives .product ts left)
      (valid : left.Valid) (sign : Parser.productOperator? o.kind = some op) (second : Stuck .primary us t) :
      Stuck .product (ts ++ o :: us) t
  | term {t : Token} {ts : List Token} (only : Stuck .product ts t) : Stuck .sum ts t
  | sum {t o : Token} {ts us : List Token} {op : Arithmetic} {left : Tree} (first : Derives .sum ts left)
      (valid : left.Valid) (sign : Parser.sumOperator? o.kind = some op) (second : Stuck .product us t) :
      Stuck .sum (ts ++ o :: us) t
  | plain {t : Token} {ts : List Token} (only : Stuck .sum ts t) : Stuck .expression ts t
  | value {t o : Token} {ts us : List Token} {left : Tree} (target : Derives .sum ts left) (valid : left.Valid)
      (name : left.isName = true) (sign : o.kind = .equal) (value : Stuck .expression us t) :
      Stuck .expression (ts ++ o :: us) t
  | target {t : Token} {ts : List Token} {left : Tree} (target : Derives .sum ts left) (valid : left.Valid)
      (other : left.isName = false) (sign : t.kind = .equal) : Stuck .expression ts t

/-- The tokens begin a program, and no program goes on with the token `t`. -/
inductive StuckAll : List Token → Token → Prop where
  | statement {t : Token} {ts : List Token} (first : Stuck .expression ts t)
      (begun : ts = [] → t.kind ≠ .endOfInput) : StuckAll ts t
  | unended {t : Token} {ts : List Token} {tree : Tree} (first : Derives .expression ts tree)
      (valid : tree.Valid)
      (stops : Precedence.expression.Stops t.kind) (unended : t.kind ≠ .semicolon ∧ t.kind ≠ .endOfInput) :
      StuckAll ts t
  | cons {t o : Token} {ts us : List Token} {tree : Tree} (first : Derives .expression ts tree)
      (valid : tree.Valid) (sign : o.kind = .semicolon) (others : StuckAll us t) : StuckAll (ts ++ o :: us) t

/-- The end of the input is no part of an expression. -/
theorem Derives.kind_ne {level : Precedence} {ts : List Token} {tree : Tree} (h : Derives level ts tree) :
    ∀ t ∈ ts, t.kind ≠ .endOfInput := by
  induction h with
  | number kind => simp [kind]
  | name kind => simp [kind]
  | parens opening inside closing ih => simpa [opening, closing, or_imp, forall_and] using ih
  | product first sign second ihl ihr =>
    have hsign := (Parser.isChain_product.sign _ _ sign).1
    simpa [or_imp, forall_and, hsign] using ⟨ihl, ihr⟩
  | sum first sign second ihl ihr =>
    have hsign := (Parser.isChain_sum.sign _ _ sign).1
    simpa [or_imp, forall_and, hsign] using ⟨ihl, ihr⟩
  | assign target sign value ihl ihr => simpa [sign, or_imp, forall_and] using ⟨ihl, ihr⟩
  | factor only ih | term only ih | plain only ih => exact ih

theorem Stuck.kind_ne {level : Precedence} {ts : List Token} {t : Token} (h : Stuck level ts t) :
    ∀ u ∈ ts, u.kind ≠ .endOfInput := by
  induction h with
  | start | large => simp
  | inside opening within ih => simpa [opening] using ih
  | unclosed opening inner => simpa [opening] using inner.kind_ne
  | product first valid sign second ih =>
    have hsign := (Parser.isChain_product.sign _ _ sign).1
    simpa [or_imp, forall_and, hsign] using ⟨first.kind_ne, ih⟩
  | sum first valid sign second ih =>
    have hsign := (Parser.isChain_sum.sign _ _ sign).1
    simpa [or_imp, forall_and, hsign] using ⟨first.kind_ne, ih⟩
  | value target valid name sign value ih => simpa [sign, or_imp, forall_and] using ⟨target.kind_ne, ih⟩
  | target target => exact target.kind_ne
  | factor only ih | term only ih | plain only ih => exact ih

theorem StuckAll.kind_ne {ts : List Token} {t : Token} (h : StuckAll ts t) :
    ∀ u ∈ ts, u.kind ≠ .endOfInput := by
  induction h with
  | statement first => exact first.kind_ne
  | unended first => exact first.kind_ne
  | cons first valid sign others ih => simpa [sign, or_imp, forall_and] using ⟨first.kind_ne, ih⟩

/-! ## What is stuck can be completed -/

/-- The number zero. -/
def Token.zero : Token :=
  ⟨.integer, "0", ⟨1, 0⟩⟩

/-- A closing parenthesis. -/
def Token.closing : Token :=
  ⟨.rightParen, ")", ⟨1, 0⟩⟩

theorem derives_zero : Derives .primary [.zero] (.number 0) :=
  .number rfl

theorem Stuck.completed {level : Precedence} {ts : List Token} {t : Token} (h : Stuck level ts t) :
    ∃ more tree, Derives level (ts ++ more) tree ∧ tree.Valid ∧ ∀ u ∈ more, u = .zero ∨ u = .closing := by
  -- a number takes the place of the wrong token, and then the open parentheses are closed
  have hzero : ∀ u ∈ [Token.zero], u = .zero ∨ u = .closing := by simp
  induction h with
  | start kind => exact ⟨[.zero], .number 0, derives_zero, Nat.zero_le _, hzero⟩
  | large kind large => exact ⟨[.zero], .number 0, derives_zero, Nat.zero_le _, hzero⟩
  | @inside l t ts opening within ih =>
    obtain ⟨more, tree, hderives, hvalid, hmore⟩ := ih
    refine ⟨more ++ [.closing], tree, ?_, hvalid, ?_⟩
    · have hparens : Derives .primary (l :: ((ts ++ more) ++ [.closing])) tree := .parens opening hderives rfl
      rw [List.append_assoc] at hparens
      exact hparens
    · simpa [or_imp, forall_and] using hmore
  | @unclosed l t ts tree opening inner valid stops unclosed =>
    exact ⟨[.closing], tree, .parens opening inner rfl, valid, by simp⟩
  | factor only ih =>
    obtain ⟨more, tree, hderives, hrest⟩ := ih
    exact ⟨more, tree, .factor hderives, hrest⟩
  | term only ih =>
    obtain ⟨more, tree, hderives, hrest⟩ := ih
    exact ⟨more, tree, .term hderives, hrest⟩
  | plain only ih =>
    obtain ⟨more, tree, hderives, hrest⟩ := ih
    exact ⟨more, tree, .plain hderives, hrest⟩
  | @product t o ts us op left first valid sign second ih =>
    obtain ⟨more, tree, hderives, hvalid, hmore⟩ := ih
    refine ⟨more, .binary left (.arithmetic op) tree, ?_, ⟨nofun, valid, hvalid⟩, hmore⟩
    rw [List.append_assoc]
    exact .product first sign hderives
  | @sum t o ts us op left first valid sign second ih =>
    obtain ⟨more, tree, hderives, hvalid, hmore⟩ := ih
    refine ⟨more, .binary left (.arithmetic op) tree, ?_, ⟨nofun, valid, hvalid⟩, hmore⟩
    rw [List.append_assoc]
    exact .sum first sign hderives
  | @value t o ts us left target valid name sign value ih =>
    obtain ⟨more, tree, hderives, hvalid, hmore⟩ := ih
    refine ⟨more, .binary left .assign tree, ?_, ⟨fun _ => name, valid, hvalid⟩, hmore⟩
    rw [List.append_assoc]
    exact .assign target sign hderives
  | @target t ts left target valid other sign =>
    refine ⟨[], left, ?_, valid, by simp⟩
    rw [List.append_nil]
    exact .plain target

/-- What stands in front of a wrong token begins a program. -/
theorem StuckAll.completed {ts : List Token} {t : Token} (h : StuckAll ts t) :
    ∃ more trees, DerivesAll (ts ++ more) trees ∧ (∀ tree ∈ trees, tree.Valid) ∧
      ∀ u ∈ more, u = .zero ∨ u = .closing := by
  induction h with
  | statement first begun =>
    obtain ⟨more, tree, hderives, hvalid, hmore⟩ := first.completed
    exact ⟨more, [tree], .last hderives, by simpa using hvalid, hmore⟩
  | @unended t ts tree first valid stops unended =>
    refine ⟨[], [tree], ?_, by simpa using valid, by simp⟩
    rw [List.append_nil]
    exact .last first
  | @cons t o ts us tree first valid sign others ih =>
    obtain ⟨more, trees, hderives, hvalid, hmore⟩ := ih
    refine ⟨more, tree :: trees, ?_, by simpa using ⟨valid, hvalid⟩, hmore⟩
    rw [List.append_assoc]
    exact .cons first sign hderives

/-! ## The parser does not get past a wrong token -/

namespace Parser

variable {α β : Type} {x : Parse α} {f : α → Parse β} {p q : Parser} {t o : Token} {ts us rest : List Token}
  {tree : Tree} {kind : Token.Kind} {depth : Nat}

/-- The step does not succeed from the parser `p`. -/
def Fails (x : Parse α) (p : Parser) : Prop :=
  Gives x p fun _ _ => False

theorem Fails.bind (h : Fails x p) : Fails (x >>= f) p :=
  Gives.bind h fun _ _ hfalse => hfalse.elim

theorem Fails.after {a : α} (h : x p = .ok a q) (hf : Fails (f a) q) : Fails (x >>= f) p :=
  Gives.after h hf

theorem fails_expect (hp : p.rest = t :: us) (hkind : t.kind ≠ kind) : Fails (expect kind) p := by
  refine .after (peek_cons hp) ?_
  rw [if_neg hkind]
  exact gives_unexpected _ _

theorem fails_integerValue (h : largestLiteral < t.number) : Fails (integerValue t) p := by
  intro value q hvalue
  obtain ⟨-, -, hle⟩ := gives_integerValue value q hvalue
  omega

theorem fails_primary_start (hp : p.rest = t :: us)
    (hkind : t.kind ≠ .integer ∧ t.kind ≠ .identifier ∧ t.kind ≠ .leftParen) (inner : Parse NodeId) :
    Fails (primary inner) p := by
  obtain ⟨q, hadvance⟩ : ∃ q, advance p = .ok t q := by
    by_cases hend : t.kind = .endOfInput
    · exact ⟨p, advance_end hp hend⟩
    · exact ⟨_, advance_cons hp hend⟩
  refine .after hadvance ?_
  split
  · next h => exact absurd h hkind.1
  · next h => exact absurd h hkind.2.1
  · next h => exact absurd h hkind.2.2
  · exact gives_unexpected _ _

theorem fails_primary_large (hp : p.rest = t :: us) (hkind : t.kind = .integer) (h : largestLiteral < t.number)
    (inner : Parse NodeId) : Fails (primary inner) p := by
  refine .after (advance_cons hp (by simp [hkind])) ?_
  rw [hkind]
  exact (fails_integerValue h).bind

theorem fails_primary_parens {inner : Parse NodeId} (hp : p.rest = o :: us) (hkind : o.kind = .leftParen)
    (h : ∀ q, q.rest = us → Fails (do let id ← inner; let _ ← expect .rightParen; return id) q) :
    Fails (primary inner) p := by
  refine .after (advance_cons hp (by simp [hkind])) ?_
  rw [hkind]
  exact h _ rfl

section Chain

variable {operator? : Token.Kind → Option Arithmetic} {operand : Parse NodeId} {op : Arithmetic}

theorem fails_chain (h : Fails operand p) : Fails (chain operator? operand) p :=
  h.bind

/-- A chain fails if the operand behind one of its signs does. -/
theorem Resumes.fails (h : Resumes operator? operand p tree (o :: us)) (hop : operator? o.kind = some op)
    (ho : o.kind ≠ .endOfInput) (hf : ∀ q, q.rest = us → Fails operand q) :
    Fails (chain operator? operand) p := by
  obtain ⟨length, id, q, hlength, hchain, hq, -, -⟩ := h
  obtain ⟨length, rfl⟩ : ∃ k, length = k + 1 := Nat.exists_eq_succ_of_ne_zero (by omega)
  have hfrom : Fails (chainFrom operator? operand (length + 1) id) q := by
    refine .after (peek_cons hq) ?_
    rw [hop]
    refine .after (advance_cons hq ho) ?_
    exact (hf _ rfl).bind
  intro id' r hr
  rw [hchain] at hr
  exact hfrom id' r hr

end Chain

/-- An assignment fails if its target is not a name, or if its value fails. -/
theorem fails_assign (h : Builds (sum (expressionTo depth)) p tree (o :: us)) (ho : o.kind = .equal)
    (hv : tree.isName = true → ∀ q, q.rest = us → Fails (expressionTo depth) q) :
    Fails (expressionTo (depth + 1)) p := by
  obtain ⟨target, q, hrun, hq, -, hshows⟩ := h
  refine .after hrun ?_
  refine .after (isAt_cons hq .equal) ?_
  simp only [ho, decide_true, Bool.not_true, Bool.false_eq_true, if_false]
  refine .after (advance_cons hq (by simp [ho])) ?_
  refine .after (isName_apply target) ?_
  split
  · refine .after (get_apply _) ?_
    exact (gives_check _).bind fun _ _ _ => gives_reject_bind _
  · next hname =>
    have hname : tree.isName = true := by
      rw [← Forest.Shows.isName hshows]
      simpa using hname
    exact (hv hname _ rfl).bind

/-- What the parser does at a wrong token, for each kind of expression. -/
def Refuses (level : Precedence) (ts : List Token) (t : Token) : Prop :=
  ∀ depth p rest, p.rest = ts ++ t :: rest →
    match level with
    | .primary => ts.length ≤ depth → Fails (primary (expressionTo depth)) p
    | .product => ts.length ≤ depth → Fails (product (expressionTo depth)) p
    | .sum => ts.length ≤ depth → Fails (sum (expressionTo depth)) p
    | .expression => ts.length < depth → Fails (expressionTo depth) p

/-- The parser follows what is complete in front of a wrong token, and fails at the token. -/
theorem refuses_of_stuck {level : Precedence} (h : Stuck level ts t) (hr : ∀ u ∈ ts, u.Readable) :
    Refuses level ts t := by
  -- the depth bounds the tokens in front of the wrong one, so the parser never gives up for want of depth
  induction h with
  | start kind =>
    intro depth p rest hp _
    exact fails_primary_start hp kind _
  | large kind large =>
    intro depth p rest hp _
    exact fails_primary_large hp kind large _
  | @inside l t ts opening within ih =>
    intro depth p rest hp hdepth
    rw [List.length_cons] at hdepth
    refine fails_primary_parens hp opening fun q hq => ?_
    exact (ih (fun u hu => hr u (by simp [hu])) depth q rest hq (by omega)).bind
  | @unclosed l t ts tree opening inner valid stops unclosed =>
    intro depth p rest hp hdepth
    rw [List.length_cons] at hdepth
    have hfollows := follows_of_derives inner valid fun u hu => hr u (by simp [hu])
    refine fails_primary_parens hp opening fun q hq => ?_
    obtain ⟨id, q', hrun, hq', -, -⟩ := hfollows depth q t rest hq (by omega) stops.1 stops.2.1 stops.2.2
    exact .after hrun (fails_expect hq' unclosed).bind
  | factor only ih =>
    intro depth p rest hp hdepth
    exact fails_chain (ih hr depth p rest hp hdepth)
  | @product t o ts us op left first valid sign second ih =>
    intro depth p rest hp hdepth
    have hp : p.rest = ts ++ o :: (us ++ t :: rest) := by rw [hp]; simp
    rw [List.length_append, List.length_cons] at hdepth
    have hfirst := follows_of_derives first valid (fun u hu => hr u (by simp [hu])) depth p o _ hp (by omega)
    refine hfirst.fails sign (isChain_product.sign _ _ sign).1 fun q hq => ?_
    exact ih (fun u hu => hr u (by simp [hu])) depth q rest hq (by omega)
  | term only ih =>
    intro depth p rest hp hdepth
    exact fails_chain (ih hr depth p rest hp hdepth)
  | @sum t o ts us op left first valid sign second ih =>
    intro depth p rest hp hdepth
    have hp : p.rest = ts ++ o :: (us ++ t :: rest) := by rw [hp]; simp
    rw [List.length_append, List.length_cons] at hdepth
    have hfirst := follows_of_derives first valid (fun u hu => hr u (by simp [hu])) depth p o _ hp (by omega)
      (productOperator?_sum sign)
    refine hfirst.fails sign (isChain_sum.sign _ _ sign).1 fun q hq => ?_
    exact ih (fun u hu => hr u (by simp [hu])) depth q rest hq (by omega)
  | plain only ih =>
    intro depth p rest hp hdepth
    obtain ⟨depth, rfl⟩ : ∃ k, depth = k + 1 := Nat.exists_eq_succ_of_ne_zero (by omega)
    exact (ih hr depth p rest hp (by omega)).bind
  | @value t o ts us left target valid name sign value ih =>
    intro depth p rest hp hdepth
    obtain ⟨depth, rfl⟩ : ∃ k, depth = k + 1 := Nat.exists_eq_succ_of_ne_zero (by omega)
    have hp : p.rest = ts ++ o :: (us ++ t :: rest) := by rw [hp]; simp
    rw [List.length_append, List.length_cons] at hdepth
    have hpos := target.length_pos
    have htarget := follows_of_derives target valid (fun u hu => hr u (by simp [hu])) depth p o _ hp (by omega)
      (by rw [sign]; rfl)
    refine fails_assign (htarget.builds (by rw [sign]; rfl)) sign fun _ q hq => ?_
    exact ih (fun u hu => hr u (by simp [hu])) depth q rest hq (by omega)
  -- the target is read as a sum, and only then the sign shows that it had to be a name
  | @target t ts left target valid other sign =>
    intro depth p rest hp hdepth
    obtain ⟨depth, rfl⟩ : ∃ k, depth = k + 1 := Nat.exists_eq_succ_of_ne_zero (by omega)
    have htarget := follows_of_derives target valid hr depth p t _ hp (by omega) (by rw [sign]; rfl)
    refine fails_assign (htarget.builds (by rw [sign]; rfl)) sign fun hname => ?_
    rw [other] at hname
    cases hname

theorem fails_expression (h : Stuck .expression ts t) (hr : ∀ u ∈ ts, u.Readable)
    (hp : p.rest = ts ++ t :: rest) :
    Fails expression p := by
  refine .after (get_apply p) ?_
  refine refuses_of_stuck h hr (p.rest.length + 1) p rest hp ?_
  rw [hp, List.length_append]
  omega

/-- A statement is not read if its expression, or what should end it, is not. -/
theorem fails_statementsTo (h : StuckAll ts t) (hr : ∀ u ∈ ts, u.Readable) (hp : p.rest = ts ++ t :: rest)
    {count : Nat} (hcount : ts.length < count) : Fails (statementsTo count) p := by
  induction h generalizing p count with
  | @statement t ts first begun =>
    obtain ⟨count, rfl⟩ : ∃ k, count = k + 1 := Nat.exists_eq_succ_of_ne_zero (by omega)
    obtain ⟨u, us, hus, hu⟩ : ∃ u us, p.rest = u :: us ∧ u.kind ≠ .endOfInput := by
      cases ts with
      | nil => exact ⟨t, rest, hp, begun rfl⟩
      | cons u us => exact ⟨u, us ++ t :: rest, hp, first.kind_ne u (by simp)⟩
    refine .after (isAt_cons hus .endOfInput) ?_
    simp only [hu, decide_false, Bool.false_eq_true, if_false]
    exact (fails_expression first hr hp).bind
  | @unended t ts tree first valid stops unended =>
    obtain ⟨count, rfl⟩ : ∃ k, count = k + 1 := Nat.exists_eq_succ_of_ne_zero (by omega)
    obtain ⟨u, us, rfl⟩ : ∃ u us, ts = u :: us := List.exists_cons_of_length_pos first.length_pos
    have hu : u.kind ≠ .endOfInput := first.kind_ne u (by simp)
    obtain ⟨id, q, hrun, hq, -, -⟩ := builds_expression_of_stop first valid hr hp stops.1 stops.2.1 stops.2.2
    refine .after (isAt_cons hp .endOfInput) ?_
    simp only [hu, decide_false, Bool.false_eq_true, if_false]
    refine .after hrun ?_
    refine .after (isAt_cons hq .semicolon) ?_
    simp only [unended.1, decide_false, Bool.false_eq_true, if_false]
    refine .after (isAt_cons hq .endOfInput) ?_
    simp only [unended.2, decide_false, Bool.not_false, if_true]
    refine .after (peek_cons hq) ?_
    exact (gives_check _).bind fun _ _ _ => gives_reject_bind _
  | @cons t o ts us tree first valid sign others ih =>
    obtain ⟨count, rfl⟩ : ∃ k, count = k + 1 := Nat.exists_eq_succ_of_ne_zero (by omega)
    have hp : p.rest = ts ++ o :: (us ++ t :: rest) := by rw [hp]; simp
    rw [List.length_append, List.length_cons] at hcount
    have hbuilds := builds_expression first valid (fun u hu => hr u (by simp [hu])) hp (Or.inl sign)
    obtain ⟨id, q, hq, -, -, hrun⟩ :=
      statementsTo_succ hp first.length_pos first.kind_ne hbuilds (Or.inl sign) count
    rw [if_pos sign] at hq
    have hothers : Fails (do return id :: (← statementsTo count)) q :=
      (ih (fun u hu => hr u (by simp [hu])) hq (by omega)).bind
    intro ids r hids
    rw [hrun] at hids
    exact hothers ids r hids

/-- The parser accepts no program that goes on with a wrong token. -/
theorem fails_program (h : StuckAll ts t) (hr : ∀ u ∈ ts, u.Readable) (hp : p.rest = ts ++ t :: rest) :
    Fails program p := by
  refine gives_peek.bind fun u q hu => ?_
  obtain ⟨rfl, -⟩ := hu
  refine (gives_check _).bind fun start q' hstart => ?_
  obtain ⟨-, rfl⟩ := hstart
  refine .after (get_apply q') ?_
  refine (fails_statementsTo h hr hp ?_).bind
  rw [hp, List.length_append]
  omega

end Parser

end ArithJit
