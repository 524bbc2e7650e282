import ArithJit.Proofs.Grammar

/-!
# Proofs: the parser accepts what the grammar derives

The converse of what the module on the grammar shows. The parser takes as many tokens as it can, so a
derivation is followed only if the token behind it does not continue it: at the level of sums this token
must not be a sign of a product, and so on. A chain of operators is read from the left while its derivation
is split at the last operator; what carries the induction is that the parser, after the part of a chain that
was derived, stands in the loop that reads the rest of the chain (`Parser.Resumes`).

Together the two directions say that the parser accepts the programs of the grammar and no others, and that
it builds their trees (`Parser.program_follows_grammar`).
-/

namespace ArithJit

/-- A token that the parser can turn into a leaf, if it is a number or a name. -/
structure Token.Readable (t : Token) : Prop where
  placed : t.Placed
  digits : t.kind = .integer → ∀ c ∈ t.lexeme.toList, Lexer.continuesNumber c = true

namespace Parser

variable {p q : Parser} {t next : Token} {ts us rest : List Token} {id left : NodeId} {tree l r : Tree}
  {depth : Nat} {x operand : Parse NodeId} {operator? : Token.Kind → Option Arithmetic} {op : Arithmetic}

/-- From `p`, the step builds the tree and stops in front of `rest`. -/
def Builds (x : Parse NodeId) (p : Parser) (tree : Tree) (rest : List Token) : Prop :=
  ∃ id q, x p = .ok id q ∧ q.rest = rest ∧ Grows p q ∧ q.Shows id tree

/-- From `p`, a chain builds the tree and goes on in front of `rest`, with operators to spare. -/
def Resumes (operator? : Token.Kind → Option Arithmetic) (operand : Parse NodeId) (p : Parser) (tree : Tree)
    (rest : List Token) : Prop :=
  ∃ length id q, rest.length < length ∧
    chain operator? operand p = chainFrom operator? operand length id q ∧
    q.rest = rest ∧ Grows p q ∧ q.Shows id tree

/-- A chain has at least one operand. -/
theorem Builds.resumes (h : Builds operand p tree rest) : Resumes operator? operand p tree rest := by
  obtain ⟨id, q, hrun, rfl, hgrows, hshows⟩ := h
  refine ⟨q.rest.length + 1, id, q, Nat.lt_succ_self _, ?_, rfl, hgrows, hshows⟩
  have hchain : chain operator? operand p = _ := bind_of_ok hrun
  rw [hchain]
  exact bind_of_ok (get_apply q)

/-- A chain goes on over a sign and an operand. -/
theorem Resumes.append (h : Resumes operator? operand p l (t :: us)) (hop : operator? t.kind = some op)
    (ht : t.kind ≠ .endOfInput) (ho : ∀ q, q.rest = us → Builds operand q r rest)
    (hlen : rest.length ≤ us.length) :
    Resumes operator? operand p (.binary l (.arithmetic op) r) rest := by
  obtain ⟨length, id, q, hlength, hchain, hq, hgrows, hshows⟩ := h
  obtain ⟨length, rfl⟩ : ∃ k, length = k + 1 := Nat.exists_eq_succ_of_ne_zero (by omega)
  obtain ⟨right, q', hright, hq', hgrows', hshows'⟩ := ho { q with rest := us } rfl
  have hgrows' : Grows q q' := hgrows'.of_rest
  obtain ⟨id', q'', hadd, hq'', hgrows'', hshows''⟩ :=
    addBinary_apply (.arithmetic op) (hshows.grow hgrows') hshows'
  refine ⟨length, id', q'', ?_, ?_, hq''.trans hq', (hgrows.trans hgrows').trans hgrows'', hshows''⟩
  · rw [List.length_cons] at hlength
    omega
  · have hpeek : chainFrom operator? operand (length + 1) id q = _ := bind_of_ok (peek_cons hq)
    rw [hchain, hpeek, hop]
    simp only
    rw [bind_of_ok (advance_cons hq ht), bind_of_ok hright, bind_of_ok hadd]

/-- A chain stops in front of a token that is not one of its signs. -/
theorem Resumes.builds (h : Resumes operator? operand p tree (next :: rest))
    (hop : operator? next.kind = none) :
    Builds (chain operator? operand) p tree (next :: rest) := by
  obtain ⟨length, id, q, hlength, hchain, hq, hgrows, hshows⟩ := h
  obtain ⟨length, rfl⟩ : ∃ k, length = k + 1 := Nat.exists_eq_succ_of_ne_zero (by omega)
  refine ⟨id, q, ?_, hq, hgrows, hshows⟩
  have hpeek : chainFrom operator? operand (length + 1) id q = _ := bind_of_ok (peek_cons hq)
  rw [hchain, hpeek, hop]
  rfl

/-! ## Following a derivation -/

theorem builds_number (hp : p.rest = t :: rest) (hkind : t.kind = .integer) (ht : t.Readable)
    (hle : t.number ≤ largestLiteral) (inner : Parse NodeId) :
    Builds (primary inner) p (.number t.number) rest := by
  obtain ⟨span, hspan⟩ := check_span (p := { p with rest := rest }) (ht.placed (Or.inl hkind))
  refine ⟨_, _, ?_, ?_, (grows_withNode { p with rest := rest } _ span).of_rest, .number (get?_withNode _ _ _)⟩
  · have hadvance : primary inner p = _ := bind_of_ok (advance_cons hp (by simp [hkind]))
    rw [hadvance, hkind]
    simp only
    rw [bind_of_ok (integerValue_of_le (ht.digits hkind) hle), bind_of_ok hspan]
    exact addNode_apply _ _
  · rfl

theorem builds_name (hp : p.rest = t :: rest) (hkind : t.kind = .identifier) (ht : t.Readable)
    (inner : Parse NodeId) : Builds (primary inner) p (.name t.lexeme) rest := by
  obtain ⟨x, q, hintern, hq, hgrows, hnamed⟩ := internName_apply (p := { p with rest := rest }) t.lexeme
  obtain ⟨span, hspan⟩ := check_span (p := q) (ht.placed (Or.inr hkind))
  refine ⟨_, _, ?_, ?_, (hgrows.trans (grows_withNode q _ span)).of_rest, .name (get?_withNode _ _ _) hnamed⟩
  · have hadvance : primary inner p = _ := bind_of_ok (advance_cons hp (by simp [hkind]))
    rw [hadvance, hkind]
    simp only
    rw [bind_of_ok hintern, bind_of_ok hspan]
    exact addNode_apply _ _
  · exact hq

theorem builds_parens {inner : Parse NodeId} {c : Token} (hp : p.rest = t :: us) (hkind : t.kind = .leftParen)
    (hi : ∀ q, q.rest = us → Builds inner q tree (c :: rest)) (hc : c.kind = .rightParen) :
    Builds (primary inner) p tree rest := by
  obtain ⟨id, q, hrun, hq, hgrows, hshows⟩ := hi { p with rest := us } rfl
  refine ⟨id, { q with rest := rest }, ?_, rfl, ⟨hgrows.forest, hgrows.symbols⟩, hshows⟩
  have hadvance : primary inner p = _ := bind_of_ok (advance_cons hp (by simp [hkind]))
  rw [hadvance, hkind]
  simp only
  rw [bind_of_ok hrun, ← hc, bind_of_ok (expect_cons hq (by simp [hc]))]
  rfl

/-- Without an equals sign behind it, a sum is an expression. -/
theorem Builds.expressionTo (h : Builds (sum (expressionTo depth)) p tree (next :: rest))
    (hn : next.kind ≠ .equal) : Builds (expressionTo (depth + 1)) p tree (next :: rest) := by
  obtain ⟨id, q, hrun, hq, hgrows, hshows⟩ := h
  refine ⟨id, q, ?_, hq, hgrows, hshows⟩
  have hsum : Parser.expressionTo (depth + 1) p = _ := bind_of_ok hrun
  rw [hsum, bind_of_ok (isAt_cons hq .equal)]
  simp only [hn, decide_false, Bool.not_false, if_true]
  rfl

theorem builds_assign (h : Builds (sum (expressionTo depth)) p l (t :: us)) (ht : t.kind = .equal)
    (hl : l.isName = true) (hv : ∀ q, q.rest = us → Builds (expressionTo depth) q r rest) :
    Builds (expressionTo (depth + 1)) p (.binary l .assign r) rest := by
  obtain ⟨target, q, hrun, hq, hgrows, hshows⟩ := h
  obtain ⟨value, q', hvalue, hq', hgrows', hshows'⟩ := hv { q with rest := us } rfl
  have hgrows' : Grows q q' := hgrows'.of_rest
  obtain ⟨id, q'', hadd, hq'', hgrows'', hshows''⟩ := addBinary_apply .assign (hshows.grow hgrows') hshows'
  refine ⟨id, q'', ?_, hq''.trans hq', (hgrows.trans hgrows').trans hgrows'', hshows''⟩
  have hname : isName target { q with rest := us } = .ok true { q with rest := us } := by
    rw [isName_apply, ← hl, ← Forest.Shows.isName hshows]
  have hsum : Parser.expressionTo (depth + 1) p = _ := bind_of_ok hrun
  rw [hsum, bind_of_ok (isAt_cons hq .equal)]
  simp only [ht, decide_true, Bool.not_true, Bool.false_eq_true, if_false]
  rw [bind_of_ok (advance_cons hq (by simp [ht])), bind_of_ok hname]
  simp only [Bool.not_true, Bool.false_eq_true, if_false]
  rw [bind_of_ok hvalue]
  exact hadd

/-- What the parser does with the tokens of a derivation and those behind it, for each kind of expression.
Inside of parentheses and behind equals signs there are fewer tokens, so the depth is enough. -/
def Follows (level : Precedence) (ts : List Token) (tree : Tree) : Prop :=
  ∀ depth p next rest, p.rest = ts ++ next :: rest →
    match level with
    | .primary => ts.length ≤ depth → Builds (primary (expressionTo depth)) p tree (next :: rest)
    | .product => ts.length ≤ depth →
      Resumes productOperator? (primary (expressionTo depth)) p tree (next :: rest)
    | .sum => ts.length ≤ depth → productOperator? next.kind = none →
      Resumes sumOperator? (product (expressionTo depth)) p tree (next :: rest)
    | .expression => ts.length < depth → productOperator? next.kind = none → sumOperator? next.kind = none →
      next.kind ≠ .equal → Builds (expressionTo depth) p tree (next :: rest)

/-- The signs of sums do not continue a product, and the equals sign continues neither. -/
theorem productOperator?_sum {kind : Token.Kind} (h : sumOperator? kind = some op) :
    productOperator? kind = none := by
  cases kind <;> simp_all [sumOperator?, productOperator?]

/-- The parser goes along with a derivation. -/
theorem follows_of_derives {level : Precedence} (h : Derives level ts tree) (hv : tree.Valid)
    (hr : ∀ t ∈ ts, t.Readable) : Follows level ts tree := by
  induction h with
  | number kind =>
    intro depth p next rest hp _
    exact builds_number hp kind (hr _ (by simp)) hv _
  | name kind =>
    intro depth p next rest hp _
    exact builds_name hp kind (hr _ (by simp)) _
  | @parens o c ts tree opening inside closing ih =>
    intro depth p next rest hp hdepth
    have hinside := ih hv fun t ht => hr t (by simp [ht])
    have hp : p.rest = o :: (ts ++ c :: (next :: rest)) := by rw [hp]; simp
    rw [List.length_cons, List.length_append] at hdepth
    refine builds_parens hp opening (fun q hq => ?_) closing
    exact hinside depth q c (next :: rest) hq (by omega) (by rw [closing]; rfl) (by rw [closing]; rfl)
      (by simp [closing])
  | factor only ih =>
    intro depth p next rest hp hdepth
    exact (ih hv hr depth p next rest hp hdepth).resumes
  | @product ts us t op l r first sign second ihl ihr =>
    intro depth p next rest hp hdepth
    obtain ⟨-, hvl, hvr⟩ := hv
    have hp : p.rest = ts ++ t :: (us ++ next :: rest) := by rw [hp]; simp
    rw [List.length_append, List.length_cons] at hdepth
    have hfirst := ihl hvl (fun t ht => hr t (by simp [ht])) depth p t _ hp (by omega)
    refine hfirst.append sign (isChain_product.sign _ _ sign).1 (fun q hq => ?_) (by simp)
    exact ihr hvr (fun t ht => hr t (by simp [ht])) depth q next rest hq (by omega)
  | term only ih =>
    intro depth p next rest hp hdepth hnext
    exact ((ih hv hr depth p next rest hp hdepth).builds hnext).resumes
  | @sum ts us t op l r first sign second ihl ihr =>
    intro depth p next rest hp hdepth hnext
    obtain ⟨-, hvl, hvr⟩ := hv
    have hp : p.rest = ts ++ t :: (us ++ next :: rest) := by rw [hp]; simp
    rw [List.length_append, List.length_cons] at hdepth
    have hfirst := ihl hvl (fun t ht => hr t (by simp [ht])) depth p t _ hp (by omega)
      (productOperator?_sum sign)
    refine hfirst.append sign (isChain_sum.sign _ _ sign).1 (fun q hq => ?_) (by simp)
    exact (ihr hvr (fun t ht => hr t (by simp [ht])) depth q next rest hq (by omega)).builds hnext
  | plain only ih =>
    intro depth p next rest hp hdepth hnext hnext' hequal
    obtain ⟨depth, rfl⟩ : ∃ k, depth = k + 1 := Nat.exists_eq_succ_of_ne_zero (by omega)
    have hsum := ih hv hr depth p next rest hp (by omega) hnext
    exact (hsum.builds hnext').expressionTo hequal
  | @assign ts us t l r target sign value ihl ihr =>
    intro depth p next rest hp hdepth hnext hnext' hequal
    obtain ⟨hname, hvl, hvr⟩ := hv
    obtain ⟨depth, rfl⟩ : ∃ k, depth = k + 1 := Nat.exists_eq_succ_of_ne_zero (by omega)
    have hp : p.rest = ts ++ t :: (us ++ next :: rest) := by rw [hp]; simp
    rw [List.length_append, List.length_cons] at hdepth
    have hpos := target.length_pos
    have hsum := ihl hvl (fun t ht => hr t (by simp [ht])) depth p t _ hp (by omega) (by rw [sign]; rfl)
    refine builds_assign (hsum.builds (by rw [sign]; rfl)) sign (hname rfl) fun q hq => ?_
    exact ihr hvr (fun t ht => hr t (by simp [ht])) depth q next rest hq (by omega) hnext hnext' hequal

/-- An expression is read up to a token that does not continue it. -/
theorem builds_expression_of_stop (h : Derives .expression ts tree) (hv : tree.Valid)
    (hr : ∀ t ∈ ts, t.Readable)
    (hp : p.rest = ts ++ next :: rest) (hproduct : productOperator? next.kind = none)
    (hsum : sumOperator? next.kind = none) (hequal : next.kind ≠ .equal) :
    Builds expression p tree (next :: rest) := by
  have hdepth : ts.length < p.rest.length + 1 := by
    rw [hp, List.length_append]
    omega
  have hget : expression p = _ := bind_of_ok (get_apply p)
  rw [Builds, hget]
  exact follows_of_derives h hv hr (p.rest.length + 1) p next rest hp hdepth hproduct hsum hequal

/-- An expression is read up to a semicolon or the end of the input. -/
theorem builds_expression (h : Derives .expression ts tree) (hv : tree.Valid) (hr : ∀ t ∈ ts, t.Readable)
    (hp : p.rest = ts ++ next :: rest) (hn : next.kind = .semicolon ∨ next.kind = .endOfInput) :
    Builds expression p tree (next :: rest) := by
  rcases hn with hn | hn <;>
    exact builds_expression_of_stop h hv hr hp (by rw [hn]; rfl) (by rw [hn]; rfl) (by simp [hn])

/-! ## Programs -/

section Statements

variable {trees : List Tree} {stop : Token} {count : Nat}

/-- A statement is read, and the semicolon behind it, if there is one. -/
theorem statementsTo_succ (hp : p.rest = ts ++ next :: rest) (hts : 0 < ts.length)
    (hend : ∀ t ∈ ts, t.kind ≠ .endOfInput) (h : Builds expression p tree (next :: rest))
    (hn : next.kind = .semicolon ∨ next.kind = .endOfInput) (count : Nat) :
    ∃ id q, q.rest = (if next.kind = .semicolon then rest else next :: rest) ∧ Grows p q ∧ q.Shows id tree ∧
      statementsTo (count + 1) p = (do return id :: (← statementsTo count)) q := by
  obtain ⟨id, q, hrun, hq, hgrows, hshows⟩ := h
  obtain ⟨t, us, rfl⟩ : ∃ t us, ts = t :: us := List.exists_cons_of_length_pos hts
  have hnot : t.kind ≠ .endOfInput := hend t (by simp)
  have hat : statementsTo (count + 1) p = _ := bind_of_ok (isAt_cons hp .endOfInput)
  simp only [hnot, decide_false, Bool.false_eq_true, if_false] at hat
  rw [bind_of_ok hrun, bind_of_ok (isAt_cons hq .semicolon)] at hat
  rcases hn with hn | hn
  · refine ⟨id, { q with rest := rest }, by rw [if_pos hn], ⟨hgrows.forest, hgrows.symbols⟩, hshows, ?_⟩
    simp only [hn, decide_true, if_true] at hat
    rw [hat]
    exact bind_of_ok (advance_cons hq (by simp [hn]))
  · refine ⟨id, q, by rw [hq, if_neg (by simp [hn])], hgrows, hshows, ?_⟩
    simp only [hn, reduceCtorEq, decide_false, Bool.false_eq_true, if_false] at hat
    rw [hat, bind_of_ok (isAt_cons hq .endOfInput)]
    simp only [hn, decide_true, Bool.not_true, Bool.false_eq_true, if_false]

theorem statementsTo_derivesAll (h : DerivesAll ts trees) (hv : ∀ tree ∈ trees, tree.Valid)
    (hr : ∀ t ∈ ts, t.Readable) (hend : ∀ t ∈ ts, t.kind ≠ .endOfInput) (hs : stop.kind = .endOfInput)
    (hp : p.rest = ts ++ [stop]) (hcount : ts.length < count) :
    ∃ ids q, statementsTo count p = .ok ids q ∧ q.rest = [stop] ∧ Grows p q ∧
      List.Forall₂ q.Shows ids trees := by
  induction h generalizing p count with
  | nil => exact ⟨[], p, statementsTo_atEnd count hp hs, hp, .refl p, .nil⟩
  | @last ts tree only =>
    obtain ⟨count, rfl⟩ : ∃ k, count = k + 1 := Nat.exists_eq_succ_of_ne_zero (by omega)
    have hbuilds := builds_expression only (hv _ (by simp)) hr hp (Or.inr hs)
    obtain ⟨id, q, hq, hgrows, hshows, hrun⟩ :=
      statementsTo_succ hp only.length_pos hend hbuilds (Or.inr hs) count
    rw [if_neg (by simp [hs])] at hq
    refine ⟨[id], q, ?_, hq, hgrows, .cons hshows .nil⟩
    rw [hrun, bind_of_ok (statementsTo_atEnd count hq hs)]
    rfl
  | @cons ts us t tree trees first sign others ih =>
    obtain ⟨count, rfl⟩ : ∃ k, count = k + 1 := Nat.exists_eq_succ_of_ne_zero (by omega)
    have hp : p.rest = ts ++ t :: (us ++ [stop]) := by rw [hp]; simp
    have hbuilds := builds_expression first (hv _ (by simp)) (fun t ht => hr t (by simp [ht])) hp (Or.inl sign)
    obtain ⟨id, q, hq, hgrows, hshows, hrun⟩ := statementsTo_succ hp first.length_pos
      (fun t ht => hend t (by simp [ht])) hbuilds (Or.inl sign) count
    rw [if_pos sign] at hq
    have hbehind : us.length < count := by
      rw [List.length_append, List.length_cons] at hcount
      omega
    obtain ⟨ids, q', hids, hq', hgrows', hall⟩ := ih (fun tree ht => hv tree (by simp [ht]))
      (fun t ht => hr t (by simp [ht])) (fun t ht => hend t (by simp [ht])) hq hbehind
    refine ⟨id :: ids, q', ?_, hq', hgrows.trans hgrows', .cons (hshows.grow hgrows') hall⟩
    rw [hrun, bind_of_ok hids]
    rfl

/-- A program that the grammar derives is accepted, and its root is the block of its trees. -/
theorem program_derivesAll (h : DerivesAll ts trees) (hv : ∀ tree ∈ trees, tree.Valid)
    (hr : ∀ t ∈ ts, t.Readable) (hend : ∀ t ∈ ts, t.kind ≠ .endOfInput) (hs : stop.kind = .endOfInput)
    (hp : p.rest = ts ++ [stop]) (hfirst : ∀ t ∈ p.rest.head?, t.Fits) (hlast : stop.Fits) :
    ∃ root q, program p = .ok root q ∧ q.forest.ShowsAll q.symbols root trees := by
  obtain ⟨t, us, hus⟩ : ∃ t us, p.rest = t :: us := by
    rw [hp]
    cases ts with
    | nil => exact ⟨_, _, rfl⟩
    | cons t ts => exact ⟨_, _, rfl⟩
  obtain ⟨start, hstart⟩ := check_span (p := p) (hfirst t (by rw [hus]; rfl))
  have hcount : ts.length < p.rest.length + 1 := by
    rw [hp, List.length_append]
    omega
  obtain ⟨ids, q, hids, hq, hgrows, hall⟩ := statementsTo_derivesAll h hv hr hend hs hp hcount
  obtain ⟨last, hlast⟩ := check_span (p := q) hlast
  refine ⟨_, _, ?_, ids, get?_withNode q (.block ids) (start.merge last), ?_⟩
  · have hpeek : program p = _ := bind_of_ok (peek_cons hus)
    rw [hpeek, bind_of_ok hstart, bind_of_ok (get_apply p), bind_of_ok hids, bind_of_ok (peek_cons hq),
      bind_of_ok hlast]
    exact addNode_apply _ _
  · exact hall.imp fun _ _ hshows => hshows.grow (grows_withNode q _ _)

end Statements

/-- The parser accepts the programs of the grammar in which numbers are not too large and only names are
assigned to, and no others; its root is the block of the trees. The first token, the numbers, the names and
the end of the input must end in columns that are machine words. -/
theorem program_follows_grammar (body : List Token) (stop : Token) (forest : Forest) (symbols : SymbolTable)
    (hbody : ∀ t ∈ body, t.kind ≠ .endOfInput) (hstop : stop.kind = .endOfInput)
    (hdigits : ∀ t ∈ body, t.kind = .integer → ∀ c ∈ t.lexeme.toList, Lexer.continuesNumber c = true) :
    let run := program.run (.ofTokens (body ++ [stop]) forest symbols)
    ((∃ root p, run = .ok root p) ↔
      (∃ trees, DerivesAll body trees ∧ ∀ tree ∈ trees, tree.Valid) ∧
      (∀ t ∈ (body ++ [stop]).head?, t.Fits) ∧ (∀ t ∈ body, t.Placed) ∧ stop.Fits) ∧
    ∀ root p trees, run = .ok root p → DerivesAll body trees → (∀ tree ∈ trees, tree.Valid) →
      p.forest.ShowsAll p.symbols root trees := by
  intro run
  have hsound : ∀ root p, run = .ok root p →
      (∃ trees, DerivesAll body trees ∧ ∀ tree ∈ trees, tree.Valid) ∧
      (∀ t ∈ (body ++ [stop]).head?, t.Fits) ∧ (∀ t ∈ body, t.Placed) ∧ stop.Fits := by
    intro root p hrun
    obtain ⟨ts, trees, t, us, hrest, ht, hall, hvalid, hplaced, hlast, hfirst, -⟩ := gives_program root p hrun
    obtain ⟨rfl, rfl⟩ := eq_of_ends hbody ht hrest
    exact ⟨⟨trees, hall, hvalid⟩, hfirst, hplaced, hlast⟩
  have hcomplete : ∀ trees, DerivesAll body trees → (∀ tree ∈ trees, tree.Valid) →
      (∀ t ∈ (body ++ [stop]).head?, t.Fits) → (∀ t ∈ body, t.Placed) → stop.Fits →
      ∃ root p, run = .ok root p ∧ p.forest.ShowsAll p.symbols root trees := by
    intro trees hall hvalid hfirst hplaced hlast
    exact program_derivesAll hall hvalid (fun t ht => ⟨hplaced t ht, hdigits t ht⟩) hbody hstop rfl hfirst hlast
  refine ⟨⟨?_, ?_⟩, ?_⟩
  · rintro ⟨root, p, hrun⟩
    exact hsound root p hrun
  · rintro ⟨⟨trees, hall, hvalid⟩, hfirst, hplaced, hlast⟩
    obtain ⟨root, p, hrun, -⟩ := hcomplete trees hall hvalid hfirst hplaced hlast
    exact ⟨root, p, hrun⟩
  · intro root p trees hrun hall hvalid
    obtain ⟨-, hfirst, hplaced, hlast⟩ := hsound root p hrun
    obtain ⟨root', p', hrun', hshows⟩ := hcomplete trees hall hvalid hfirst hplaced hlast
    rw [hrun] at hrun'
    cases hrun'
    exact hshows

/-- The tokens of `(x) = 8 - 4 - 2;`. -/
def differences : List Token :=
  [⟨.leftParen, "(", ⟨1, 0⟩⟩, ⟨.identifier, "x", ⟨1, 1⟩⟩, ⟨.rightParen, ")", ⟨1, 2⟩⟩] ++
    ⟨.equal, "=", ⟨1, 4⟩⟩ ::
    ([⟨.integer, "8", ⟨1, 6⟩⟩] ++ ⟨.minus, "-", ⟨1, 8⟩⟩ :: [⟨.integer, "4", ⟨1, 10⟩⟩] ++
    ⟨.minus, "-", ⟨1, 12⟩⟩ :: [⟨.integer, "2", ⟨1, 14⟩⟩]) ++ [⟨.semicolon, ";", ⟨1, 15⟩⟩]

/-- Differences are taken from the left, and parentheses leave no node. -/
theorem program_follows_grammar_differences : ∃ root p,
    program.run (.ofTokens (differences ++ [⟨.endOfInput, "", ⟨1, 16⟩⟩])) = .ok root p ∧
    p.forest.ShowsAll p.symbols root [.binary (.name "x") .assign
      (.binary (.binary (.number 8) (.arithmetic .sub) (.number 4)) (.arithmetic .sub) (.number 2))] := by
  set trees : List Tree := [.binary (.name "x") .assign
    (.binary (.binary (.number 8) (.arithmetic .sub) (.number 4)) (.arithmetic .sub) (.number 2))]
  have hnumber : ∀ t : Token, t.kind = .integer → Derives .product [t] (.number t.number) :=
    fun t ht => .factor (.number ht)
  have hall : DerivesAll differences trees := by
    have hname : ∀ t : Token, t.kind = .identifier → Derives .expression [t] (.name t.lexeme) :=
      fun t ht => .plain (.term (.factor (.name ht)))
    have htarget := Derives.parens (l := ⟨.leftParen, "(", ⟨1, 0⟩⟩) rfl
      (hname ⟨.identifier, "x", ⟨1, 1⟩⟩ rfl) (r := ⟨.rightParen, ")", ⟨1, 2⟩⟩) rfl
    refine .cons (.assign (.term (.factor htarget)) rfl ?_) rfl .nil
    exact .plain (.sum (.sum (.term (hnumber ⟨.integer, "8", ⟨1, 6⟩⟩ rfl)) rfl
      (hnumber ⟨.integer, "4", ⟨1, 10⟩⟩ rfl)) rfl (hnumber ⟨.integer, "2", ⟨1, 14⟩⟩ rfl))
  have hvalid : ∀ tree ∈ trees, tree.Valid := by
    simp [trees, Tree.Valid, Tree.isName, largestLiteral]
  have hdigits : ∀ t ∈ differences, t.kind = .integer → t.lexeme.toList.all Lexer.continuesNumber = true := by
    decide
  have hfollows := program_follows_grammar differences ⟨.endOfInput, "", ⟨1, 16⟩⟩ .empty .empty (by decide) rfl
    fun t ht hkind => List.all_eq_true.mp (hdigits t ht hkind)
  obtain ⟨root, p, hrun⟩ := hfollows.1.mpr ⟨⟨trees, hall, hvalid⟩, by decide, by decide, by decide⟩
  exact ⟨root, p, hrun, hfollows.2 root p trees hrun hall hvalid⟩

/-- A name in the last column has no span, so the parser does not accept it, although it is a program. -/
theorem program_rejects_last_column :
    DerivesAll [⟨.identifier, "x", ⟨1, 18446744073709551615⟩⟩] [.name "x"] ∧ (Tree.name "x").Valid ∧
    ¬ ∃ root p, program.run (.ofTokens ([⟨.identifier, "x", ⟨1, 18446744073709551615⟩⟩] ++
      [⟨.endOfInput, "", ⟨1, 0⟩⟩])) = .ok root p := by
  refine ⟨.last (.plain (.term (.factor (.name rfl)))), trivial, ?_⟩
  rintro ⟨root, p, hrun⟩
  obtain ⟨-, -, -, -, -, -, -, -, -, -, hfirst, -⟩ := gives_program root p hrun
  have hfits : (⟨.identifier, "x", ⟨1, 18446744073709551615⟩⟩ : Token).Fits := hfirst _ rfl
  revert hfits
  decide

end Parser

end ArithJit
