import ArithJit.Proofs.Blame
import ArithJit.Proofs.Grounded
import ArithJit.Proofs.ParserMoves

/-!
# Proofs: the exact spans of all nodes

Each leaf of a tree was made of one token and has its span. So a node yields the tokens that the leaves under it were
made of, from left to right (`Forest.Yields`), and the nodes on the stack of the parser yield the numbers and names
that were taken (`Parser.Tracks`). The tokens of a text stand in their order. So a node reaches from the first of its
tokens to the last one, and the tokens of its left operand end before those of its right operand start.
-/

namespace ArithJit

open Relation (ReflTransGen)

/-! ## Spans within spans -/

/-- All of `t` lies within `s`. -/
def Span.Contains (s t : Span) : Prop :=
  ¬ t.start < s.start ∧ ¬ s.stop < t.stop

/-- The first span ends before the second one starts, or where it starts. -/
def Span.Before (s t : Span) : Prop :=
  ¬ t.start < s.stop

theorem Position.lt_irrefl (p : Position) : ¬ p < p :=
  fun h => Position.not_lt_of_lt h h

theorem Position.eq_of_not_lt {p q : Position} (h : ¬ p < q) (h' : ¬ q < p) : p = q := by
  rw [Position.lt_iff] at h h'
  rw [Position.mk.injEq]
  omega

/-- The position just past the token; the end of the input takes one column. -/
def Token.stop (t : Token) : Position :=
  ⟨t.position.line, t.position.column + max t.lexeme.length 1⟩

theorem Token.Precedes.lt {t u : Token} (h : t.Precedes u) :
    t.position < u.position ∧ t.stop < u.stop ∧ ¬ u.position < t.stop := by
  unfold Token.Precedes at h
  rw [Position.lt_iff, Position.lt_iff, Position.lt_iff, Token.stop, Token.stop]
  simp only
  omega

/-- Of tokens in their order, the former ones start before the latter ones, end before them and do not overlap them. -/
theorem lt_of_pairwise_append {ts us : List Token} {a b c d : Token}
    (ho : (ts ++ us).Pairwise Token.Precedes) (ha : ts.head? = some a) (hb : ts.getLast? = some b)
    (hc : us.head? = some c) (hd : us.getLast? = some d) :
    a.position < c.position ∧ b.stop < d.stop ∧ ¬ c.position < b.stop := by
  have hacross := (List.pairwise_append.mp ho).2.2
  have hac := (hacross a (List.mem_of_head? ha) c (List.mem_of_head? hc)).lt
  have hbd := (hacross b (List.mem_of_getLast? hb) d (List.mem_of_getLast? hd)).lt
  have hbc := (hacross b (List.mem_of_getLast? hb) c (List.mem_of_head? hc)).lt
  exact ⟨hac.1, hbd.2.1, hbc.2.2⟩

/-! ## The tokens under a node -/

namespace Forest

variable {f g : Forest} {names names' : SymbolTable} {root id left right c : NodeId} {op : Operator}
  {ids : List NodeId} {ts us : List Token} {tss : List (List Token)}

/-- The leaves under the node were made of the tokens, from left to right. A leaf has the span of its token, an
operator the joint span of its operands. -/
inductive Yields (f : Forest) (names : SymbolTable) : NodeId → List Token → Prop where
  | number {id : NodeId} {t : Token} (node : f.get? id = some (.literal (.integer (Int32.ofNat t.number))))
      (kind : t.kind = .integer) (placed : t.span = .ok (f.span id)) : Yields f names id [t]
  | name {id : NodeId} {x : Symbol} {t : Token} (node : f.get? id = some (.name x))
      (kind : t.kind = .identifier)
      (named : names.name? x = some t.lexeme) (placed : t.span = .ok (f.span id)) : Yields f names id [t]
  | binary {id left right : NodeId} {op : Operator} {ts us : List Token}
      (node : f.get? id = some (.binary left op right)) (first : Yields f names left ts)
      (second : Yields f names right us) (merged : f.span id = (f.span left).merge (f.span right)) :
      Yields f names id (ts ++ us)

theorem Yields.span_eq (h : f.Yields names id ts) (hg : f.Keeps g) : g.span id = f.span id := by
  cases h with
  | number node => exact hg.span_of_get? node
  | name node => exact hg.span_of_get? node
  | binary node => exact hg.span_of_get? node

theorem Yields.mono (h : f.Yields names id ts) (hg : f.Keeps g) (hn : names.names <+: names'.names) :
    g.Yields names' id ts := by
  induction h with
  | number node kind placed => exact .number (hg.extends _ _ node) kind (by rw [hg.span_of_get? node, placed])
  | name node kind named placed =>
    exact .name (hg.extends _ _ node) kind (SymbolTable.name?_mono hn named)
      (by rw [hg.span_of_get? node, placed])
  | binary node first second merged ihl ihr =>
    refine .binary (hg.extends _ _ node) ihl ihr ?_
    rw [hg.span_of_get? node, merged, first.span_eq hg, second.span_eq hg]

/-- The span of a node reaches from the first to the last of its tokens. -/
theorem Yields.reaches (h : f.Yields names id ts) (ho : ts.Pairwise Token.Precedes) :
    ∃ first last, ts.head? = some first ∧ ts.getLast? = some last ∧
      f.span id = ⟨first.position, last.stop⟩ := by
  induction h with
  | number node kind placed => exact ⟨_, _, rfl, rfl, Token.span_ok placed⟩
  | name node kind named placed => exact ⟨_, _, rfl, rfl, Token.span_ok placed⟩
  | binary node first second merged ihl ihr =>
    obtain ⟨hol, hor, -⟩ := List.pairwise_append.mp ho
    obtain ⟨a, b, ha, hb, hl⟩ := ihl hol
    obtain ⟨c, d, hc, hd, hr⟩ := ihr hor
    obtain ⟨hstart, hstop, -⟩ := lt_of_pairwise_append ho ha hb hc hd
    refine ⟨a, d, ?_, ?_, ?_⟩
    · rw [List.head?_append, ha]
      rfl
    · rw [List.getLast?_append, hd]
      rfl
    · rw [merged, hl, hr]
      exact Span.merge_of_lt hstart hstop

/-- An operator contains its operands, and the left one ends before the right one starts. -/
theorem Yields.operands (h : f.Yields names id ts) (ho : ts.Pairwise Token.Precedes)
    (hnode : f.get? id = some (.binary left op right)) : (f.span id).Contains (f.span left) ∧
      (f.span id).Contains (f.span right) ∧ (f.span left).Before (f.span right) := by
  cases h with
  | number node => cases node.symm.trans hnode
  | name node => cases node.symm.trans hnode
  | binary node first second merged =>
    cases node.symm.trans hnode
    obtain ⟨hol, hor, -⟩ := List.pairwise_append.mp ho
    obtain ⟨a, b, ha, hb, hl⟩ := first.reaches hol
    obtain ⟨c, d, hc, hd, hr⟩ := second.reaches hor
    obtain ⟨hstart, hstop, hbefore⟩ := lt_of_pairwise_append ho ha hb hc hd
    have hspan : f.span id = ⟨a.position, d.stop⟩ := by
      rw [merged, hl, hr]
      exact Span.merge_of_lt hstart hstop
    rw [hspan, hl, hr]
    exact ⟨⟨Position.lt_irrefl _, Position.not_lt_of_lt hstop⟩,
      ⟨Position.not_lt_of_lt hstart, Position.lt_irrefl _⟩, hbefore⟩

/-! ## The nodes of a program -/

/-- The second node is a child of the first one. -/
def IsChild (f : Forest) (parent child : NodeId) : Prop :=
  ∃ node, f.get? parent = some node ∧ child ∈ node.children

/-- Only operators have children. -/
theorem Yields.exists_binary (h : f.Yields names id ts) (hc : f.IsChild id c) :
    ∃ left op right, f.get? id = some (.binary left op right) ∧ (c = left ∨ c = right) := by
  obtain ⟨node', hnode', hmem⟩ := hc
  cases h with
  | number node =>
    cases node.symm.trans hnode'
    cases hmem
  | name node =>
    cases node.symm.trans hnode'
    cases hmem
  | binary node =>
    cases node.symm.trans hnode'
    exact ⟨_, _, _, node, List.mem_pair.mp hmem⟩

theorem Yields.contains (h : f.Yields names id ts) (ho : ts.Pairwise Token.Precedes) (hc : f.IsChild id c) :
    (f.span id).Contains (f.span c) := by
  obtain ⟨left, op, right, hnode, rfl | rfl⟩ := h.exists_binary hc
  · exact (h.operands ho hnode).1
  · exact (h.operands ho hnode).2.1

theorem Yields.child (h : f.Yields names id ts) (hc : f.IsChild id c) :
    ∃ us, f.Yields names c us ∧ us.Sublist ts := by
  obtain ⟨left, op, right, hnode, hchild⟩ := h.exists_binary hc
  cases h with
  | number node => cases node.symm.trans hnode
  | name node => cases node.symm.trans hnode
  | binary node first second merged =>
    cases node.symm.trans hnode
    rcases hchild with rfl | rfl
    · exact ⟨_, first, List.sublist_append_left _ _⟩
    · exact ⟨_, second, List.sublist_append_right _ _⟩

/-- The node is a block of trees that yield the tokens. -/
def YieldsAll (f : Forest) (names : SymbolTable) (root : NodeId) (ts : List Token) : Prop :=
  ∃ ids tss, f.get? root = some (.block ids) ∧ List.Forall₂ (f.Yields names) ids tss ∧ tss.flatten = ts

theorem YieldsAll.child (h : f.YieldsAll names root ts) (hc : f.IsChild root c) :
    ∃ us, f.Yields names c us ∧ us.Sublist ts := by
  obtain ⟨ids, tss, hnode, hall, rfl⟩ := h
  obtain ⟨node', hnode', hmem⟩ := hc
  cases hnode.symm.trans hnode'
  obtain ⟨i, hi, rfl⟩ := List.getElem_of_mem hmem
  have hi' : i < tss.length := hall.length_eq ▸ hi
  exact ⟨tss[i], hall.get hi hi', List.sublist_flatten_of_mem (List.getElem_mem hi')⟩

/-- Each node of a program other than its root yields some of its tokens. -/
theorem YieldsAll.reachable (h : f.YieldsAll names root ts) (hid : ReflTransGen f.IsChild root id) :
    id = root ∨ ∃ us, f.Yields names id us ∧ us.Sublist ts := by
  induction hid with
  | refl => exact .inl rfl
  | tail _ hchild ih =>
    refine .inr ?_
    rcases ih with rfl | ⟨us, hus, hsub⟩
    · exact h.child hchild
    · obtain ⟨vs, hvs, hsub'⟩ := hus.child hchild
      exact ⟨vs, hvs, hsub'.trans hsub⟩

end Forest

/-! ## Moves -/

namespace Parser

variable {p q : Parser} {tokens us : List Token} {t : Token} {c d : Stacked} {id : NodeId} {stack : List NodeId}

/-- The nodes on the stack yield the numbers and names that were taken. -/
def Tracks (tokens : List Token) (c : Stacked) : Prop :=
  ∃ taken tss, tokens = taken ++ c.1.rest ∧ List.Forall₂ (c.1.forest.Yields c.1.symbols) c.2 tss ∧
    tss.reverse.flatten = leaves taken

theorem leaves_concat (ts : List Token) (t : Token) :
    leaves (ts ++ [t]) = leaves ts ++ if t.isLeaf then [t] else [] := by
  rw [leaves, List.filter_append]
  cases h : t.isLeaf with
  | true => simp [leaves, h]
  | false => simp [leaves, h]

/-- A leaf is made of the token in front of the parser. -/
theorem Tracks.leaf (h : Tracks tokens (p, stack)) (next : p.rest = t :: us) (ht : t.isLeaf = true)
    (hrest : q.rest = us) (hq : Grows p q) (hid : q.forest.Yields q.symbols id [t]) :
    Tracks tokens (q, id :: stack) := by
  obtain ⟨taken, tss, htokens, hyields, hleaves⟩ := h
  refine ⟨taken ++ [t], [t] :: tss, ?_, .cons hid (hyields.imp fun _ _ hy => hy.mono hq.forest hq.symbols), ?_⟩
  · rw [htokens, next, hrest]
    simp
  · rw [leaves_concat, List.reverse_cons, List.flatten_append, hleaves]
    simp [ht]

theorem Move.tracks (h : Move c d) (hc : Tracks tokens c) : Tracks tokens d := by
  cases h with
  | @sign p t us stack next kind =>
    obtain ⟨taken, tss, htokens, hyields, hleaves⟩ := hc
    refine ⟨taken ++ [t], tss, ?_, hyields, ?_⟩
    · rw [htokens, next]
      simp
    · rw [leaves_concat, Token.isLeaf_eq_false kind.2, hleaves]
      simp
  | @number p t us stack span next kind small placed =>
    refine hc.leaf next (by simp [Token.isLeaf, kind]) rfl (grows_withNode _ _ _).of_rest ?_
    exact .number (get?_withNode _ _ _) kind (by rw [placed, span_withNode])
  | @name p t us stack span next kind placed =>
    have hinterned : Grows p { p with rest := us, symbols := (p.symbols.intern t.lexeme).2 } :=
      ⟨List.prefix_refl _, p.symbols.names_intern t.lexeme⟩
    refine hc.leaf next (by simp [Token.isLeaf, kind]) rfl (hinterned.trans (grows_withNode _ _ _)) ?_
    exact .name (get?_withNode _ _ _) kind (p.symbols.name?_intern t.lexeme) (by rw [placed, span_withNode])
  | join p left right op stack =>
    obtain ⟨taken, tss, htokens, hyields, hleaves⟩ := hc
    have hgrows := p.grows_withNode (.binary left op right) ((p.forest.span left).merge (p.forest.span right))
    cases hyields with
    | @cons _ us _ tss hright hyields =>
      cases hyields with
      | @cons _ ts _ tss hleft hyields =>
        refine ⟨taken, (ts ++ us) :: tss, htokens, .cons ?_ ?_, ?_⟩
        · refine .binary (get?_withNode _ _ _) (hleft.mono hgrows.forest hgrows.symbols)
            (hright.mono hgrows.forest hgrows.symbols) ?_
          rw [span_withNode, hleft.span_eq hgrows.forest, hright.span_eq hgrows.forest]
        · exact hyields.imp fun _ _ hy => hy.mono hgrows.forest hgrows.symbols
        · rw [← hleaves]
          simp

theorem Moves.tracks (h : Moves c d) (hc : Tracks tokens c) : Tracks tokens d :=
  h.preserve (fun _ _ => Move.tracks) hc

/-- The root of an accepted program yields the numbers and names in front of the end of the input, and has the joint
span of the first token and the end of the input. -/
theorem yields_program {root : NodeId} (h : program p = .ok root q) : ∃ taken first stop us start last,
    p.rest = taken ++ stop :: us ∧ stop.kind = .endOfInput ∧ p.rest.head? = some first ∧
    first.span = .ok start ∧ stop.span = .ok last ∧ q.forest.span root = start.merge last ∧
    q.forest.YieldsAll q.symbols root (leaves taken) := by
  have hruns := runs_program p
  rw [Runs, h] at hruns
  obtain ⟨ids, r, hmoves, rfl, first, vs, stop, us, start, last, hvs, hstart, hus, hend, hlast, rfl⟩ := hruns
  have hnone : Tracks p.rest (p, []) := ⟨[], [], rfl, .nil, rfl⟩
  obtain ⟨taken, tss, htaken, hyields, hleaves⟩ := hmoves.tracks hnone
  have hgrows := r.grows_withNode (.block ids) (start.merge last)
  refine ⟨taken, first, stop, us, start, last, ?_, hend, by rw [hvs]; rfl, hstart, hlast,
    span_withNode _ _ _, ids, tss.reverse, get?_withNode _ _ _, ?_, hleaves⟩
  · rw [htaken, hus]
  · have hids := List.rel_reverse hyields
    rw [List.reverse_reverse] at hids
    exact hids.imp fun _ _ hy => hy.mono hgrows.forest hgrows.symbols

end Parser

/-! ## Spans of a text -/

theorem Session.program_of_parse {s s' : Session} {source : String} {tokens : List Token} {root : NodeId}
    (ht : tokenize source = .ok tokens) (h : s.parse source = (.ok root, s')) :
    ∃ q, Parser.program (.ofTokens tokens s.forest s.symbols) = .ok root q ∧ s' = s.keep q := by
  rw [Session.parse, ht] at h
  simp only [EStateM.run] at h
  cases hprogram : Parser.program (.ofTokens tokens s.forest s.symbols) with
  | ok root' q =>
    rw [hprogram] at h
    cases h
    exact ⟨q, rfl, rfl⟩
  | error failure q =>
    rw [hprogram] at h
    cases h

/-- The last token is the end of the input, without a text, and there is no other. -/
theorem Segmented.exists_stop {before text : List Char} {ts : List Token} (h : Segmented before text ts) :
    ∃ front position, ts = front ++ [⟨.endOfInput, "", position⟩] ∧
      ∀ t ∈ front, t.kind ≠ .endOfInput := by
  induction h with
  | stop blank => exact ⟨[], _, rfl, nofun⟩
  | word blank spelled maximal others ih =>
    obtain ⟨front, position, rfl, hfront⟩ := ih
    exact ⟨_ :: front, position, rfl, List.forall_mem_cons.mpr ⟨spelled.ne_endOfInput, hfront⟩⟩

section Ordered

variable {ts : List Token} {t first last : Token} (ho : ts.Pairwise Token.Precedes)

include ho

/-- No token starts before the first one. -/
theorem not_lt_first (hfirst : ts.head? = some first) (ht : t ∈ ts) : ¬ t.position < first.position := by
  cases ts with
  | nil => cases ht
  | cons u us =>
    cases hfirst
    rcases List.mem_cons.mp ht with rfl | ht
    · exact Position.lt_irrefl _
    · exact Position.not_lt_of_lt ((List.pairwise_cons.mp ho).1 t ht).lt.1

/-- No token ends after the last one. -/
theorem not_last_lt (hlast : ts.getLast? = some last) (ht : t ∈ ts) : ¬ last.stop < t.stop := by
  obtain ⟨us, rfl⟩ := List.getLast?_eq_some_iff.mp hlast
  rcases List.mem_append.mp ht with ht | ht
  · exact Position.not_lt_of_lt ((List.pairwise_append.mp ho).2.2 t ht last List.mem_cons_self).lt.2.1
  · rw [List.mem_singleton.mp ht]
    exact Position.lt_irrefl _

/-- The joint span of the first and the last token. -/
theorem merge_first_last {s s' : Span} (hfirst : ts.head? = some first) (hlast : ts.getLast? = some last)
    (hs : first.span = .ok s) (hs' : last.span = .ok s') : s.merge s' = ⟨first.position, last.stop⟩ := by
  have hstart := not_lt_first ho hfirst (List.mem_of_getLast? hlast)
  have hstop := not_last_lt ho hlast (List.mem_of_head? hfirst)
  rw [Token.span_ok hs, Token.span_ok hs', Span.merge, if_neg hstart]
  change (⟨first.position, if first.stop < last.stop then last.stop else first.stop⟩ : Span) = _
  by_cases hlt : first.stop < last.stop
  · rw [if_pos hlt]
  · rw [if_neg hlt, Position.eq_of_not_lt hlt hstop]

end Ordered

/-- The spans of nodes are exact. The root of a program is a block of trees that yield the numbers and names of the
text in their order, where each leaf has the span of its token. Each node other than the root reaches from the first
to the last of its tokens, and the root from the first token of the text to one column past the end of the input. A
node contains its children, and the left operand of an operator ends before the right one starts. -/
theorem parse_spans_exact {s s' : Session} {source : String} {tokens : List Token} {root : NodeId}
    (ht : tokenize source = .ok tokens) (h : s.parse source = (.ok root, s')) :
    s'.forest.YieldsAll s'.symbols root (leaves tokens) ∧
    (∃ first last, tokens.head? = some first ∧ tokens.getLast? = some last ∧ last.kind = .endOfInput ∧
      s'.forest.span root = ⟨first.position, ⟨last.position.line, last.position.column + 1⟩⟩) ∧
    (∀ id, ReflTransGen s'.forest.IsChild root id → id ≠ root → ∃ ts first last,
      s'.forest.Yields s'.symbols id ts ∧ ts.Sublist (leaves tokens) ∧ ts.head? = some first ∧
      ts.getLast? = some last ∧ s'.forest.span id = ⟨first.position, last.stop⟩) ∧
    (∀ id c, ReflTransGen s'.forest.IsChild root id → s'.forest.IsChild id c →
      (s'.forest.span id).Contains (s'.forest.span c)) ∧
    ∀ id left op right, ReflTransGen s'.forest.IsChild root id →
      s'.forest.get? id = some (.binary left op right) →
      (s'.forest.span left).Before (s'.forest.span right) := by
  have hordered := (orderly_tokenize ht).ordered
  have hleavesOrdered : (leaves tokens).Pairwise Token.Precedes := hordered.filter _
  obtain ⟨q, hrun, rfl⟩ := Session.program_of_parse ht h
  obtain ⟨taken, first, stop, us, start, last, hrest, hend, hfirst, hstart, hlast, hspan, hyields⟩ :=
    Parser.yields_program hrun
  have hrest : tokens = taken ++ stop :: us := hrest
  have hfirst : tokens.head? = some first := hfirst
  -- the program ends at the last token
  obtain ⟨front, position, rfl, hfront⟩ := (tokenize_eq_ok_iff.mp ht).exists_stop
  obtain ⟨rfl, rfl⟩ := eq_of_ends hfront hend hrest
  have hgetLast : (front ++ [(⟨.endOfInput, "", position⟩ : Token)]).getLast? =
      some ⟨.endOfInput, "", position⟩ :=
    List.getLast?_concat
  have hleaves : leaves (front ++ [⟨.endOfInput, "", position⟩]) = leaves front := by
    rw [Parser.leaves_concat]
    exact List.append_nil _
  rw [← hleaves] at hyields
  rw [merge_first_last hordered hfirst hgetLast hstart hlast] at hspan
  refine ⟨hyields, ⟨first, _, hfirst, hgetLast, rfl, hspan⟩, ?_, ?_, ?_⟩
  · intro id hid hne
    obtain ⟨ts, hts, hsub⟩ := (hyields.reachable hid).resolve_left hne
    obtain ⟨a, b, ha, hb, hspan⟩ := hts.reaches (hleavesOrdered.sublist hsub)
    exact ⟨ts, a, b, hts, hsub, ha, hb, hspan⟩
  · intro id c hid hc
    rcases hyields.reachable hid with rfl | ⟨ts, hts, hsub⟩
    · obtain ⟨us, hus, hsub⟩ := hyields.child hc
      obtain ⟨a, b, ha, hb, hspan'⟩ := hus.reaches (hleavesOrdered.sublist hsub)
      have hmem : ∀ t ∈ us, t ∈ front ++ [(⟨.endOfInput, "", position⟩ : Token)] :=
        fun t ht => mem_of_mem_leaves (hsub.subset ht)
      change (q.forest.span id).Contains (q.forest.span c)
      rw [hspan, show q.forest.span c = _ from hspan']
      exact ⟨not_lt_first hordered hfirst (hmem a (List.mem_of_head? ha)),
        not_last_lt hordered hgetLast (hmem b (List.mem_of_getLast? hb))⟩
    · exact hts.contains (hleavesOrdered.sublist hsub) hc
  · intro id left op right hid hnode
    rcases hyields.reachable hid with rfl | ⟨ts, hts, hsub⟩
    · obtain ⟨ids, tss, hblock, -, -⟩ := hyields
      cases hblock.symm.trans hnode
    · exact (hts.operands (hleavesOrdered.sublist hsub) hnode).2.2

/-- The tokens of a sum in parentheses, in two lines. -/
def brokenSum : List Token :=
  [⟨.identifier, "x", ⟨1, 0⟩⟩, ⟨.equal, "=", ⟨1, 2⟩⟩, ⟨.leftParen, "(", ⟨1, 4⟩⟩,
    ⟨.integer, "1", ⟨1, 5⟩⟩, ⟨.plus, "+", ⟨2, 0⟩⟩, ⟨.integer, "2", ⟨2, 2⟩⟩,
    ⟨.rightParen, ")", ⟨2, 3⟩⟩, ⟨.endOfInput, "", ⟨2, 4⟩⟩]

/-- The parentheses belong to the program but not to the sum. -/
theorem parse_spans_exact_broken : tokenize "x = (1\n+ 2)" = .ok brokenSum ∧
    ∃ s', (Session.new {}).parse "x = (1\n+ 2)" = (.ok ⟨5⟩, s') ∧
      s'.forest.YieldsAll s'.symbols ⟨5⟩ (leaves brokenSum) ∧
      s'.forest.span ⟨5⟩ = ⟨⟨1, 0⟩, ⟨2, 5⟩⟩ ∧
      s'.forest.get? ⟨3⟩ = some (.binary ⟨1⟩ (.arithmetic .add) ⟨2⟩) ∧
      (s'.forest.span ⟨4⟩).Contains (s'.forest.span ⟨3⟩) ∧
      (s'.forest.span ⟨1⟩).Before (s'.forest.span ⟨2⟩) := by
  have ht : tokenize "x = (1\n+ 2)" = .ok brokenSum := by
    decide +kernel
  have hroot : ((Session.new {}).parse "x = (1\n+ 2)").1 = .ok ⟨5⟩ := by
    decide +kernel
  have hblock : ((Session.new {}).parse "x = (1\n+ 2)").2.forest.get? ⟨5⟩ = some (.block [⟨4⟩]) := by
    decide +kernel
  have hassign : ((Session.new {}).parse "x = (1\n+ 2)").2.forest.get? ⟨4⟩ =
      some (.binary ⟨0⟩ .assign ⟨3⟩) := by
    decide +kernel
  have hsum : ((Session.new {}).parse "x = (1\n+ 2)").2.forest.get? ⟨3⟩ =
      some (.binary ⟨1⟩ (.arithmetic .add) ⟨2⟩) := by
    decide +kernel
  obtain ⟨hyields, ⟨first, last, hfirst, hlast, -, hspan⟩, -, hcontains, hbefore⟩ :=
    parse_spans_exact ht (Prod.ext hroot rfl)
  cases hfirst
  cases hlast
  have hreach : ReflTransGen ((Session.new {}).parse "x = (1\n+ 2)").2.forest.IsChild ⟨5⟩ ⟨4⟩ :=
    .single ⟨_, hblock, List.mem_singleton_self _⟩
  have hchild : ((Session.new {}).parse "x = (1\n+ 2)").2.forest.IsChild ⟨4⟩ ⟨3⟩ :=
    ⟨_, hassign, by simp [Node.children]⟩
  exact ⟨ht, _, Prod.ext hroot rfl, hyields, hspan, hsum, hcontains ⟨4⟩ ⟨3⟩ hreach hchild,
    hbefore ⟨3⟩ _ _ _ (hreach.tail hchild) hsum⟩

end ArithJit
