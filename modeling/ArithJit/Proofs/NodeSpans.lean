import ArithJit.Proofs.ParsingTwice
import ArithJit.Proofs.Places
import ArithJit.Proofs.Stuck

/-!
# Proofs: the spans of nodes

The tokens of a text stand in their order, so the span of a node reaches from its first to its last leaf
(`Forest.Covers`); parentheses do not belong to it. The parser takes as many tokens as it can: behind an
expression stands a token that does not continue it (`Parser.Takes`).
-/

namespace ArithJit

/-! ## Spans in their order -/

theorem Token.span_ok {t : Token} {s : Span} (h : t.span = .ok s) :
    s = ⟨t.position, ⟨t.position.line, t.position.column + max t.lexeme.length 1⟩⟩ := by
  rw [Token.span, Span.singleLine?] at h
  by_cases hfits : t.position.column + max t.lexeme.length 1 < wordCount
  · rw [if_pos hfits] at h
    cases h
    rfl
  · rw [if_neg hfits] at h
    cases h

/-- A token that precedes another one starts and ends before it. -/
theorem Token.Precedes.span_lt {t u : Token} {s s' : Span} (h : t.Precedes u) (ht : t.span = .ok s)
    (hu : u.span = .ok s') : s.start < s'.start ∧ s.stop < s'.stop := by
  rw [Token.span_ok ht, Token.span_ok hu, Position.lt_iff, Position.lt_iff]
  unfold Token.Precedes at h
  simp only
  omega

theorem Position.not_lt_of_lt {p q : Position} (h : p < q) : ¬ q < p := by
  rw [Position.lt_iff] at h ⊢
  omega

theorem Span.merge_of_lt {s t : Span} (hstart : s.start < t.start) (hstop : s.stop < t.stop) :
    s.merge t = ⟨s.start, t.stop⟩ := by
  rw [Span.merge, if_neg (Position.not_lt_of_lt hstart), if_pos hstop]

/-! ## The leaves of a node -/

/-- Whether the token is a number or a name. -/
def Token.isLeaf (t : Token) : Bool :=
  t.kind = .integer || t.kind = .identifier

/-- The numbers and names among the tokens. -/
def leaves (ts : List Token) : List Token :=
  ts.filter Token.isLeaf

/-- The span of the node reaches from the first to the last leaf of the tokens. -/
def Forest.Covers (f : Forest) (id : NodeId) (ts : List Token) : Prop :=
  ∃ first last s s', (leaves ts).head? = some first ∧ (leaves ts).getLast? = some last ∧
    first.span = .ok s ∧ last.span = .ok s' ∧ f.span id = ⟨s.start, s'.stop⟩

theorem leaves_append_cons {o : Token} (ho : o.isLeaf = false) (ts us : List Token) :
    leaves (ts ++ o :: us) = leaves ts ++ leaves us := by
  rw [leaves, List.filter_append, List.filter_cons_of_neg (by simp [ho])]
  rfl

theorem mem_of_mem_leaves {t : Token} {ts : List Token} (h : t ∈ leaves ts) : t ∈ ts :=
  (List.mem_filter.mp h).1

theorem Token.isLeaf_eq_false {t : Token} (h : t.kind ≠ .integer ∧ t.kind ≠ .identifier) :
    t.isLeaf = false := by
  simp [Token.isLeaf, h.1, h.2]

/-- The tokens of a text that is parsed: they stand in their order, and the numbers consist of digits. -/
structure Orderly (ts : List Token) : Prop where
  ordered : ts.Pairwise Token.Precedes
  digits : ∀ t ∈ ts, t.kind = .integer → ∀ c ∈ t.lexeme.toList, Lexer.continuesNumber c = true

theorem Orderly.right {ts us : List Token} (h : Orderly (ts ++ us)) : Orderly us where
  ordered := (List.pairwise_append.mp h.ordered).2.1
  digits t ht := h.digits t (List.mem_append_right ts ht)

theorem Orderly.tail {t : Token} {ts : List Token} (h : Orderly (t :: ts)) : Orderly ts :=
  Orderly.right (show Orderly ([t] ++ ts) from h)

namespace Parser

variable {p q r : Parser} {t o : Token} {us : List Token} {id left right : NodeId} {a b c : Precedence}
  {inner operand : Parse NodeId}
  {operator? : Token.Kind → Option Arithmetic}

/-! ## The spans of nodes, and where they stop -/

/-- The parser went from `p` to `q`, and the node `id` covers the leaves on the way. -/
def Spans (p : Parser) (id : NodeId) (q : Parser) : Prop :=
  ∃ ts, p.rest = ts ++ q.rest ∧ q.forest.Covers id ts

/-- The parser went over an expression, up to a token that does not continue it. -/
structure Takes (level : Precedence) (p : Parser) (id : NodeId) (q : Parser) : Prop where
  reads : Reads level p id q
  spans : Spans p id q
  stops : ∀ next rest, q.rest = next :: rest → level.Stops next.kind

theorem Spans.length_le (h : Spans p id q) : q.rest.length ≤ p.rest.length := by
  obtain ⟨ts, hts, -⟩ := h
  rw [hts, List.length_append]
  omega

theorem Spans.orderly (h : Spans p id q) (hp : Orderly p.rest) : Orderly q.rest := by
  obtain ⟨ts, hts, -⟩ := h
  rw [hts] at hp
  exact hp.right

theorem covers_leaf (p : Parser) (node : Node) {span : Span} (ht : t.isLeaf = true)
    (hspan : t.span = .ok span) :
    (p.withNode node span).forest.Covers ⟨p.forest.size⟩ [t] := by
  have hleaves : leaves [t] = [t] := by simp [leaves, ht]
  refine ⟨t, t, span, span, ?_, ?_, hspan, hspan, span_withNode p node span⟩
  · rw [hleaves]; rfl
  · rw [hleaves]; rfl

theorem spans_primary (hi : ∀ q, Orderly q.rest → Gives inner q (Spans q)) (hp : Orderly p.rest) :
    Gives (primary inner) p (Spans p) := by
  refine gives_advance.bind fun t q hq => ?_
  obtain ⟨us, hus, hq⟩ := hq
  split
  · next hkind =>
    obtain rfl := hq (by simp [hkind])
    refine gives_integerValue.bind fun value q hvalue => ?_
    obtain ⟨rfl, -, -⟩ := hvalue
    refine (gives_check _).bind fun span q hspan => ?_
    obtain ⟨hspan, rfl⟩ := hspan
    exact .of_ok (addNode_apply _ _) ⟨[t], hus, covers_leaf _ _ (by simp [Token.isLeaf, hkind]) hspan⟩
  · next hkind =>
    obtain rfl := hq (by simp [hkind])
    obtain ⟨y, q, hintern, hrest, -, -⟩ := internName_apply (p := { p with rest := us }) t.lexeme
    refine .after hintern ?_
    refine (gives_check _).bind fun span r hspan => ?_
    obtain ⟨hspan, rfl⟩ := hspan
    refine .of_ok (addNode_apply _ _) ⟨[t], ?_, covers_leaf _ _ (by simp [Token.isLeaf, hkind]) hspan⟩
    rw [hus]
    exact congrArg (t :: ·) hrest.symm
  · next hkind =>
    obtain rfl := hq (by simp [hkind])
    rw [hus] at hp
    refine (hi _ hp.tail).bind fun id q hid => ?_
    obtain ⟨ts, hts, hcovers⟩ := hid
    refine (gives_expect (by simp)).bind fun c r hc => ?_
    obtain ⟨hclosing, vs, hvs, rfl⟩ := hc
    have hleaves : leaves (t :: (ts ++ [c])) = leaves ts := by
      simp [leaves, Token.isLeaf, hkind, hclosing]
    refine .of_ok rfl ⟨t :: (ts ++ [c]), ?_, ?_⟩
    · have hts : us = ts ++ q.rest := hts
      rw [hus, hts, hvs]
      simp
    · rw [Forest.Covers, hleaves]
      exact hcovers
  · exact gives_unexpected _ _

/-- The span of an operator reaches from the first leaf of the left operand to the last leaf of the right one. -/
theorem spans_addBinary {op : Operator} (hl : Reads a p left q) (hls : Spans p left q) (hq : q.rest = o :: us)
    (ho : o.isLeaf = false) (hr : Reads b { q with rest := us } right r)
    (hrs : Spans { q with rest := us } right r) (hp : Orderly p.rest) :
    Gives (addBinary left op right) r (Spans p) := by
  obtain ⟨-, l, -, -, -, -, -, hshows⟩ := hl
  obtain ⟨-, -, -, -, -, -, hgrows, -⟩ := hr
  obtain ⟨ts, hts, first, last, s, s', hfirst, hlast, hs, hs', hspan⟩ := hls
  obtain ⟨vs, hvs, first', last', u, u', hfirst', hlast', hu, hu', hspan'⟩ := hrs
  have hvs : us = vs ++ r.rest := hvs
  have hkept : r.forest.span left = q.forest.span left := hgrows.of_rest.forest.span_eq hshows
  have hrest : p.rest = (ts ++ o :: vs) ++ r.rest := by
    rw [hts, hq, hvs]
    simp
  -- every leaf on the left precedes every leaf on the right
  have hprecedes : ∀ v ∈ leaves ts, ∀ w ∈ leaves vs, v.Precedes w := by
    have hordered := hp.ordered
    rw [hts, hq, hvs] at hordered
    intro v hv w hw
    refine (List.pairwise_append.mp hordered).2.2 v (mem_of_mem_leaves hv) w ?_
    exact List.mem_cons_of_mem _ (List.mem_append_left _ (mem_of_mem_leaves hw))
  have hmerge : (r.forest.span left).merge (r.forest.span right) = ⟨s.start, u'.stop⟩ := by
    have hstart := (hprecedes _ (List.mem_of_head? hfirst) _ (List.mem_of_head? hfirst')).span_lt hs hu
    have hstop := (hprecedes _ (List.mem_of_getLast? hlast) _ (List.mem_of_getLast? hlast')).span_lt hs' hu'
    rw [hkept, hspan, hspan']
    exact Span.merge_of_lt hstart.1 hstop.2
  refine .after (get_apply r) ?_
  refine .of_ok (addNode_apply _ _) ⟨ts ++ o :: vs, hrest, first, last', s, u', ?_, ?_, hs, hu', ?_⟩
  · rw [leaves_append_cons ho, List.head?_append, hfirst]
    rfl
  · rw [leaves_append_cons ho, List.getLast?_append, hlast']
    rfl
  · rw [span_withNode, hmerge]

/-- Two operands with a sign between them are taken, up to where the second one stops. -/
theorem takes_addBinary {op : Operator} (hl : Reads a p left q) (hls : Spans p left q) (hq : q.rest = o :: us)
    (ho : o.kind ≠ .integer ∧ o.kind ≠ .identifier) (hr : Takes b { q with rest := us } right r)
    (hjoin : ∀ ts vs l r, Derives a ts l → Derives b vs r → Derives c (ts ++ o :: vs) (.binary l op r))
    (htarget : op = .assign → (q.forest.get? left).any Node.isName = true) (hp : Orderly p.rest) :
    Gives (addBinary left op right) r fun id r' => Reads c p id r' ∧ Spans p id r' ∧ r'.rest = r.rest := by
  intro id r' hid
  have hrest : Gives (addBinary left op right) r fun _ r' => r'.rest = r.rest := .of_ok rfl rfl
  refine ⟨gives_addBinary hl hq ho hr.reads hjoin htarget id r' hid, ?_, hrest id r' hid⟩
  exact spans_addBinary hl hls hq (Token.isLeaf_eq_false ho) hr.reads hr.spans hp id r' hid

/-- A chain stops in front of a token that is not one of its signs. -/
theorem takes_chainFrom (hc : IsChain operator? a b)
    (hs : ∀ kind, b.Stops kind → operator? kind = none → a.Stops kind)
    (ho : ∀ q, Orderly q.rest → Gives operand q (Takes b q)) (hp : Orderly p.rest) {length : Nat}
    (hlength : q.rest.length < length) (hr : Reads a p left q) (hls : Spans p left q)
    (hstops : ∀ next rest, q.rest = next :: rest → b.Stops next.kind) :
    Gives (chainFrom operator? operand length left) q (Takes a p) := by
  induction length generalizing left q with
  | zero => exact absurd hlength (Nat.not_lt_zero _)
  | succ length ih =>
    refine gives_peek.bind fun t q' hq' => ?_
    obtain ⟨rfl, us, hus⟩ := hq'
    split
    · next hop =>
      refine .of_ok rfl ⟨hr, hls, fun next rest hnext => ?_⟩
      obtain rfl : t = next := (List.cons.inj (hus.symm.trans hnext)).1
      exact hs t.kind (hstops t us hus) hop
    · next op hop =>
      obtain ⟨hend, hplain⟩ := hc.sign t.kind op hop
      have hq := hls.orderly hp
      rw [hus] at hq
      refine .after (advance_cons hus hend) ?_
      refine (ho { q' with rest := us } hq.tail).bind fun right r hright => ?_
      have hjoin : ∀ ts vs l r, Derives a ts l → Derives b vs r →
          Derives a (ts ++ t :: vs) (.binary l (.arithmetic op) r) :=
        fun ts vs l r => hc.more ts vs t op l r hop
      refine (takes_addBinary hr hls hus hplain hright hjoin nofun hp).bind fun id r' hid => ?_
      obtain ⟨hreads, hspans, hrest⟩ := hid
      refine ih ?_ hreads hspans ?_
      · have hle := hright.spans.length_le
        rw [hus, List.length_cons] at hlength
        rw [hrest]
        exact Nat.lt_of_le_of_lt hle (Nat.lt_of_succ_lt_succ hlength)
      · rw [hrest]
        exact hright.stops

theorem takes_chain (hc : IsChain operator? a b)
    (hs : ∀ kind, b.Stops kind → operator? kind = none → a.Stops kind)
    (ho : ∀ q, Orderly q.rest → Gives operand q (Takes b q)) (hp : Orderly p.rest) :
    Gives (chain operator? operand) p (Takes a p) := by
  refine (ho p hp).bind fun left q hq => ?_
  refine .after (get_apply q) ?_
  exact takes_chainFrom hc hs ho hp (Nat.lt_succ_self _) (hq.reads.mono hc.one) hq.spans hq.stops

theorem takes_sum (hi : ∀ q, Gives inner q (Reads .expression q))
    (hs : ∀ q, Orderly q.rest → Gives inner q (Spans q)) (hp : Orderly p.rest) :
    Gives (sum inner) p (Takes .sum p) := by
  refine takes_chain isChain_sum (fun _ h h' => ⟨h, h'⟩) (fun q hq => ?_) hp
  refine takes_chain isChain_product (fun _ _ h => h) (fun q hq => ?_) hq
  exact fun id r hid => ⟨gives_primary hi id r hid, spans_primary hs hq id r hid, fun _ _ _ => trivial⟩

theorem takes_expressionTo (depth : Nat) (hp : Orderly p.rest) :
    Gives (expressionTo depth) p (Takes .expression p) := by
  induction depth generalizing p with
  | zero => exact gives_peek.bind fun _ _ _ => gives_unexpected _ _
  | succ depth ih =>
    refine (takes_sum (fun _ => gives_expressionTo depth) (fun q hq id r hr => (ih hq id r hr).spans) hp).bind
      fun target q hq => ?_
    refine gives_isAt.bind fun b q' hb => ?_
    obtain ⟨rfl, t, us, hus, rfl⟩ := hb
    by_cases hkind : t.kind = .equal
    · simp only [hkind, decide_true, Bool.not_true, Bool.false_eq_true, if_false]
      refine .after (advance_cons hus (by simp [hkind])) ?_
      refine .after (isName_apply target) ?_
      split
      · refine .after (get_apply _) ?_
        exact (gives_check _).bind fun _ _ _ => gives_reject_bind _
      · next hname =>
        have hq' := hq.spans.orderly hp
        rw [hus] at hq'
        have hplain : t.kind ≠ .integer ∧ t.kind ≠ .identifier := by simp [hkind]
        refine (ih (p := { q' with rest := us }) hq'.tail).bind fun value r hvalue => ?_
        intro id r' hid
        obtain ⟨hreads, hspans, hrest⟩ := takes_addBinary hq.reads hq.spans hus hplain hvalue
          (fun ts vs l r hl hr => .assign hl hkind hr) (fun _ => by simpa using hname) hp id r' hid
        refine ⟨hreads, hspans, ?_⟩
        rw [hrest]
        exact hvalue.stops
    · simp only [hkind, decide_false, Bool.not_false, if_true]
      refine .of_ok rfl ⟨hq.reads.mono fun _ _ => .plain, hq.spans, fun next rest hnext => ?_⟩
      obtain rfl : t = next := (List.cons.inj (hus.symm.trans hnext)).1
      exact ⟨(hq.stops t us hus).1, (hq.stops t us hus).2, hkind⟩

theorem takes_expression (hp : Orderly p.rest) : Gives expression p (Takes .expression p) :=
  .after (get_apply p) (takes_expressionTo _ hp)

end Parser

end ArithJit
