import ArithJit.Proofs.ParserMoves
import ArithJit.Proofs.Unrolling

/-!
# Proofs: calls of the parser

A parser may be called again and again, for a program or for an expression, and a call that fails leaves it where
it has stopped. Between two calls it stands at one of its tokens and not behind the first end of the input
(`Parser.Stands`), which each move preserves. So a call always finds a token in front of it, and cannot fault if
the tokens are sound.
-/

namespace ArithJit

namespace Parser

variable {p q : Parser} {tokens us : List Token} {t : Token} {c d : Stacked} {f : Failure}

/-! ## Calls -/

/-- What a parser is called for. -/
inductive Call where
  | program
  | expression
deriving DecidableEq, Repr

namespace Call

def run : Call → Parse NodeId
  | program => Parser.program
  | expression => Parser.expression

/-- The call with so many rounds of each recursion. -/
def unrolled (bottom : Bottom) (rounds : Nat) : Call → Parse NodeId
  | program => unrolledProgram bottom rounds
  | expression => unrolledExpression bottom rounds

end Call

/-- The parser after some calls, whether they succeed or not. -/
def callAll (p : Parser) (calls : List Call) : Parser :=
  calls.foldl (fun p call => finalState (call.run p)) p

/-! ## Where the parser stands -/

/-- The number of tokens that were taken. -/
def index (p : Parser) : Nat :=
  p.count - p.rest.length

/-- The number of tokens in front of the first end of the input. -/
def endIndex (tokens : List Token) : Nat :=
  tokens.findIdx fun t => t.kind = .endOfInput

/-- The parser has taken some of the tokens, but no end of the input. -/
structure Stands (tokens : List Token) (p : Parser) : Prop where
  count : p.count = tokens.length
  rest : p.rest = tokens.drop p.index
  le : p.index ≤ endIndex tokens

theorem stands_ofTokens (tokens : List Token) (forest : Forest) (symbols : SymbolTable) :
    Stands tokens (ofTokens tokens forest symbols) := by
  have hindex : (ofTokens tokens forest symbols).index = 0 := Nat.sub_self _
  refine ⟨rfl, ?_, ?_⟩
  · rw [hindex]
    rfl
  · rw [hindex]
    exact Nat.zero_le _

theorem Stands.withNode (h : Stands tokens p) (node : Node) (span : Span) :
    Stands tokens (p.withNode node span) :=
  ⟨h.count, h.rest, h.le⟩

/-- The token in front of the parser has the number of those that were taken. -/
theorem Stands.getElem? (h : Stands tokens p) (ht : p.rest = t :: us) : tokens[p.index]? = some t := by
  have hrest := h.rest
  rw [ht] at hrest
  rw [← List.head?_drop, ← hrest]
  rfl

/-- At the end of the input, the tokens in front of it were taken. -/
theorem Stands.index_eq (h : Stands tokens p) (ht : p.rest = t :: us) (hend : t.kind = .endOfInput) :
    p.index = endIndex tokens := by
  refine Nat.le_antisymm h.le ?_
  by_contra hlt
  obtain ⟨hlength, hget⟩ := List.getElem?_eq_some_iff.mp (h.getElem? ht)
  have hnot := List.not_of_lt_findIdx (Nat.lt_of_not_le hlt)
  rw [hget] at hnot
  simp [hend] at hnot

/-- There is a token in front of the parser. -/
theorem Stands.exists_rest (h : Stands tokens p) (hend : ∃ t ∈ tokens, t.kind = .endOfInput) :
    ∃ t us, p.rest = t :: us ∧ t ∈ tokens := by
  obtain ⟨e, he, hkind⟩ := hend
  have hlt : endIndex tokens < tokens.length := List.findIdx_lt_length_of_exists ⟨e, he, decide_eq_true hkind⟩
  have hindex : p.index < tokens.length := Nat.lt_of_le_of_lt h.le hlt
  refine ⟨tokens[p.index], tokens.drop (p.index + 1), ?_, List.getElem_mem hindex⟩
  rw [h.rest]
  exact List.drop_eq_getElem_cons hindex

/-- A token other than the end of the input may be taken. -/
theorem Stands.take (h : Stands tokens p) (ht : p.rest = t :: us) (hkind : t.kind ≠ .endOfInput) :
    Stands tokens { p with rest := us } ∧ p.index ≤ index { p with rest := us } := by
  have hlength : us.length + 1 ≤ p.count := by
    rw [← List.length_cons, ← ht, h.rest, h.count, List.length_drop]
    exact Nat.sub_le _ _
  have hindex : index { p with rest := us } = p.index + 1 := by
    rw [index, index, ht, List.length_cons]
    change p.count - us.length = _
    omega
  refine ⟨⟨h.count, ?_, ?_⟩, ?_⟩
  · rw [hindex, ← List.tail_drop, ← h.rest, ht]
    rfl
  · rw [hindex]
    refine Nat.lt_of_le_of_ne h.le fun heq => hkind ?_
    -- were this the first end of the input, then the token would be one
    have hget := h.getElem? ht
    rw [heq] at hget
    obtain ⟨hlt, hget⟩ := List.getElem?_eq_some_iff.mp hget
    have hend := List.findIdx_getElem (p := fun t : Token => decide (t.kind = .endOfInput)) (w := hlt)
    rw [← hget]
    exact of_decide_eq_true hend
  · rw [hindex]
    exact Nat.le_succ _

/-! ## Moves -/

theorem Move.stands (h : Move c d) (hc : Stands tokens c.1) : Stands tokens d.1 ∧ c.1.index ≤ d.1.index := by
  cases h with
  | sign next kind => exact hc.take next kind.1
  | number next kind small placed =>
    obtain ⟨hstands, hle⟩ := hc.take next (by simp [kind])
    exact ⟨hstands.withNode _ _, hle⟩
  | name next kind placed =>
    obtain ⟨hstands, hle⟩ := hc.take next (by simp [kind])
    exact ⟨⟨hstands.count, hstands.rest, hstands.le⟩, hle⟩
  | join => exact ⟨hc.withNode _ _, Nat.le_refl _⟩

theorem Moves.stands (h : Moves c d) (hc : Stands tokens c.1) : Stands tokens d.1 ∧ c.1.index ≤ d.1.index := by
  refine h.preserve (I := fun e => Stands tokens e.1 ∧ c.1.index ≤ e.1.index) ?_ ⟨hc, Nat.le_refl _⟩
  intro e e' hmove he
  obtain ⟨hstands, hle⟩ := hmove.stands he.1
  exact ⟨hstands, Nat.le_trans he.2 hle⟩

theorem Quits.stands (h : Quits p q) (hp : Stands tokens p) : Stands tokens q ∧ p.index ≤ q.index := by
  cases h with
  | here => exact ⟨hp, Nat.le_refl _⟩
  | token next kind => exact hp.take next kind
  | name next kind =>
    obtain ⟨hstands, hle⟩ := hp.take next (by simp [kind])
    exact ⟨⟨hstands.count, hstands.rest, hstands.le⟩, hle⟩

theorem Abandons.stands (h : Abandons c f q) (hc : Stands tokens c.1) :
    Stands tokens q ∧ c.1.index ≤ q.index := by
  obtain ⟨r, stack, hmoves, hquits, -⟩ := h
  obtain ⟨hr, hle⟩ := hmoves.stands hc
  obtain ⟨hq, hle'⟩ := hquits.stands hr
  exact ⟨hq, Nat.le_trans hle hle'⟩

/-- Among sound tokens, the parser fails with an error of the program only. -/
theorem Abandons.exists_error (h : Abandons c f q) (hc : Stands tokens c.1)
    (hend : ∃ t ∈ tokens, t.kind = .endOfInput) (hsound : ∀ t ∈ tokens, t.Sound) : ∃ e, f = .error e := by
  obtain ⟨r, stack, hmoves, hquits, hfault⟩ := h
  obtain ⟨hr, -⟩ := hmoves.stands hc
  obtain ⟨t, us, hus, ht⟩ := hr.exists_rest hend
  cases f with
  | error e => exact ⟨e, rfl⟩
  | fault x => exact absurd (hsound t ht) (hfault x rfl t us hus)

/-- A call goes on from where the parser stands. -/
theorem runs_call (call : Call) (hp : Stands tokens p) : Runs call.run p
    (fun _ q => Stands tokens q ∧ p.index ≤ q.index) (Abandons (p, [])) := by
  cases call with
  | program =>
    refine (runs_program p).mono ?_ fun _ _ h => h
    rintro root q ⟨ids, r, hcloses⟩
    obtain ⟨hr, hle⟩ := hcloses.moves.stands hp
    obtain ⟨-, -, -, -, -, -, -, -, -, -, -, rfl⟩ := hcloses.closed
    exact ⟨hr.withNode _ _, hle⟩
  | expression => exact (pushes_expression p []).mono (fun _ _ h => Moves.stands h hp) fun _ _ h => h

/-- However a call ends, it leaves the parser among its tokens. -/
theorem Stands.call (hp : Stands tokens p) (call : Call) :
    Stands tokens (finalState (call.run p)) ∧ p.index ≤ (finalState (call.run p)).index := by
  have hruns := runs_call call hp
  rw [Runs] at hruns
  cases hrun : call.run p with
  | ok id q =>
    rw [hrun] at hruns
    exact hruns
  | error f q =>
    rw [hrun] at hruns
    exact Abandons.stands hruns hp

theorem Stands.callAll (hp : Stands tokens p) (calls : List Call) : Stands tokens (p.callAll calls) := by
  induction calls generalizing p with
  | nil => exact hp
  | cons call calls ih => exact ih (hp.call call).1

/-! ## Expressions and programs -/

/-- An expression takes a token. -/
theorem Stands.index_lt_of_expression (hp : Stands tokens p) {id : NodeId} (h : expression p = .ok id q) :
    p.index < q.index := by
  have hq := (hp.call .expression).1
  rw [show Call.run .expression p = .ok id q from h] at hq
  have hcount : q.count = p.count := hq.count.trans hp.count.symm
  have hshorter := shortens_expression p id q h
  have hlength : p.rest.length ≤ p.count := by
    rw [hp.rest, hp.count, List.length_drop]
    exact Nat.sub_le _ _
  rw [index, index, hcount]
  omega

/-- A program ends at the end of the input. -/
theorem exists_rest_of_program {root : NodeId} (h : program p = .ok root q) :
    ∃ stop us last, q.rest = stop :: us ∧ stop.kind = .endOfInput ∧ stop.span = .ok last := by
  have hruns := runs_program p
  rw [Runs, h] at hruns
  obtain ⟨ids, r, -, -, first, vs, stop, us, start, last, -, -, hrest, hend, hspan, rfl⟩ := hruns
  exact ⟨stop, us, last, hrest, hend, hspan⟩

/-- At the end of the input stands the program without statements. -/
theorem program_atEnd {span : Span} (h : p.rest = t :: us) (ht : t.kind = .endOfInput)
    (hspan : t.span = .ok span) :
    program p = .ok ⟨p.forest.size⟩ (p.withNode (.block []) (span.merge span)) := by
  have hcheck : check t.span p = .ok span p := by
    rw [hspan]
    rfl
  have hpeek : program p = _ := bind_of_ok (peek_cons h)
  rw [hpeek, bind_of_ok hcheck, bind_of_ok (get_apply p), bind_of_ok (statementsTo_atEnd _ h ht),
    bind_of_ok (peek_cons h), bind_of_ok hcheck]
  rfl

/-- The parser always ends, inside its tokens. Among sound tokens with an end of the input somewhere, after any
calls, the next call comes to its end within any number of rounds above that of the tokens left, with a result or
with an error of the program. The parser has then gone forward, at most to the first end of the input. An
expression takes at least one token. A program ends at the first end of the input, where the next program is
empty. -/
theorem call_ends_inside_tokens (tokens : List Token) (forest : Forest) (symbols : SymbolTable)
    (hend : ∃ t ∈ tokens, t.kind = .endOfInput) (hsound : ∀ t ∈ tokens, t.Sound) (calls : List Call)
    (call : Call) :
    let p := (ofTokens tokens forest symbols).callAll calls
    let q := finalState (call.run p)
    (∀ bottom rounds, p.rest.length < rounds → call.unrolled bottom rounds p = call.run p) ∧
    ((∃ id, call.run p = .ok id q) ∨ ∃ e, call.run p = .error (.error e) q) ∧
    q.rest = tokens.drop q.index ∧ p.index ≤ q.index ∧ q.index ≤ endIndex tokens ∧
    (∀ id r, expression p = .ok id r → p.index < r.index) ∧
    ∀ root r, program p = .ok root r → r.index = endIndex tokens ∧
      ∃ root' r', program r = .ok root' r' ∧ r'.forest.get? root' = some (.block []) := by
  intro p q
  have hp : Stands tokens p := (stands_ofTokens tokens forest symbols).callAll calls
  obtain ⟨hq, hle⟩ := hp.call call
  refine ⟨?_, ?_, hq.rest, hle, hq.le, fun id r h => hp.index_lt_of_expression h, ?_⟩
  · intro bottom rounds hrounds
    cases call with
    | program => exact unrolledProgram_eq bottom hrounds
    | expression => exact unrolledExpression_eq bottom hrounds
  · have hruns := runs_call call hp
    rw [Runs] at hruns
    cases hrun : call.run p with
    | ok id r =>
      have hr : q = r := congrArg finalState hrun
      exact .inl ⟨id, by rw [hr]⟩
    | error f r =>
      have hr : q = r := congrArg finalState hrun
      rw [hrun] at hruns
      obtain ⟨e, rfl⟩ := Abandons.exists_error hruns hp hend hsound
      exact .inr ⟨e, by rw [hr]⟩
  · intro root r h
    have hr := (hp.call .program).1
    rw [show Call.run .program p = .ok root r from h] at hr
    obtain ⟨stop, us, last, hrest, hkind, hspan⟩ := exists_rest_of_program h
    exact ⟨hr.index_eq hrest hkind, _, _, program_atEnd hrest hkind hspan, get?_withNode _ _ _⟩

/-- A program with a mistake, its correction and a name behind the end of the input. -/
def resumed : List Token :=
  [⟨.identifier, "a", ⟨1, 0⟩⟩, ⟨.plus, "+", ⟨1, 2⟩⟩, ⟨.semicolon, ";", ⟨1, 4⟩⟩,
    ⟨.identifier, "b", ⟨1, 6⟩⟩, ⟨.endOfInput, "", ⟨1, 7⟩⟩, ⟨.identifier, "c", ⟨1, 8⟩⟩]

/-- After the mistake the parser goes on behind the semicolon, up to the end of the input. -/
theorem call_ends_inside_tokens_resumed : ((ofTokens resumed).callAll [.program]).index = 3 ∧
    ∃ root r, program ((ofTokens resumed).callAll [.program]) = .ok root r ∧ r.index = 4 ∧
      ∃ root' r', program r = .ok root' r' ∧ r'.forest.get? root' = some (.block []) := by
  have hdigits : ∀ t ∈ resumed, t.kind = .integer → t.lexeme.toList.all Lexer.continuesNumber = true := by
    decide
  have hfits : ∀ t ∈ resumed, t.Fits := by
    decide
  have hends := call_ends_inside_tokens resumed .empty .empty (by decide)
    (fun t ht => ⟨hfits t ht, fun hkind => List.all_eq_true.mp (hdigits t ht hkind)⟩) [.program] .program
  have hrun : program.run' ((ofTokens resumed).callAll [.program]) = some ⟨2⟩ := by
    decide +kernel
  obtain ⟨r, hr⟩ := exists_of_run' hrun
  exact ⟨by decide +kernel, ⟨2⟩, r, hr, hends.2.2.2.2.2.2 ⟨2⟩ r hr⟩

/-- The end of the input covers one column although its text is empty. In the last column it has no span, so the
parser faults at it, although the column with the length of the text is a machine word. -/
theorem program_faults_at_last_column : (18446744073709551615 + "".length < wordCount) ∧
    ∃ q, program (ofTokens [⟨.endOfInput, "", ⟨1, 18446744073709551615⟩⟩]) =
      .error (.fault (.overflow .add)) q := by
  refine ⟨by decide, ofTokens [⟨.endOfInput, "", ⟨1, 18446744073709551615⟩⟩], ?_⟩
  have hspan : Token.span ⟨.endOfInput, "", ⟨1, 18446744073709551615⟩⟩ = .error (.overflow .add) := by
    decide
  have hpeek : program (ofTokens [⟨.endOfInput, "", ⟨1, 18446744073709551615⟩⟩]) = _ :=
    bind_of_ok (peek_cons rfl)
  rw [hpeek, hspan]
  rfl

end Parser

end ArithJit
