import ArithJit.Proofs.Grammar

/-!
# Proofs: two parsers on the same tokens

What a parser had built before does not matter. Two parsers in front of the same tokens, with any forests
and any symbols, build the same trees with the same spans, or give up for the same reason. Numbers of nodes
and symbols differ; a node is compared by its tree, in which names are texts, and by its span.

In both cases the nodes and the names that were there before stay.
-/

namespace ArithJit

theorem Forest.Keeps.span_eq {f g : Forest} (h : f.Keeps g) {names : SymbolTable} {id : NodeId} {tree : Tree}
    (ht : f.Shows names id tree) : g.span id = f.span id := by
  cases ht with
  | number node => exact h.span_of_get? node
  | name node named => exact h.span_of_get? node
  | binary node first second => exact h.span_of_get? node

namespace Parser

variable {α β γ δ : Type} {p p' q q' : Parser} {x : Parse α} {y : Parse β}
  {R R' : α → Parser → β → Parser → Prop}

/-- The two parsers are in front of the same tokens. -/
structure Aligned (p p' : Parser) : Prop where
  count : p.count = p'.count
  rest : p.rest = p'.rest

/-- From `p` and `p'`, two steps come to results as `R` says, or to the same failure. -/
def Pairs (x : Parse α) (y : Parse β) (p p' : Parser) (R : α → Parser → β → Parser → Prop) : Prop :=
  Agree (fun a q b q' => Grows p q ∧ Grows p' q' ∧ Aligned q q' ∧ R a q b q')
    (fun q q' => Grows p q ∧ Grows p' q') (x p) (y p')

theorem Pairs.mono (h : Pairs x y p p' R)
    (hR : ∀ a q b q', Grows p q → Grows p' q' → R a q b q' → R' a q b q') : Pairs x y p p' R' :=
  Agree.mono h (fun a q b q' hq => ⟨hq.1, hq.2.1, hq.2.2.1, hR a q b q' hq.1 hq.2.1 hq.2.2.2⟩) fun _ _ hq => hq

theorem Pairs.bind {f : α → Parse γ} {g : β → Parse δ} {S : γ → Parser → δ → Parser → Prop}
    (h : Pairs x y p p' R)
    (hfg : ∀ a q b q', Grows p q → Grows p' q' → Aligned q q' → R a q b q' → Pairs (f a) (g b) q q' S) :
    Pairs (x >>= f) (y >>= g) p p' S := by
  refine Agree.bind h fun a q b q' hR => ?_
  obtain ⟨hq, hq', ha, hR⟩ := hR
  -- what was kept up to here is kept to the end
  refine Agree.mono (hfg a q b q' hq hq' ha hR) (fun c r d r' hr => ?_) fun r r' hr => ?_
  · exact ⟨hq.trans hr.1, hq'.trans hr.2.1, hr.2.2⟩
  · exact ⟨hq.trans hr.1, hq'.trans hr.2⟩

theorem Pairs.of_ok {a : α} {b : β} (hx : x p = .ok a q) (hy : y p' = .ok b q') (hq : Grows p q)
    (hq' : Grows p' q') (ha : Aligned q q') (hR : R a q b q') : Pairs x y p p' R := by
  rw [Pairs, hx, hy]
  exact ⟨hq, hq', ha, hR⟩

theorem Pairs.of_error {f : Failure} (hx : x p = .error f p) (hy : y p' = .error f p') : Pairs x y p p' R := by
  rw [Pairs, hx, hy]
  exact ⟨rfl, .refl p, .refl p'⟩

theorem pairs_pure (h : Aligned p p') {a : α} {b : β} (hR : R a p b p') : Pairs (pure a) (pure b) p p' R :=
  .of_ok rfl rfl (.refl p) (.refl p') h hR

theorem pairs_reject (e : Error) : Pairs (reject e : Parse α) (reject e : Parse β) p p' R :=
  .of_error rfl rfl

section Steps

variable {f : α → Parse γ} {g : β → Parse δ} {S : γ → Parser → δ → Parser → Prop}

/-- What stands behind a rejection is not carried out. -/
theorem pairs_reject_bind (e : Error) : Pairs (reject e >>= f) (reject e >>= g) p p' S :=
  (pairs_reject e (R := fun _ _ _ _ => False)).bind fun _ _ _ _ _ _ _ hfalse => hfalse.elim

/-- Each parser may look at itself. -/
theorem Pairs.get {f : Parser → Parse γ} {g : Parser → Parse δ} (h : Pairs (f p) (g p') p p' S) :
    Pairs (get >>= f) (get >>= g) p p' S := by
  rw [Pairs, bind_of_ok (get_apply p), bind_of_ok (get_apply p')]
  exact h

end Steps

/-! ## Reading tokens -/

/-- The step does not change the parsers and gives both the same. -/
def Reading (p p' : Parser) (a : α) (q : Parser) (b : α) (q' : Parser) : Prop :=
  a = b ∧ q = p ∧ q' = p'

theorem Pairs.reading {y : Parse α} {f : α → Parse γ} {g : α → Parse δ}
    {S : γ → Parser → δ → Parser → Prop}
    (h : Pairs x y p p' (Reading p p')) (hfg : ∀ a, Pairs (f a) (g a) p p' S) :
    Pairs (x >>= f) (y >>= g) p p' S := by
  refine h.bind fun a q b q' _ _ _ hR => ?_
  obtain ⟨rfl, rfl, rfl⟩ := hR
  exact hfg a

theorem pairs_check (h : Aligned p p') (z : Except Fault α) :
    Pairs (check z) (check z) p p' (Reading p p') := by
  cases z with
  | ok a => exact pairs_pure h ⟨rfl, rfl, rfl⟩
  | error f => exact .of_error rfl rfl

theorem pairs_peek (h : Aligned p p') : Pairs peek peek p p' (Reading p p') := by
  cases hrest : p.rest with
  | nil =>
    have herror := peek_nil (h.rest ▸ hrest : p'.rest = [])
    rw [← h.count] at herror
    exact .of_error (peek_nil hrest) herror
  | cons t us =>
    exact .of_ok (peek_cons hrest) (peek_cons (h.rest ▸ hrest)) (.refl p) (.refl p') h ⟨rfl, rfl, rfl⟩

theorem pairs_isAt (h : Aligned p p') (kind : Token.Kind) :
    Pairs (isAt kind) (isAt kind) p p' (Reading p p') :=
  (pairs_peek h).reading fun _ => pairs_pure h ⟨rfl, rfl, rfl⟩

theorem pairs_unexpected (h : Aligned p p') (t : Token) (expected : String) :
    Pairs (unexpected t expected : Parse α) (unexpected t expected : Parse β) p p' R :=
  (pairs_check h _).reading fun _ => pairs_reject _

theorem pairs_advance (h : Aligned p p') : Pairs advance advance p p' fun t _ u _ => t = u := by
  refine (pairs_peek h).reading fun t => ?_
  split
  · exact .of_ok rfl rfl ⟨List.prefix_refl _, List.prefix_refl _⟩ ⟨List.prefix_refl _, List.prefix_refl _⟩
      ⟨h.count, congrArg List.tail h.rest⟩ rfl
  · exact pairs_pure h rfl

theorem pairs_expect (h : Aligned p p') (kind : Token.Kind) :
    Pairs (expect kind) (expect kind) p p' fun t _ u _ => t = u := by
  refine (pairs_peek h).reading fun t => ?_
  split
  · exact pairs_advance h
  · exact pairs_unexpected h _ _

theorem pairs_integerValue (h : Aligned p p') (t : Token) :
    Pairs (integerValue t) (integerValue t) p p' fun a q b q' =>
      (∃ n, a = Int32.ofNat n ∧ b = Int32.ofNat n) ∧ q = p ∧ q' = p' := by
  rw [integerValue]
  cases hread : readDigits 0 (t.lexeme.toList.filter (· ≠ '_')) with
  | error f => exact .of_error rfl rfl
  | ok m =>
    cases m with
    | some value =>
      obtain ⟨-, rfl, -⟩ := readDigits_lexeme_eq_some.mp hread
      exact pairs_pure h ⟨⟨t.number, rfl, rfl⟩, rfl, rfl⟩
    | none => exact (pairs_check h t.span).reading fun span => pairs_reject (.integerTooLarge t.lexeme span)

/-- A name gets a symbol in both parsers, not the same one in general. -/
theorem pairs_internName (h : Aligned p p') (text : String) :
    Pairs (internName text) (internName text) p p' fun x q x' q' =>
      q.symbols.name? x = some text ∧ q'.symbols.name? x' = some text :=
  .of_ok rfl rfl ⟨List.prefix_refl _, p.symbols.names_intern text⟩
    ⟨List.prefix_refl _, p'.symbols.names_intern text⟩ ⟨h.count, h.rest⟩
    ⟨p.symbols.name?_intern text, p'.symbols.name?_intern text⟩

/-! ## Adding nodes -/

/-- The two nodes are one tree with one span. -/
def Alike (id : NodeId) (p : Parser) (id' : NodeId) (p' : Parser) : Prop :=
  p.forest.span id = p'.forest.span id' ∧ ∃ tree, p.Shows id tree ∧ p'.Shows id' tree

theorem Alike.grow {id id' : NodeId} (h : Alike id p id' p') (hq : Grows p q) (hq' : Grows p' q') :
    Alike id q id' q' := by
  obtain ⟨hspan, tree, ht, ht'⟩ := h
  refine ⟨?_, tree, ht.grow hq, ht'.grow hq'⟩
  rw [hq.forest.span_eq ht, hq'.forest.span_eq ht', hspan]

theorem Alike.isName {id id' : NodeId} (h : Alike id p id' p') :
    (p.forest.get? id).any Node.isName = (p'.forest.get? id').any Node.isName := by
  obtain ⟨-, tree, ht, ht'⟩ := h
  rw [Forest.Shows.isName ht, Forest.Shows.isName ht']

theorem span_withNode (p : Parser) (node : Node) (span : Span) :
    (p.withNode node span).forest.span ⟨p.forest.size⟩ = span := by
  simp [withNode, Forest.add, Forest.span, Forest.size]

/-- Two nodes with one span are added. -/
theorem pairs_addNode (h : Aligned p p') (node node' : Node) (span : Span) :
    Pairs (addNode node span) (addNode node' span) p p' fun id q id' q' =>
      q.forest.span id = q'.forest.span id' ∧
      q.forest.get? id = some node ∧ q.symbols = p.symbols ∧
      q'.forest.get? id' = some node' ∧ q'.symbols = p'.symbols := by
  refine .of_ok (addNode_apply node span) (addNode_apply node' span) (p.grows_withNode _ _)
    (p'.grows_withNode _ _) ⟨h.count, h.rest⟩ ⟨?_, p.get?_withNode _ _, rfl, p'.get?_withNode _ _, rfl⟩
  rw [span_withNode, span_withNode]

theorem pairs_addBinary (h : Aligned p p') {left right left' right' : NodeId} (op : Operator)
    (hl : Alike left p left' p') (hr : Alike right p right' p') :
    Pairs (addBinary left op right) (addBinary left' op right') p p' Alike := by
  refine .get ?_
  have hspan : (p.forest.span left).merge (p.forest.span right) =
      (p'.forest.span left').merge (p'.forest.span right') := by
    rw [hl.1, hr.1]
  dsimp only
  rw [hspan]
  refine (pairs_addNode h _ _ _).mono fun id r id' r' hg hg' hR => ?_
  obtain ⟨hspan, hnode, -, hnode', -⟩ := hR
  obtain ⟨-, a, hla, hla'⟩ := hl.grow hg hg'
  obtain ⟨-, b, hrb, hrb'⟩ := hr.grow hg hg'
  exact ⟨hspan, .binary a op b, .binary hnode hla hrb, .binary hnode' hla' hrb'⟩

/-! ## The grammar -/

/-- The step builds alike nodes from any two parsers in front of the same tokens. -/
def Uniform (x : Parse NodeId) : Prop :=
  ∀ p p', Aligned p p' → Pairs x x p p' Alike

theorem uniform_primary {expression : Parse NodeId} (he : Uniform expression) :
    Uniform (primary expression) := by
  intro p p' h
  refine (pairs_advance h).bind fun t q u q' _ _ ha hR => ?_
  obtain rfl := hR
  split
  · refine (pairs_integerValue ha t).bind fun value r value' r' _ _ ha hR => ?_
    obtain ⟨⟨n, rfl, rfl⟩, rfl, rfl⟩ := hR
    refine (pairs_check ha _).reading fun span => ?_
    refine (pairs_addNode ha _ _ _).mono fun id u id' u' _ _ hR => ?_
    obtain ⟨hspan, hnode, -, hnode', -⟩ := hR
    exact ⟨hspan, .number n, .number hnode, .number hnode'⟩
  · refine (pairs_internName ha t.lexeme).bind fun x r x' r' _ _ ha hR => ?_
    obtain ⟨hnamed, hnamed'⟩ := hR
    refine (pairs_check ha _).reading fun span => ?_
    refine (pairs_addNode ha _ _ _).mono fun id u id' u' _ _ hR => ?_
    obtain ⟨hspan, hnode, hsymbols, hnode', hsymbols'⟩ := hR
    rw [← hsymbols] at hnamed
    rw [← hsymbols'] at hnamed'
    exact ⟨hspan, .name t.lexeme, .name hnode hnamed, .name hnode' hnamed'⟩
  · refine (he q q' ha).bind fun inner r inner' r' _ _ ha hinner => ?_
    refine (pairs_expect ha _).bind fun _ s _ s' hs hs' ha _ => ?_
    exact pairs_pure ha (hinner.grow hs hs')
  · exact pairs_unexpected ha _ _

section Chain

variable {operand : Parse NodeId} {operator? : Token.Kind → Option Arithmetic} {left left' : NodeId}

theorem pairs_chainFrom (ho : Uniform operand) (length : Nat) (h : Aligned p p') (hl : Alike left p left' p') :
    Pairs (chainFrom operator? operand length left) (chainFrom operator? operand length left') p p' Alike := by
  induction length generalizing p p' left left' with
  | zero => exact pairs_pure h hl
  | succ length ih =>
    refine (pairs_peek h).reading fun t => ?_
    split
    · exact pairs_pure h hl
    · refine (pairs_advance h).bind fun _ r _ r' hr hr' ha _ => ?_
      refine (ho r r' ha).bind fun right s right' s' hs hs' ha hright => ?_
      have hleft := (hl.grow hr hr').grow hs hs'
      refine (pairs_addBinary ha _ hleft hright).bind fun id u id' u' _ _ ha hid => ?_
      exact ih ha hid

theorem uniform_chain (ho : Uniform operand) : Uniform (chain operator? operand) := by
  intro p p' h
  refine (ho p p' h).bind fun left q left' q' _ _ ha hl => ?_
  refine .get ?_
  rw [ha.rest]
  exact pairs_chainFrom ho _ ha hl

end Chain

theorem uniform_sum {expression : Parse NodeId} (he : Uniform expression) : Uniform (sum expression) :=
  uniform_chain (uniform_chain (uniform_primary he))

theorem pairs_isName {id id' : NodeId} (h : Aligned p p') (hid : Alike id p id' p') :
    Pairs (isName id) (isName id') p p' (Reading p p') :=
  .get (pairs_pure h ⟨hid.isName, rfl, rfl⟩)

theorem uniform_expressionTo (depth : Nat) : Uniform (expressionTo depth) := by
  induction depth with
  | zero =>
    intro p p' h
    exact (pairs_peek h).reading fun _ => pairs_unexpected h _ _
  | succ depth ih =>
    intro p p' h
    refine (uniform_sum ih p p' h).bind fun target q target' q' _ _ ha htarget => ?_
    refine (pairs_isAt ha _).reading fun b => ?_
    split
    · exact pairs_pure ha htarget
    · refine (pairs_advance ha).bind fun sign s sign' s' hs hs' ha hR => ?_
      obtain rfl := hR
      have htarget := htarget.grow hs hs'
      refine (pairs_isName ha htarget).reading fun b => ?_
      split
      · refine .get ((pairs_check ha _).reading fun span => ?_)
        rw [htarget.1]
        exact pairs_reject_bind _
      · refine (ih s s' ha).bind fun value u value' u' hu hu' ha hvalue => ?_
        exact pairs_addBinary ha _ (htarget.grow hu hu') hvalue

theorem uniform_expression : Uniform expression := by
  intro p p' h
  refine .get ?_
  rw [h.rest]
  exact uniform_expressionTo _ p p' h

/-! ## Programs -/

/-- The nodes are the same trees, one by one. -/
def AllAlike (ids : List NodeId) (p : Parser) (ids' : List NodeId) (p' : Parser) : Prop :=
  ∃ trees, List.Forall₂ p.Shows ids trees ∧ List.Forall₂ p'.Shows ids' trees

theorem AllAlike.cons {ids ids' : List NodeId} {id id' : NodeId} (h : Alike id p id' p')
    (hall : AllAlike ids p ids' p') : AllAlike (id :: ids) p (id' :: ids') p' := by
  obtain ⟨-, tree, ht, ht'⟩ := h
  obtain ⟨trees, hts, hts'⟩ := hall
  exact ⟨tree :: trees, .cons ht hts, .cons ht' hts'⟩

theorem pairs_statementsTo (count : Nat) (h : Aligned p p') :
    Pairs (statementsTo count) (statementsTo count) p p' AllAlike := by
  induction count generalizing p p' with
  | zero => exact pairs_pure h ⟨[], .nil, .nil⟩
  | succ count ih =>
    refine (pairs_isAt h _).reading fun b => ?_
    split
    · exact pairs_pure h ⟨[], .nil, .nil⟩
    · refine (uniform_expression p p' h).bind fun first r first' r' _ _ ha hfirst => ?_
      -- however the expression ends, the others follow
      have hothers : ∀ s s', Grows r s → Grows r' s' → Aligned s s' →
          Pairs (do return first :: (← statementsTo count)) (do return first' :: (← statementsTo count)) s s'
            AllAlike := by
        intro s s' hs hs' ha
        refine (ih ha).bind fun ids u ids' u' hu hu' ha hids => ?_
        exact pairs_pure ha (.cons ((hfirst.grow hs hs').grow hu hu') hids)
      refine (pairs_isAt ha _).reading fun b => ?_
      split
      · exact (pairs_advance ha).bind fun _ u _ u' hu hu' ha _ => hothers u u' hu hu' ha
      · refine (pairs_isAt ha _).reading fun b => ?_
        split
        · exact (pairs_peek ha).reading fun t => (pairs_check ha _).reading fun span => pairs_reject_bind _
        · exact hothers r r' (.refl r) (.refl r') ha

/-- Two parsers in front of the same tokens build blocks of the same trees, or fail alike. -/
theorem pairs_program (h : Aligned p p') : Pairs program program p p' fun root q root' q' =>
    ∃ trees, q.forest.ShowsAll q.symbols root trees ∧ q'.forest.ShowsAll q'.symbols root' trees := by
  refine (pairs_peek h).reading fun t => ?_
  refine (pairs_check h _).reading fun start => ?_
  refine .get ?_
  rw [h.rest]
  refine (pairs_statementsTo _ h).bind fun ids q ids' q' _ _ ha hids => ?_
  refine (pairs_peek ha).reading fun t => ?_
  refine (pairs_check ha _).reading fun stop => ?_
  refine (pairs_addNode ha _ _ _).mono fun root z root' z' hz hz' hR => ?_
  obtain ⟨-, hnode, -, hnode', -⟩ := hR
  obtain ⟨trees, hts, hts'⟩ := hids
  exact ⟨trees, ⟨ids, hnode, hts.imp fun _ _ ht => ht.grow hz⟩, ids', hnode',
    hts'.imp fun _ _ ht => ht.grow hz'⟩

end Parser

end ArithJit
