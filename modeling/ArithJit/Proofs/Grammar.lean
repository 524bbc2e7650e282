import ArithJit.Proofs.Parsing

/-!
# Proofs: the grammar

The grammar of programs as a relation between tokens and trees (`Derives`), and what it means for a node of
a forest to be a tree (`Forest.Shows`). A tree has no parentheses and its names are texts, so it says
nothing about how and where the parser keeps it.

Whatever the parser accepts is derived by the grammar: the tokens that it has read are those of the tree
that it has built (`Parser.Reads`, `Parser.ReadsAll`).
-/

namespace ArithJit

/-! ## Trees -/

/-- The largest integer literal. -/
def Parser.largestLiteral : Nat := 0x7FFFFFFF

/-- The tree of an expression. -/
inductive Tree where
  /-- A number. -/
  | number (value : Nat)
  /-- A name. -/
  | name (text : String)
  /-- An operator and its two operands. -/
  | binary (left : Tree) (op : Operator) (right : Tree)
deriving DecidableEq, Repr

namespace Tree

/-- Whether a tree is a name. -/
def isName : Tree → Bool
  | name _ => true
  | _ => false

/-- The numbers are not too large, and only names are assigned to. -/
def Valid : Tree → Prop
  | number value => value ≤ Parser.largestLiteral
  | name _ => True
  | binary left op right => (op = .assign → left.isName = true) ∧ left.Valid ∧ right.Valid

end Tree

/-- The number that an integer token stands for; underscores do not count. -/
def Token.number (t : Token) : Nat :=
  Nat.ofDigitChars 10 (t.lexeme.toList.filter (· ≠ '_')) 0

/-- The column after the token is a machine word. -/
def Token.Fits (t : Token) : Prop :=
  t.position.column + max t.lexeme.length 1 < wordCount

instance (t : Token) : Decidable t.Fits :=
  inferInstanceAs (Decidable (_ < _))

theorem Token.span_eq_ok (t : Token) : (∃ span, t.span = .ok span) ↔ t.Fits := by
  rw [Token.span, Span.singleLine?, Token.Fits]
  split
  · next span hspan =>
    have hfits : t.position.column + max t.lexeme.length 1 < wordCount := by
      by_contra hlong
      rw [if_neg hlong] at hspan
      cases hspan
    exact ⟨fun _ => hfits, fun _ => ⟨span, rfl⟩⟩
  · next hspan =>
    have hlong : ¬ t.position.column + max t.lexeme.length 1 < wordCount := by
      intro hfits
      rw [if_pos hfits] at hspan
      cases hspan
    refine ⟨?_, fun hfits => absurd hfits hlong⟩
    rintro ⟨span, h⟩
    cases h

/-- If the token is a number or a name, then the column after it is a machine word. -/
def Token.Placed (t : Token) : Prop :=
  t.kind = .integer ∨ t.kind = .identifier → t.Fits

instance (t : Token) : Decidable t.Placed :=
  inferInstanceAs (Decidable (_ → _))

/-! ## Derivations -/

/-- The kinds of expressions, from those that bind loosest to those that bind tightest. -/
inductive Precedence where
  /-- An assignment or a sum. -/
  | expression
  /-- A sum of products. -/
  | sum
  /-- A product of primaries. -/
  | product
  /-- A number, a name or an expression in parentheses. -/
  | primary
deriving DecidableEq, Repr

/-- The grammar of expressions: the tokens are an expression of the given kind, with the given tree. -/
inductive Derives : Precedence → List Token → Tree → Prop where
  | number {t : Token} (kind : t.kind = .integer) : Derives .primary [t] (.number t.number)
  | name {t : Token} (kind : t.kind = .identifier) : Derives .primary [t] (.name t.lexeme)
  | parens {l r : Token} {ts : List Token} {tree : Tree} (opening : l.kind = .leftParen)
      (inside : Derives .expression ts tree) (closing : r.kind = .rightParen) :
      Derives .primary (l :: (ts ++ [r])) tree
  | factor {ts : List Token} {tree : Tree} (only : Derives .primary ts tree) : Derives .product ts tree
  | product {ts us : List Token} {t : Token} {op : Arithmetic} {left right : Tree}
      (first : Derives .product ts left) (sign : Parser.productOperator? t.kind = some op)
      (second : Derives .primary us right) :
      Derives .product (ts ++ t :: us) (.binary left (.arithmetic op) right)
  | term {ts : List Token} {tree : Tree} (only : Derives .product ts tree) : Derives .sum ts tree
  | sum {ts us : List Token} {t : Token} {op : Arithmetic} {left right : Tree}
      (first : Derives .sum ts left) (sign : Parser.sumOperator? t.kind = some op)
      (second : Derives .product us right) :
      Derives .sum (ts ++ t :: us) (.binary left (.arithmetic op) right)
  | plain {ts : List Token} {tree : Tree} (only : Derives .sum ts tree) : Derives .expression ts tree
  | assign {ts us : List Token} {t : Token} {left right : Tree} (target : Derives .sum ts left)
      (sign : t.kind = .equal) (value : Derives .expression us right) :
      Derives .expression (ts ++ t :: us) (.binary left .assign right)

/-- The grammar of programs: expressions, each of them ended by a semicolon, which the last one may lack. -/
inductive DerivesAll : List Token → List Tree → Prop where
  | nil : DerivesAll [] []
  | last {ts : List Token} {tree : Tree} (only : Derives .expression ts tree) : DerivesAll ts [tree]
  | cons {ts us : List Token} {t : Token} {tree : Tree} {trees : List Tree}
      (first : Derives .expression ts tree) (sign : t.kind = .semicolon) (others : DerivesAll us trees) :
      DerivesAll (ts ++ t :: us) (tree :: trees)

/-- An expression has at least one token. -/
theorem Derives.length_pos {level : Precedence} {ts : List Token} {tree : Tree} (h : Derives level ts tree) :
    0 < ts.length := by
  induction h with
  | number | name | parens => exact Nat.zero_lt_succ _
  | product | sum | assign =>
    rw [List.length_append, List.length_cons]
    omega
  | factor only ih | term only ih | plain only ih => exact ih

/-! ## Trees in a forest -/

/-- The node `id` is the tree, with `names` for the symbols. -/
inductive Forest.Shows (f : Forest) (names : SymbolTable) : NodeId → Tree → Prop where
  | number {id : NodeId} {value : Nat} (node : f.get? id = some (.literal (.integer (Int32.ofNat value)))) :
      Shows f names id (.number value)
  | name {id : NodeId} {symbol : Symbol} {text : String} (node : f.get? id = some (.name symbol))
      (named : names.name? symbol = some text) : Shows f names id (.name text)
  | binary {id left right : NodeId} {op : Operator} {l r : Tree}
      (node : f.get? id = some (.binary left op right)) (first : Shows f names left l)
      (second : Shows f names right r) : Shows f names id (.binary l op r)

/-- The node `root` is a block of trees. -/
def Forest.ShowsAll (f : Forest) (names : SymbolTable) (root : NodeId) (trees : List Tree) : Prop :=
  ∃ children, f.get? root = some (.block children) ∧ List.Forall₂ (f.Shows names) children trees

theorem Forest.Shows.mono {f g : Forest} {names names' : SymbolTable} {id : NodeId} {tree : Tree}
    (h : f.Shows names id tree) (hf : f.Extends g) (hn : names.names <+: names'.names) :
    g.Shows names' id tree := by
  induction h with
  | number node => exact .number (hf _ _ node)
  | name node named => exact .name (hf _ _ node) (SymbolTable.name?_mono hn named)
  | binary node first second ihl ihr => exact .binary (hf _ _ node) ihl ihr

/-- A tree is a name if its node is. -/
theorem Forest.Shows.isName {f : Forest} {names : SymbolTable} {id : NodeId} {tree : Tree}
    (h : f.Shows names id tree) : (f.get? id).any Node.isName = tree.isName := by
  cases h with
  | number node => rw [node]; rfl
  | name node named => rw [node]; rfl
  | binary node first second => rw [node]; rfl

/-- The nodes of `f` are the first nodes of `g`, with the same spans. -/
def Forest.Keeps (f g : Forest) : Prop :=
  f.nodes.toList <+: g.nodes.toList

theorem Forest.Keeps.getElem? {f g : Forest} (h : f.Keeps g) {i : Nat} {x : Node × Span}
    (hx : f.nodes[i]? = some x) : g.nodes[i]? = some x := by
  obtain ⟨more, hmore⟩ := h
  rw [← Array.getElem?_toList] at hx ⊢
  rw [← hmore, List.getElem?_append_left (List.getElem?_eq_some_iff.mp hx).1, hx]

theorem Forest.Keeps.extends {f g : Forest} (h : f.Keeps g) : f.Extends g := by
  intro id node hnode
  obtain ⟨x, hx, rfl⟩ := Option.map_eq_some_iff.mp hnode
  rw [Forest.get?, h.getElem? hx]
  rfl

theorem Forest.Keeps.span_of_get? {f g : Forest} (h : f.Keeps g) {id : NodeId} {node : Node}
    (hnode : f.get? id = some node) : g.span id = f.span id := by
  obtain ⟨x, hx, -⟩ := Option.map_eq_some_iff.mp hnode
  rw [Forest.span, Forest.span, h.getElem? hx, hx]

theorem Forest.keeps_add (f : Forest) (node : Node) (span : Span) : f.Keeps (f.add node span).2 := by
  rw [Forest.Keeps, Forest.add, Array.toList_push]
  exact List.prefix_append _ _

namespace Parser

variable {α β : Type} {x : Parse α} {f : α → Parse β} {p q r : Parser} {Q : α → Parser → Prop}
  {R : β → Parser → Prop} {t : Token} {ts us : List Token} {id left right : NodeId} {tree : Tree}
  {kind : Token.Kind}

/-- The forest and the symbols of `q` are those of `p`, and maybe more. -/
structure Grows (p q : Parser) : Prop where
  forest : p.forest.Keeps q.forest
  symbols : p.symbols.names <+: q.symbols.names

theorem Grows.refl (p : Parser) : Grows p p :=
  ⟨List.prefix_refl _, List.prefix_refl _⟩

theorem Grows.trans (h : Grows p q) (h' : Grows q r) : Grows p r :=
  ⟨List.IsPrefix.trans h.forest h'.forest, h.symbols.trans h'.symbols⟩

/-- Taking tokens builds nothing. -/
theorem Grows.of_rest (h : Grows { p with rest := us } q) : Grows p q :=
  ⟨h.forest, h.symbols⟩

/-- The node `id` of the parser's forest is the tree. -/
def Shows (p : Parser) (id : NodeId) (tree : Tree) : Prop :=
  p.forest.Shows p.symbols id tree

theorem Shows.grow (h : p.Shows id tree) (hq : Grows p q) : q.Shows id tree :=
  Forest.Shows.mono h hq.forest.extends hq.symbols

/-! ## Steps that succeed -/

theorem bind_of_ok {a : α} (h : x p = .ok a q) : (x >>= f) p = f a q := by
  change EStateM.bind x f p = _
  rw [EStateM.bind, h]

theorem peek_cons (h : p.rest = t :: us) : peek p = .ok t p := by
  simp only [peek, bind, EStateM.bind, get_apply, h]
  rfl

theorem peek_nil (h : p.rest = []) : peek p = .error (.fault (.indexOutOfBounds p.count p.count)) p := by
  simp only [peek, bind, EStateM.bind, get_apply, h]
  rfl

theorem isAt_cons (h : p.rest = t :: us) (kind : Token.Kind) : isAt kind p = .ok (decide (t.kind = kind)) p :=
  bind_of_ok (peek_cons h)

/-- Taking a token other than the end of the input leaves the tokens behind it. -/
theorem advance_cons (h : p.rest = t :: us) (ht : t.kind ≠ .endOfInput) :
    advance p = .ok t { p with rest := us } := by
  have hpeek : advance p = _ := bind_of_ok (peek_cons h)
  rw [hpeek, if_pos ht, bind_of_ok (modify_apply _ p), h]
  rfl

/-- The end of the input is not taken away. -/
theorem advance_end (h : p.rest = t :: us) (ht : t.kind = .endOfInput) : advance p = .ok t p := by
  have hpeek : advance p = _ := bind_of_ok (peek_cons h)
  rw [hpeek, if_neg (not_not_intro ht)]
  rfl

theorem expect_cons (h : p.rest = t :: us) (ht : t.kind ≠ .endOfInput) :
    expect t.kind p = .ok t { p with rest := us } := by
  have hpeek : expect t.kind p = _ := bind_of_ok (peek_cons h)
  rw [hpeek, if_pos rfl]
  exact advance_cons h ht

theorem isName_apply (id : NodeId) : isName id p = .ok ((p.forest.get? id).any Node.isName) p :=
  rfl

theorem check_span (h : t.Fits) : ∃ span, check t.span p = .ok span p := by
  obtain ⟨span, hspan⟩ := t.span_eq_ok.mpr h
  exact ⟨span, by rw [hspan]; rfl⟩

/-- The parser after a node is added to it. -/
def withNode (p : Parser) (node : Node) (span : Span) : Parser :=
  { p with forest := (p.forest.add node span).2 }

theorem addNode_apply (node : Node) (span : Span) :
    addNode node span p = .ok ⟨p.forest.size⟩ (p.withNode node span) :=
  rfl

theorem grows_withNode (p : Parser) (node : Node) (span : Span) : Grows p (p.withNode node span) :=
  ⟨p.forest.keeps_add node span, List.prefix_refl _⟩

theorem get?_withNode (p : Parser) (node : Node) (span : Span) :
    (p.withNode node span).forest.get? ⟨p.forest.size⟩ = some node :=
  p.forest.get?_add_self node span

/-- Two trees are joined by an operator. -/
theorem addBinary_apply {a b : Tree} (op : Operator) (ha : p.Shows left a) (hb : p.Shows right b) :
    ∃ id q, addBinary left op right p = .ok id q ∧ q.rest = p.rest ∧ Grows p q ∧
      q.Shows id (.binary a op b) := by
  have hgrows := p.grows_withNode (.binary left op right) ((p.forest.span left).merge (p.forest.span right))
  exact ⟨_, _, rfl, rfl, hgrows, .binary (p.get?_withNode _ _) (ha.grow hgrows) (hb.grow hgrows)⟩

/-- A name gets a symbol. -/
theorem internName_apply (name : String) :
    ∃ x q, internName name p = .ok x q ∧ q.rest = p.rest ∧ Grows p q ∧ q.symbols.name? x = some name :=
  ⟨_, _, rfl, rfl, ⟨List.prefix_refl _, p.symbols.names_intern name⟩, p.symbols.name?_intern name⟩

/-! ## Numbers -/

theorem le_ofDigitChars (value : Nat) (cs : List Char) : value ≤ Nat.ofDigitChars 10 cs value := by
  induction cs generalizing value with
  | nil => exact Nat.le_refl _
  | cons c cs ih =>
    have hrest := ih (10 * value + (c.toNat - '0'.toNat))
    rw [Nat.ofDigitChars_cons]
    omega

theorem toInt_ofNat_of_le {n : Nat} (h : n ≤ largestLiteral) : (Int32.ofNat n).toInt = n :=
  Int32.toInt_ofNat_of_lt (Nat.lt_succ_of_le h)

theorem int32?_natCast (n : Nat) :
    int32? n = if n ≤ largestLiteral then some (Int32.ofNat n) else none := by
  have hmin : Int32.minValue.toInt ≤ n := Int.le_trans (by decide) (Int.natCast_nonneg n)
  have hmax : (n : Int) ≤ Int32.maxValue.toInt ↔ n ≤ largestLiteral := Int.ofNat_le (n := largestLiteral)
  rw [int32?, Int32.ofInt_eq_ofNat]
  simp only [hmin, hmax, true_and]

/-- A digit is appended unless the number becomes too large. Ten times a number that is not too large may itself be
too large; with the digit it is then too large as well. -/
theorem appendDigit?_ofNat {value : Nat} (hv : value ≤ largestLiteral) (digit : Nat) :
    appendDigit? (Int32.ofNat value) digit =
      if 10 * value + digit ≤ largestLiteral then some (Int32.ofNat (10 * value + digit)) else none := by
  have htens : (Int32.ofNat value).toInt * 10 = (10 * value : Nat) := by
    rw [toInt_ofNat_of_le hv]
    omega
  rw [appendDigit?, htens, int32?_natCast]
  split
  · next hle =>
    rw [Option.bind_some, toInt_ofNat_of_le hle]
    exact int32?_natCast (10 * value + digit)
  · rw [Option.bind_none, if_neg (by omega)]

/-- Digits are read as the number that they stand for, if it is not too large. -/
theorem readDigits_eq_some {value : Nat} {word : Int32} {cs : List Char} (hv : value ≤ largestLiteral) :
    readDigits (Int32.ofNat value) cs = .ok (some word) ↔ (∀ c ∈ cs, Lexer.isDigit c = true) ∧
      word = Int32.ofNat (Nat.ofDigitChars 10 cs value) ∧ Nat.ofDigitChars 10 cs value ≤ largestLiteral := by
  induction cs generalizing value with
  | nil =>
    rw [readDigits, Except.ok.injEq, Option.some.injEq, Nat.ofDigitChars_nil]
    constructor
    · rintro rfl
      exact ⟨by simp, rfl, hv⟩
    · rintro ⟨-, rfl, -⟩
      rfl
  | cons c cs ih =>
    rw [readDigits, digit?, Nat.ofDigitChars_cons]
    by_cases hdigit : Lexer.isDigit c = true
    · simp only [hdigit, if_true, List.mem_cons, forall_eq_or_imp, true_and]
      rw [appendDigit?_ofNat hv]
      by_cases hle : 10 * value + (c.toNat - '0'.toNat) ≤ largestLiteral
      · rw [if_pos hle]
        exact ih hle
      · rw [if_neg hle]
        -- the number only grows, so it stays too large
        have hgrows := le_ofDigitChars (10 * value + (c.toNat - '0'.toNat)) cs
        constructor
        · intro h
          cases h
        · rintro ⟨-, -, hsmall⟩
          omega
    · simp [hdigit]

/-- The digits of a token are read as its number. -/
theorem readDigits_lexeme_eq_some {word : Int32} :
    readDigits 0 (t.lexeme.toList.filter (· ≠ '_')) = .ok (some word) ↔
      (∀ c ∈ t.lexeme.toList.filter (· ≠ '_'), Lexer.isDigit c = true) ∧ word = Int32.ofNat t.number ∧
      t.number ≤ largestLiteral :=
  readDigits_eq_some (Nat.zero_le largestLiteral)

theorem integerValue_of_le (hd : ∀ c ∈ t.lexeme.toList, Lexer.continuesNumber c = true)
    (hle : t.number ≤ largestLiteral) : integerValue t p = .ok (Int32.ofNat t.number) p := by
  rw [integerValue, readDigits_lexeme_eq_some.mpr ⟨isDigit_of_continuesNumber hd, rfl, hle⟩]
  rfl

/-! ## What a step gives -/

/-- If the step `x` succeeds from the parser `p`, then with a result and a parser as `Q` says. -/
def Gives (x : Parse α) (p : Parser) (Q : α → Parser → Prop) : Prop :=
  ∀ a q, x p = .ok a q → Q a q

theorem Gives.bind (hx : Gives x p Q) (hf : ∀ a q, Q a q → Gives (f a) q R) : Gives (x >>= f) p R := by
  intro b r h
  obtain ⟨a, q, ha, hb⟩ := bind_eq_ok.mp h
  exact hf a q (hx a q ha) b r hb

theorem Gives.of_ok {a : α} (h : x p = .ok a q) (hQ : Q a q) : Gives x p Q := by
  intro b r hb
  rw [h] at hb
  cases hb
  exact hQ

/-- A step whose outcome is known is followed by the others. -/
theorem Gives.after {a : α} (h : x p = .ok a q) (hf : Gives (f a) q R) : Gives (x >>= f) p R := by
  intro b r hb
  rw [bind_of_ok h] at hb
  exact hf b r hb

theorem gives_reject (e : Error) : Gives (reject e) p Q := by
  intro a q h
  cases h

/-- What stands behind a rejection is not carried out. -/
theorem gives_reject_bind (e : Error) : Gives (reject e >>= f) p R :=
  (gives_reject e (Q := fun _ _ => False)).bind fun _ _ hfalse => hfalse.elim

theorem gives_check (y : Except Fault α) : Gives (check y) p fun a q => y = .ok a ∧ q = p := by
  intro a q h
  cases y with
  | ok b =>
    cases h
    exact ⟨rfl, rfl⟩
  | error e => cases h

theorem gives_peek : Gives peek p fun t q => q = p ∧ ∃ us, p.rest = t :: us := by
  cases hrest : p.rest with
  | cons t us => exact .of_ok (peek_cons hrest) ⟨rfl, us, rfl⟩
  | nil =>
    intro t q h
    rw [peek_nil hrest] at h
    cases h

theorem gives_isAt : Gives (isAt kind) p fun b q =>
    q = p ∧ ∃ t us, p.rest = t :: us ∧ b = decide (t.kind = kind) :=
  gives_peek.bind fun t _ hq => .of_ok rfl ⟨hq.1, t, hq.2.choose, hq.2.choose_spec, rfl⟩

theorem gives_advance : Gives advance p fun t q =>
    ∃ us, p.rest = t :: us ∧ (t.kind ≠ .endOfInput → q = { p with rest := us }) := by
  intro t q h
  obtain ⟨u, r, hpeek, -⟩ := bind_eq_ok.mp h
  obtain ⟨rfl, us, hus⟩ := gives_peek u r hpeek
  by_cases hend : u.kind = .endOfInput
  · rw [advance_end hus hend] at h
    cases h
    exact ⟨us, hus, fun hne => absurd hend hne⟩
  · rw [advance_cons hus hend] at h
    cases h
    exact ⟨us, hus, fun _ => rfl⟩

theorem gives_unexpected (t : Token) (expected : String) : Gives (unexpected t expected) p Q :=
  (gives_check _).bind fun _ _ _ => gives_reject _

theorem gives_expect (hend : kind ≠ .endOfInput) : Gives (expect kind) p fun t q =>
    t.kind = kind ∧ ∃ us, p.rest = t :: us ∧ q = { p with rest := us } := by
  refine gives_peek.bind fun t q hq => ?_
  obtain ⟨rfl, us, hus⟩ := hq
  split
  · next hkind => exact .of_ok (advance_cons hus (hkind ▸ hend)) ⟨hkind, us, hus, rfl⟩
  · exact gives_unexpected _ _

theorem gives_integerValue : Gives (integerValue t) p fun value q =>
    q = p ∧ value = Int32.ofNat t.number ∧ t.number ≤ largestLiteral := by
  refine (gives_check _).bind fun m q hm => ?_
  obtain ⟨hdigits, rfl⟩ := hm
  cases m with
  | none => exact (gives_check _).bind fun _ _ _ => gives_reject _
  | some word =>
    obtain ⟨-, rfl, hle⟩ := readDigits_lexeme_eq_some.mp hdigits
    exact .of_ok rfl ⟨rfl, rfl, hle⟩

/-! ## What was accepted is derived -/

/-- The parser went from `p` to `q` over the tokens of a tree, and `id` is that tree. -/
def Reads (level : Precedence) (p : Parser) (id : NodeId) (q : Parser) : Prop :=
  ∃ ts tree, p.rest = ts ++ q.rest ∧ Derives level ts tree ∧ tree.Valid ∧ (∀ t ∈ ts, t.Placed) ∧
    Grows p q ∧ q.Shows id tree

theorem Reads.mono {level level' : Precedence} (h : Reads level p id q)
    (hl : ∀ ts tree, Derives level ts tree → Derives level' ts tree) : Reads level' p id q := by
  obtain ⟨ts, tree, hts, hderives, hrest⟩ := h
  exact ⟨ts, tree, hts, hl ts tree hderives, hrest⟩

theorem gives_primary {expression : Parse NodeId} (he : ∀ p, Gives expression p (Reads .expression p)) :
    Gives (primary expression) p (Reads .primary p) := by
  refine gives_advance.bind fun t q hq => ?_
  obtain ⟨us, hus, hq⟩ := hq
  split
  · next hkind =>
    obtain rfl := hq (by simp [hkind])
    refine gives_integerValue.bind fun value q hvalue => ?_
    obtain ⟨rfl, rfl, hle⟩ := hvalue
    refine (gives_check _).bind fun span q hspan => ?_
    obtain ⟨hspan, rfl⟩ := hspan
    refine .of_ok (addNode_apply _ _) ⟨[t], .number t.number, hus, .number hkind, hle, ?_, ?_, ?_⟩
    · simpa [Token.Placed] using fun _ => t.span_eq_ok.mp ⟨span, hspan⟩
    · exact (grows_withNode _ _ _).of_rest
    · exact .number (get?_withNode _ _ _)
  · next hkind =>
    obtain rfl := hq (by simp [hkind])
    obtain ⟨x, q, hintern, hrest, hgrows, hnamed⟩ := internName_apply (p := { p with rest := us }) t.lexeme
    refine .after hintern ?_
    refine (gives_check _).bind fun span r hspan => ?_
    obtain ⟨hspan, rfl⟩ := hspan
    refine .of_ok (addNode_apply _ _) ⟨[t], .name t.lexeme, ?_, .name hkind, trivial, ?_, ?_, ?_⟩
    · rw [hus]
      exact congrArg (t :: ·) hrest.symm
    · simpa [Token.Placed] using fun _ => t.span_eq_ok.mp ⟨span, hspan⟩
    · exact (hgrows.trans (grows_withNode _ _ _)).of_rest
    · exact .name (get?_withNode _ _ _) hnamed
  · next hkind =>
    obtain rfl := hq (by simp [hkind])
    refine (he _).bind fun inner q hinner => ?_
    obtain ⟨ts, tree, hts, hderives, hvalid, hplaced, hgrows, hshows⟩ := hinner
    refine (gives_expect (by simp)).bind fun c r hc => ?_
    obtain ⟨hclosing, vs, hvs, rfl⟩ := hc
    refine .of_ok rfl ⟨t :: (ts ++ [c]), tree, ?_, .parens hkind hderives hclosing, hvalid, ?_,
      ⟨hgrows.forest, hgrows.symbols⟩, hshows⟩
    · have hts : us = ts ++ q.rest := hts
      rw [hus, hts, hvs]
      simp
    · have hopened : t.Placed := by simp [Token.Placed, hkind]
      have hclosed : c.Placed := by simp [Token.Placed, hclosing]
      exact List.forall_mem_cons.mpr
        ⟨hopened, List.forall_mem_append.mpr ⟨hplaced, List.forall_mem_singleton.mpr hclosed⟩⟩
  · exact gives_unexpected _ _

/-- Two operands with a sign between them, put together as the grammar says. -/
theorem gives_addBinary {a b c : Precedence} {op : Operator} (hl : Reads a p left q) (hq : q.rest = t :: us)
    (ht : t.kind ≠ .integer ∧ t.kind ≠ .identifier) (hr : Reads b { q with rest := us } right r)
    (hjoin : ∀ ts vs l r, Derives a ts l → Derives b vs r → Derives c (ts ++ t :: vs) (.binary l op r))
    (htarget : op = .assign → (q.forest.get? left).any Node.isName = true) :
    Gives (addBinary left op right) r (Reads c p) := by
  obtain ⟨ts, l, hts, hdl, hvl, hpl, hgl, hsl⟩ := hl
  obtain ⟨vs, m, hvs, hdm, hvm, hpm, hgm, hsm⟩ := hr
  have hgm : Grows q r := hgm.of_rest
  obtain ⟨id, r', hadd, hrest, hgrows, hshows⟩ := addBinary_apply op (hsl.grow hgm) hsm
  have hname : op = .assign → l.isName = true := by
    intro hop
    rw [← Forest.Shows.isName hsl]
    exact htarget hop
  refine .of_ok hadd ⟨ts ++ t :: vs, .binary l op m, ?_, hjoin ts vs l m hdl hdm, ⟨hname, hvl, hvm⟩, ?_,
    (hgl.trans hgm).trans hgrows, hshows⟩
  · have hvs : us = vs ++ r.rest := hvs
    rw [hts, hq, hvs, hrest]
    simp
  · have hsign : t.Placed := by simp [Token.Placed, ht.1, ht.2]
    exact List.forall_mem_append.mpr ⟨hpl, List.forall_mem_cons.mpr ⟨hsign, hpm⟩⟩

section Chain

variable {operand : Parse NodeId} {operator? : Token.Kind → Option Arithmetic} {a b : Precedence}

/-- The kinds of tokens that are signs of a chain, and what the grammar makes of a chain. -/
structure IsChain (operator? : Token.Kind → Option Arithmetic) (a b : Precedence) : Prop where
  sign : ∀ kind op, operator? kind = some op → kind ≠ .endOfInput ∧ kind ≠ .integer ∧ kind ≠ .identifier
  one : ∀ ts tree, Derives b ts tree → Derives a ts tree
  more : ∀ ts us t op l r, operator? t.kind = some op → Derives a ts l → Derives b us r →
    Derives a (ts ++ t :: us) (.binary l (.arithmetic op) r)

theorem isChain_product : IsChain productOperator? .product .primary where
  sign kind op h := by
    cases kind <;> simp_all [productOperator?]
  one _ _ := .factor
  more _ _ _ _ _ _ hop hl hr := .product hl hop hr

theorem isChain_sum : IsChain sumOperator? .sum .product where
  sign kind op h := by
    cases kind <;> simp_all [sumOperator?]
  one _ _ := .term
  more _ _ _ _ _ _ hop hl hr := .sum hl hop hr

/-- A chain grows by one operator and one operand at a time. -/
theorem gives_chainFrom (hc : IsChain operator? a b) (ho : ∀ p, Gives operand p (Reads b p)) (length : Nat)
    (h : Reads a p left q) : Gives (chainFrom operator? operand length left) q (Reads a p) := by
  induction length generalizing left q with
  | zero => exact .of_ok rfl h
  | succ length ih =>
    refine gives_peek.bind fun t q' hq' => ?_
    obtain ⟨rfl, us, hus⟩ := hq'
    split
    · exact .of_ok rfl h
    · next op hop =>
      obtain ⟨hend, hplain⟩ := hc.sign t.kind op hop
      refine .after (advance_cons hus hend) ?_
      refine (ho _).bind fun right r hright => ?_
      refine (gives_addBinary h hus hplain hright (fun ts vs l r => hc.more ts vs t op l r hop) nofun).bind
        fun id r' hid => ?_
      exact ih hid

theorem gives_chain (hc : IsChain operator? a b) (ho : ∀ p, Gives operand p (Reads b p)) :
    Gives (chain operator? operand) p (Reads a p) :=
  (ho p).bind fun _ _ hq => gives_chainFrom hc ho _ (hq.mono hc.one)

end Chain

theorem gives_sum {expression : Parse NodeId} (he : ∀ p, Gives expression p (Reads .expression p)) :
    Gives (sum expression) p (Reads .sum p) :=
  gives_chain isChain_sum fun _ => gives_chain isChain_product fun _ => gives_primary he

theorem gives_expressionTo (depth : Nat) : Gives (expressionTo depth) p (Reads .expression p) := by
  induction depth generalizing p with
  | zero => exact gives_peek.bind fun _ _ _ => gives_unexpected _ _
  | succ depth ih =>
    refine (gives_sum fun _ => ih).bind fun target q hq => ?_
    refine gives_isAt.bind fun b q' hb => ?_
    obtain ⟨rfl, t, us, hus, rfl⟩ := hb
    by_cases hkind : t.kind = .equal
    · simp only [hkind, decide_true, Bool.not_true, Bool.false_eq_true, if_false]
      refine .after (advance_cons hus (by simp [hkind])) ?_
      refine .after (isName_apply target) ?_
      split
      · -- the target of an assignment must be a name
        refine .after (get_apply _) ?_
        exact (gives_check _).bind fun _ _ _ => gives_reject_bind _
      · next hname =>
        refine ih.bind fun value r hvalue => ?_
        have hplain : t.kind ≠ .integer ∧ t.kind ≠ .identifier := by simp [hkind]
        exact gives_addBinary hq hus hplain hvalue (fun ts vs l r hl hr => .assign hl hkind hr)
          fun _ => by simpa using hname
    · simp only [hkind, decide_false, Bool.not_false, if_true]
      exact .of_ok rfl (hq.mono fun _ _ => .plain)

theorem gives_expression : Gives expression p (Reads .expression p) :=
  .after (get_apply p) (gives_expressionTo _)

/-! ## Programs -/

/-- The parser went from `p` to the end of the input over the tokens of trees, and `ids` are those trees. -/
def ReadsAll (p : Parser) (ids : List NodeId) (q : Parser) : Prop :=
  ∃ ts trees, p.rest = ts ++ q.rest ∧ DerivesAll ts trees ∧ (∀ tree ∈ trees, tree.Valid) ∧
    (∀ t ∈ ts, t.Placed) ∧ Grows p q ∧ List.Forall₂ q.Shows ids trees ∧
    ∃ t us, q.rest = t :: us ∧ t.kind = .endOfInput

/-- At the end of the input there are no more statements. -/
theorem statementsTo_atEnd (count : Nat) (h : p.rest = t :: us) (ht : t.kind = .endOfInput) :
    statementsTo count p = .ok [] p := by
  cases count with
  | zero => rfl
  | succ count =>
    have hat : statementsTo (count + 1) p = _ := bind_of_ok (isAt_cons h .endOfInput)
    rw [hat]
    simp only [ht, decide_true, if_true]
    rfl

/-- Each statement takes a token, so the count is never reached. -/
theorem gives_statementsTo {count : Nat} (hcount : p.rest.length < count) :
    Gives (statementsTo count) p (ReadsAll p) := by
  induction count generalizing p with
  | zero => exact absurd hcount (Nat.not_lt_zero _)
  | succ count ih =>
    refine gives_isAt.bind fun b q hb => ?_
    obtain ⟨rfl, t, us, hus, rfl⟩ := hb
    split
    · next hend =>
      exact .of_ok rfl ⟨[], [], rfl, .nil, by simp, by simp, .refl _, .nil, t, us, hus, of_decide_eq_true hend⟩
    · refine gives_expression.bind fun first r hfirst => ?_
      obtain ⟨ts, tree, hts, hderives, hvalid, hplaced, hgrows, hshows⟩ := hfirst
      have hshorter : r.rest.length < count := by
        have hpos := hderives.length_pos
        rw [hts, List.length_append] at hcount
        omega
      refine gives_isAt.bind fun b r' hb => ?_
      obtain ⟨rfl, u, vs, hvs, rfl⟩ := hb
      split
      · next hsemi =>
        have hsemi : u.kind = .semicolon := of_decide_eq_true hsemi
        refine .after (advance_cons hvs (by simp [hsemi])) ?_
        have hbehind : ({ r' with rest := vs } : Parser).rest.length < count := by
          rw [hvs, List.length_cons] at hshorter
          exact Nat.lt_of_succ_lt hshorter
        refine (ih hbehind).bind fun ids r hids => ?_
        obtain ⟨ws, trees, hws, hall, hvalids, hplaceds, hgrows', hshowsAll, hend⟩ := hids
        have hgrows' : Grows r' r := hgrows'.of_rest
        refine .of_ok rfl ⟨ts ++ u :: ws, tree :: trees, ?_, .cons hderives hsemi hall, ?_, ?_,
          hgrows.trans hgrows', .cons (hshows.grow hgrows') hshowsAll, hend⟩
        · have hws : vs = ws ++ r.rest := hws
          rw [hts, hvs, hws]
          simp
        · simpa using ⟨hvalid, hvalids⟩
        · have hsign : u.Placed := by simp [Token.Placed, hsemi]
          exact List.forall_mem_append.mpr ⟨hplaced, List.forall_mem_cons.mpr ⟨hsign, hplaceds⟩⟩
      · refine .after (isAt_cons hvs .endOfInput) ?_
        split
        · exact gives_peek.bind fun _ _ _ => (gives_check _).bind fun _ _ _ => gives_reject_bind _
        · next hend =>
          have hend : u.kind = .endOfInput := by simpa using hend
          refine .after (statementsTo_atEnd count hvs hend) ?_
          exact .of_ok rfl ⟨ts, [tree], hts, .last hderives, by simpa using hvalid, hplaced, hgrows,
            .cons hshows .nil, u, vs, hvs, hend⟩

/-- An accepted program is derived by the grammar, and its root is the block of its trees. -/
theorem gives_program : Gives program p fun root q => ∃ ts trees t us, p.rest = ts ++ t :: us ∧
    t.kind = .endOfInput ∧ DerivesAll ts trees ∧ (∀ tree ∈ trees, tree.Valid) ∧ (∀ t ∈ ts, t.Placed) ∧
    t.Fits ∧ (∀ u ∈ p.rest.head?, u.Fits) ∧ q.forest.ShowsAll q.symbols root trees := by
  refine gives_peek.bind fun u q hu => ?_
  obtain ⟨rfl, vs, hvs⟩ := hu
  refine (gives_check _).bind fun start q' hstart => ?_
  obtain ⟨hstart, rfl⟩ := hstart
  refine .after (get_apply _) ?_
  refine (gives_statementsTo (Nat.lt_succ_self _)).bind fun ids r hids => ?_
  obtain ⟨ts, trees, hts, hall, hvalid, hplaced, hgrows, hshows, t, us, hus, hend⟩ := hids
  refine .after (peek_cons hus) ?_
  refine (gives_check _).bind fun stop r' hstop => ?_
  obtain ⟨hstop, rfl⟩ := hstop
  refine .of_ok (addNode_apply _ _) ⟨ts, trees, t, us, hus ▸ hts, hend, hall, hvalid, hplaced,
    t.span_eq_ok.mp ⟨stop, hstop⟩, ?_, ids, get?_withNode _ _ _, ?_⟩
  · rw [hvs]
    simpa using u.span_eq_ok.mp ⟨start, hstart⟩
  · exact hshows.imp fun _ _ h => h.grow (grows_withNode _ _ _)

end Parser

end ArithJit
