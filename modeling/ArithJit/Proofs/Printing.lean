import ArithJit.Proofs.Acceptance
import ArithJit.Proofs.SpacedText

/-!
# Proofs: parsing undoes printing

Trees are written with as few parentheses as possible: an operand is put in parentheses if its own operator
binds looser than its place allows (`Tree.pieces`). The place of a left operand allows the operator itself,
so that chains are grouped to the left; an assignment allows an assignment on its right.

Whatever blanks are put between the pieces, the parser builds the same trees from the text.
-/

namespace ArithJit

/-! ## Printing -/

/-- The kinds of expressions, numbered from the loosest to the tightest. -/
def Precedence.rank : Precedence → Nat
  | expression => 0
  | sum => 1
  | product => 2
  | primary => 3

/-- The kind of expression that an operator makes. -/
def Arithmetic.precedence : Arithmetic → Precedence
  | add | sub => .sum
  | mul | div => .product

/-- The kind of token that the operator is. -/
def Arithmetic.kind : Arithmetic → Token.Kind
  | add => .plus
  | sub => .minus
  | mul => .star
  | div => .slash

namespace Operator

/-- The operator as it is written. -/
def piece : Operator → Piece
  | assign => ⟨.equal, "="⟩
  | arithmetic op => ⟨op.kind, op.text⟩

/-- The kind of expression that the operator makes. -/
def precedence : Operator → Precedence
  | assign => .expression
  | arithmetic op => op.precedence

/-- The kind of expression that may stand on the left of the operator. -/
def left : Operator → Precedence
  | assign => .sum
  | arithmetic op => op.precedence

/-- The kind of expression that may stand on the right of the operator. -/
def right : Operator → Precedence
  | assign => .expression
  | arithmetic .add | arithmetic .sub => .product
  | arithmetic .mul | arithmetic .div => .primary

end Operator

/-- Pieces, in parentheses or not. -/
def inParens (parens : Bool) (pieces : List Piece) : List Piece :=
  if parens then ⟨.leftParen, "("⟩ :: (pieces ++ [⟨.rightParen, ")"⟩]) else pieces

namespace Tree

/-- The kind of expression that a tree is. -/
def precedence : Tree → Precedence
  | number _ => .primary
  | name _ => .primary
  | binary _ op _ => op.precedence

/-- A tree as it is written: parentheses are put around an operand that binds looser than its place allows. -/
def pieces : Tree → List Piece
  | number value => [⟨.integer, toString value⟩]
  | name text => [⟨.identifier, text⟩]
  | binary left op right =>
    inParens (left.precedence.rank < op.left.rank) left.pieces ++
      op.piece :: inParens (right.precedence.rank < op.right.rank) right.pieces

/-- Trees as they are written, with semicolons between them, and one at the end if `ended` says so. -/
def piecesAll (ended : Bool) : List Tree → List Piece
  | [] => []
  | tree :: trees => tree.pieces ++
      if trees.isEmpty && !ended then [] else ⟨.semicolon, ";"⟩ :: piecesAll ended trees

/-- The names that occur in a tree. -/
def names : Tree → List String
  | number _ => []
  | name text => [text]
  | binary left _ right => left.names ++ right.names

end Tree

/-- Whether a text is a name. -/
def Lexer.isName (text : String) : Bool :=
  match text.toList with
  | [] => false
  | first :: more => startsName first && more.all continuesName

-- the left difference needs no parentheses, the right one does
example : (Tree.binary (.binary (.name "a") (.arithmetic .sub) (.number 1)) (.arithmetic .sub)
    (.binary (.number 20) (.arithmetic .sub) (.name "b"))).pieces.map Piece.lexeme =
    ["a", "-", "1", "-", "(", "20", "-", "b", ")"] := by decide +kernel

/-! ## Printed trees are derived -/

variable {ts : List Token} {tree : Tree}

/-- A tighter expression may stand where a looser one may. -/
theorem Derives.loosen {a b : Precedence} (h : Derives a ts tree) (hab : b.rank ≤ a.rank) :
    Derives b ts tree := by
  have hproduct : Derives .primary ts tree → Derives .product ts tree := .factor
  have hsum : Derives .product ts tree → Derives .sum ts tree := .term
  have hplain : Derives .sum ts tree → Derives .expression ts tree := .plain
  cases a <;> cases b <;> simp_all [Precedence.rank]

/-- The number that a printed number stands for. -/
theorem Token.number_toString {t : Token} {n : Nat} (h : t.lexeme = toString n) : t.number = n := by
  have hdigits : (Nat.toDigits 10 n).filter (· ≠ '_') = Nat.toDigits 10 n := by
    rw [List.filter_eq_self]
    intro c hc
    have hdigit := Nat.isDigit_of_mem_toDigits (by decide) (by decide) hc
    rw [decide_eq_true_iff]
    rintro rfl
    cases hdigit
  rw [Token.number, h, Nat.toString_eq_ofList_toDigits, String.toList_ofList, hdigits,
    Nat.ofDigitChars_ten_toDigits]

/-- With or without parentheses, a tree is what its place allows. -/
theorem derives_inParens {level : Precedence} {pieces : List Piece}
    (hd : ∀ ts, ts.map Token.piece = pieces → Derives tree.precedence ts tree)
    (h : ts.map Token.piece = inParens (tree.precedence.rank < level.rank) pieces) : Derives level ts tree := by
  rw [inParens] at h
  split at h
  · obtain ⟨l, us, rfl, hl, hus⟩ := List.map_eq_cons_iff.mp h
    obtain ⟨vs, ws, rfl, hvs, hws⟩ := List.map_eq_append_iff.mp hus
    obtain ⟨r, rfl, hr⟩ := List.map_eq_singleton_iff.mp hws
    have hinside : Derives .expression vs tree := (hd vs hvs).loosen (Nat.zero_le _)
    have hparens : Derives .primary (l :: (vs ++ [r])) tree :=
      .parens (congrArg Piece.kind hl) hinside (congrArg Piece.kind hr)
    refine hparens.loosen ?_
    cases level <;> decide
  · next hlevel =>
    rw [decide_eq_true_iff] at hlevel
    exact (hd ts h).loosen (by omega)

theorem Tree.derives_pieces (tree : Tree) (h : ts.map Token.piece = tree.pieces) :
    Derives tree.precedence ts tree := by
  induction tree generalizing ts with
  | number n =>
    obtain ⟨t, rfl, ht⟩ := List.map_eq_singleton_iff.mp h
    have hnumber : t.number = n := Token.number_toString (congrArg Piece.lexeme ht)
    have hderives : Derives .primary [t] (.number t.number) := .number (congrArg Piece.kind ht)
    rw [hnumber] at hderives
    exact hderives
  | name x =>
    obtain ⟨t, rfl, ht⟩ := List.map_eq_singleton_iff.mp h
    have hname : t.lexeme = x := congrArg Piece.lexeme ht
    have hderives : Derives .primary [t] (.name t.lexeme) := .name (congrArg Piece.kind ht)
    rw [hname] at hderives
    exact hderives
  | binary l op r ihl ihr =>
    obtain ⟨us, vs, rfl, hus, hvs⟩ := List.map_eq_append_iff.mp h
    obtain ⟨t, ws, rfl, ht, hws⟩ := List.map_eq_cons_iff.mp hvs
    have hleft := derives_inParens (fun ts => ihl) hus
    have hright := derives_inParens (fun ts => ihr) hws
    have hkind : t.kind = op.piece.kind := congrArg Piece.kind ht
    cases op with
    | assign => exact .assign hleft hkind hright
    | arithmetic op =>
      cases op with
      | add | sub => exact .sum hleft (by rw [hkind]; rfl) hright
      | mul | div => exact .product hleft (by rw [hkind]; rfl) hright

theorem Tree.derives_piecesAll (ended : Bool) (trees : List Tree)
    (h : ts.map Token.piece = piecesAll ended trees) : DerivesAll ts trees := by
  induction trees generalizing ts with
  | nil =>
    obtain rfl := List.map_eq_nil_iff.mp h
    exact .nil
  | cons tree trees ih =>
    obtain ⟨us, vs, rfl, hus, hvs⟩ := List.map_eq_append_iff.mp h
    have hfirst : Derives .expression us tree := (tree.derives_pieces hus).loosen (Nat.zero_le _)
    split at hvs
    · next hlast =>
      obtain ⟨hempty, -⟩ : trees = [] ∧ ended = false := by simpa using hlast
      obtain rfl := List.map_eq_nil_iff.mp hvs
      rw [hempty, List.append_nil]
      exact .last hfirst
    · obtain ⟨t, ws, rfl, ht, hws⟩ := List.map_eq_cons_iff.mp hvs
      exact .cons hfirst (congrArg Piece.kind ht) (ih hws)

/-! ## Printed trees are split into their pieces -/

theorem Lexer.isDigit_of_isDigit {c : Char} (h : c.isDigit = true) : Lexer.isDigit c = true := by
  simpa [Lexer.isDigit, Char.isDigit, Char.le_def] using h

theorem Piece.lexes_number (n : Nat) : Piece.Lexes ⟨.integer, toString n⟩ := by
  have hdigit : ∀ c ∈ Nat.toDigits 10 n, Lexer.isDigit c = true :=
    fun c hc => Lexer.isDigit_of_isDigit (Nat.isDigit_of_mem_toDigits (by decide) (by decide) hc)
  obtain ⟨first, more, hdigits⟩ := List.exists_cons_of_ne_nil (Nat.toDigits_ne_nil (n := n) (b := 10))
  rw [hdigits] at hdigit
  refine ⟨first, more, Lexer.continuesNumber, ?_, ?_, fun c hc => ?_⟩
  · rw [Nat.toString_eq_ofList_toDigits, String.toList_ofList, hdigits]
  · rw [Lexer.classify?, if_pos (hdigit first (by simp))]
  · simp [Lexer.continuesNumber, hdigit c (by simp [hc])]

theorem Piece.lexes_name {text : String} (h : Lexer.isName text = true) : Piece.Lexes ⟨.identifier, text⟩ := by
  rw [Lexer.isName] at h
  split at h
  · cases h
  · next first more htext =>
    obtain ⟨hfirst, hmore⟩ : Lexer.startsName first = true ∧ more.all Lexer.continuesName = true := by
      simpa using h
    refine ⟨first, more, Lexer.continuesName, htext, ?_, fun c hc => List.all_eq_true.mp hmore c hc⟩
    rw [Lexer.classify?, Lexer.isDigit_of_startsName hfirst, hfirst]
    rfl

theorem Operator.lexes_piece (op : Operator) : op.piece.Lexes ∧ op.piece.isWord = false := by
  rcases op with _ | (_ | _ | _ | _)
  all_goals exact ⟨⟨_, [], fun _ => false, rfl, rfl, by simp⟩, rfl⟩

/-- The pieces are tokens, and no two words stand side by side. -/
structure Splits (pieces : List Piece) : Prop where
  lexes : ∀ x ∈ pieces, x.Lexes
  parted : pieces.IsChain Piece.Parted

/-- Punctuation may stand between any pieces. -/
theorem Splits.append {pieces more : List Piece} {x : Piece} (h : Splits pieces) (h' : Splits more)
    (hx : x.Lexes) (hword : x.isWord = false) : Splits (pieces ++ x :: more) where
  lexes := by
    intro y hy
    rcases List.mem_append.mp hy with hy | hy
    · exact h.lexes y hy
    · rcases List.mem_cons.mp hy with rfl | hy
      · exact hx
      · exact h'.lexes y hy
  parted := by
    have hright : ∀ y, x.Parted y := by simp [Piece.Parted, hword]
    have hleft : ∀ y : Piece, y.Parted x := fun y _ => hword
    refine List.isChain_append.mpr ⟨h.parted, List.isChain_cons.mpr ⟨fun y _ => hright y, h'.parted⟩, ?_⟩
    intro y _ z hz
    cases hz
    exact hleft y

theorem splits_nil : Splits [] :=
  ⟨by simp, .nil⟩

theorem splits_singleton {x : Piece} (h : x.Lexes) : Splits [x] :=
  ⟨by simpa using h, .singleton x⟩

theorem Splits.inParens {pieces : List Piece} (h : Splits pieces) (parens : Bool) :
    Splits (inParens parens pieces) := by
  rw [ArithJit.inParens]
  split
  · have hclosing := h.append splits_nil (x := ⟨.rightParen, ")"⟩)
      ⟨_, [], fun _ => false, rfl, rfl, by simp⟩ rfl
    exact splits_nil.append hclosing (x := ⟨.leftParen, "("⟩) ⟨_, [], fun _ => false, rfl, rfl, by simp⟩ rfl
  · exact h

theorem Tree.splits_pieces (tree : Tree) (h : ∀ x ∈ tree.names, Lexer.isName x = true) :
    Splits tree.pieces := by
  induction tree with
  | number n => exact splits_singleton (Piece.lexes_number n)
  | name x => exact splits_singleton (Piece.lexes_name (h x (by simp [names])))
  | binary l op r ihl ihr =>
    have hleft := ihl fun x hx => h x (by simp [names, hx])
    have hright := ihr fun x hx => h x (by simp [names, hx])
    exact (hleft.inParens _).append (hright.inParens _) op.lexes_piece.1 op.lexes_piece.2

theorem Tree.splits_piecesAll (ended : Bool) (trees : List Tree)
    (h : ∀ tree ∈ trees, ∀ x ∈ tree.names, Lexer.isName x = true) : Splits (piecesAll ended trees) := by
  induction trees with
  | nil => exact splits_nil
  | cons tree trees ih =>
    have hfirst := tree.splits_pieces (h tree (by simp))
    have hothers := ih fun tree ht => h tree (by simp [ht])
    rw [piecesAll]
    split
    · rw [List.append_nil]
      exact hfirst
    · exact hfirst.append hothers ⟨_, [], fun _ => false, rfl, rfl, by simp⟩ rfl

/-! ## Reading what was printed -/

/-- Reading printed trees gives them back, whatever blanks stand between their pieces and whether or not
there is a semicolon at the end. The text has fewer characters than there are machine words, as every text in
a memory has. -/
theorem parse_printed (s : Session) (trees : List Tree) (ended : Bool) (text : String)
    (hv : ∀ tree ∈ trees, tree.Valid) (hn : ∀ tree ∈ trees, ∀ x ∈ tree.names, Lexer.isName x = true)
    (ht : Spaced (Tree.piecesAll ended trees) text.toList) (hlen : text.length + 1 < wordCount) :
    ∃ root s', s.parse text = (.ok root, s') ∧ s'.forest.ShowsAll s'.symbols root trees := by
  have hsplits := Tree.splits_piecesAll ended trees hn
  obtain ⟨ts, stop, htokens, hpieces, hstop⟩ := tokenize_spaced ht hsplits.lexes hsplits.parted
  have hderives := Tree.derives_piecesAll ended trees hpieces
  have htokenized := tokenized_tokenize text
  rw [htokens] at htokenized
  obtain ⟨hended, hwithin, -⟩ := htokenized
  have hfits : ∀ t ∈ ts ++ [stop], t.Fits := by
    intro t ht
    have hcolumn := (hwithin t ht).column
    rw [Token.Fits]
    omega
  have hreadable : ∀ t ∈ ts, t.Readable := by
    intro t ht
    have hmem : t ∈ ts ++ [stop] := by simp [ht]
    exact ⟨fun _ => hfits t hmem, (hwithin t hmem).number⟩
  have hfirst : ∀ t ∈ (ts ++ [stop]).head?, t.Fits := fun t ht => hfits t (List.mem_of_head? ht)
  obtain ⟨root, p, hrun, hshows⟩ := Parser.program_derivesAll (p := .ofTokens (ts ++ [stop]) s.forest s.symbols)
    hderives hv hreadable hended.kind_ne hstop rfl hfirst (hfits stop (by simp))
  refine ⟨root, s.keep p, ?_, hshows⟩
  simp only [Session.parse, htokens, EStateM.run, hrun]

/-- The right one of two differences is in parentheses, and the text goes over two lines. -/
theorem parse_printed_difference : ∃ root s',
    (Session.new {}).parse " x=8 -\n(4-y)" = (.ok root, s') ∧
    s'.forest.ShowsAll s'.symbols root [.binary (.name "x") .assign
      (.binary (.number 8) (.arithmetic .sub) (.binary (.number 4) (.arithmetic .sub) (.name "y")))] := by
  set tree : Tree := .binary (.name "x") .assign
    (.binary (.number 8) (.arithmetic .sub) (.binary (.number 4) (.arithmetic .sub) (.name "y")))
  have hpieces : Tree.piecesAll false [tree] =
      [⟨.identifier, "x"⟩, ⟨.equal, "="⟩, ⟨.integer, "8"⟩, ⟨.minus, "-"⟩,
        ⟨.leftParen, "("⟩, ⟨.integer, "4"⟩, ⟨.minus, "-"⟩, ⟨.identifier, "y"⟩,
        ⟨.rightParen, ")"⟩] := by
    decide +kernel
  have htext : " x=8 -\n(4-y)".toList = [' '] ++ ("x".toList ++ ([] ++ ("=".toList ++ ([] ++ ("8".toList ++
      ([' '] ++ ("-".toList ++ (['\n'] ++ ("(".toList ++ ([] ++ ("4".toList ++ ([] ++ ("-".toList ++
      ([] ++ ("y".toList ++ ([] ++ (")".toList ++ []))))))))))))))))) := by
    decide +kernel
  have hnone : ∀ c ∈ ([] : List Char), Lexer.isBlank c = true := by simp
  have hspace : ∀ c ∈ [' '], Lexer.isBlank c = true := by simp [Lexer.isBlank]
  have hline : ∀ c ∈ ['\n'], Lexer.isBlank c = true := by simp [Lexer.isBlank]
  have hspaced : Spaced (Tree.piecesAll false [tree]) " x=8 -\n(4-y)".toList := by
    rw [hpieces, htext]
    exact .cons [' '] hspace <| .cons [] hnone <| .cons [] hnone <| .cons [' '] hspace <|
      .cons ['\n'] hline <| .cons [] hnone <| .cons [] hnone <| .cons [] hnone <| .cons [] hnone <|
      .nil [] hnone
  have hvalid : ∀ tree' ∈ [tree], tree'.Valid := by
    simp [tree, Tree.Valid, Tree.isName, Parser.largestLiteral]
  exact parse_printed (.new {}) [tree] false " x=8 -\n(4-y)" hvalid (by decide +kernel) hspaced (by decide)

end ArithJit
