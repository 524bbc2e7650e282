import ArithJit.Proofs.Segmentation
import Mathlib.Data.List.Chain

/-!
# Proofs: texts with blanks between the tokens

The converse of splitting a text into tokens. Pieces of text are written one after the other, with any
number of blanks in front of, between and behind them (`Spaced`). If no two words stand side by side, then
the tokens of the text are the pieces, whatever the blanks are: a word ends where a blank or a punctuation
character follows.
-/

namespace ArithJit

/-- A token without its position. -/
structure Piece where
  /-- What the token is. -/
  kind : Token.Kind
  /-- The text of the token. -/
  lexeme : String
deriving DecidableEq, Repr

/-- The token without its position. -/
def Token.piece (t : Token) : Piece :=
  ⟨t.kind, t.lexeme⟩

namespace Piece

/-- Whether the piece is a name or a number. -/
def isWord (x : Piece) : Bool :=
  x.kind = .integer || x.kind = .identifier

/-- The lexer takes the characters of the piece for a token of its kind. -/
def Lexes (x : Piece) : Prop :=
  ∃ first more continues, x.lexeme.toList = first :: more ∧
    Lexer.classify? first = some (x.kind, continues) ∧ ∀ c ∈ more, continues c = true

/-- Two pieces that may stand side by side without a blank. -/
def Parted (x y : Piece) : Prop :=
  x.isWord = true → y.isWord = false

end Piece

/-- The text consists of the pieces, with blanks in front of, between and behind them. -/
inductive Spaced : List Piece → List Char → Prop where
  | nil (blanks : List Char) (blank : ∀ c ∈ blanks, Lexer.isBlank c = true) : Spaced [] blanks
  | cons {x : Piece} {pieces : List Piece} {rest : List Char} (blanks : List Char)
      (blank : ∀ c ∈ blanks, Lexer.isBlank c = true) (others : Spaced pieces rest) :
      Spaced (x :: pieces) (blanks ++ (x.lexeme.toList ++ rest))

/-! ## Where a token ends -/

namespace Lexer

variable {c d : Char} {kind kind' : Token.Kind} {continues continues' : Char → Bool}

/-- A character of a number is one of a name, too. -/
theorem continuesName_of_number (h : continuesNumber c = true) : continuesName c = true := by
  rw [continuesNumber, Bool.or_eq_true] at h
  rcases h with h | h
  · simp [continuesName, h]
  · simp [continuesName, startsName, of_decide_eq_true h]

/-- A punctuation character is none of a name. -/
theorem continuesName_of_classify? (h : classify? c = some (kind, continues)) (hi : kind ≠ .integer)
    (hn : kind ≠ .identifier) : continuesName c = false := by
  rw [classify?] at h
  split at h
  · cases h
    exact absurd rfl hi
  · next hdigit =>
    split at h
    · cases h
      exact absurd rfl hn
    · next hname => simp [continuesName, hdigit, hname]

/-- Only words go on behind their first character, and with characters of names only. -/
theorem continuesName_of_continues (h : classify? c = some (kind, continues)) (hd : continues d = true) :
    (kind = .integer ∨ kind = .identifier) ∧ continuesName d = true := by
  rw [classify?] at h
  split at h
  · cases h
    exact ⟨Or.inl rfl, continuesName_of_number hd⟩
  · split at h
    · cases h
      exact ⟨Or.inr rfl, hd⟩
    · obtain ⟨k, -, hpair⟩ := Option.map_eq_some_iff.mp h
      cases hpair
      cases hd

end Lexer

variable {x : Piece} {pieces : List Piece} {cs : List Char}

/-- A text starts with a blank, or with the first character of its first piece. -/
theorem Spaced.head (h : Spaced pieces cs) (hl : ∀ x ∈ pieces, x.Lexes) {d : Char} (hd : cs.head? = some d) :
    Lexer.isBlank d = true ∨ ∃ y others continues, pieces = y :: others ∧
      Lexer.classify? d = some (y.kind, continues) := by
  cases h with
  | nil blanks blank => exact Or.inl (blank d (List.mem_of_head? hd))
  | @cons y others rest blanks blank spaced =>
    cases blanks with
    | cons b blanks =>
      cases hd
      exact Or.inl (blank d (by simp))
    | nil =>
      obtain ⟨first, more, continues, hlexeme, hclass, -⟩ := hl y (by simp)
      rw [List.nil_append, hlexeme] at hd
      cases hd
      exact Or.inr ⟨y, others, continues, rfl, hclass⟩

/-- A piece ends where the text behind it begins. -/
theorem Spaced.stops (h : Spaced pieces cs) (hl : ∀ x ∈ pieces, x.Lexes) (hp : ∀ y ∈ pieces.head?, x.Parted y)
    {c : Char} {continues : Char → Bool} (hc : Lexer.classify? c = some (x.kind, continues)) {d : Char}
    (hd : cs.head? = some d) : continues d = false := by
  by_contra hcontinues
  obtain ⟨hkind, hname⟩ := Lexer.continuesName_of_continues hc (Bool.not_eq_false _ ▸ hcontinues)
  have hword : x.isWord = true := by
    rcases hkind with hkind | hkind <;> simp [Piece.isWord, hkind]
  rcases h.head hl hd with hblank | ⟨y, others, continues', rfl, hclass⟩
  · rw [(Lexer.classify?_blank hblank).2] at hname
    cases hname
  · have hplain : y.isWord = false := hp y rfl hword
    rw [Piece.isWord, Bool.or_eq_false_iff, decide_eq_false_iff_not, decide_eq_false_iff_not] at hplain
    rw [Lexer.continuesName_of_classify? hclass hplain.1 hplain.2] at hname
    cases hname

/-! ## The tokens of a text -/

theorem Piece.Lexes.spells (h : x.Lexes) : x.kind.Spells x.lexeme.toList := by
  obtain ⟨first, more, continues, hlexeme, hclass, hmore⟩ := h
  have hfirst := Lexer.exists_startedBy hclass
  rw [Lexer.classify?_eq_of_startedBy hfirst] at hclass
  cases hclass
  exact ⟨first, more, hlexeme, hfirst, hmore⟩

/-- The text is cut into its pieces, and the end of the input. -/
theorem Spaced.segmented (h : Spaced pieces cs) (hl : ∀ x ∈ pieces, x.Lexes) (hp : pieces.IsChain Piece.Parted)
    (before : List Char) : ∃ ts stop, Segmented before cs (ts ++ [stop]) ∧ ts.map Token.piece = pieces ∧
      stop.kind = .endOfInput := by
  induction h generalizing before with
  | nil blanks blank => exact ⟨[], _, .stop blank, rfl, rfl⟩
  | @cons x pieces rest blanks blank others ih =>
    have hrest : ∀ y ∈ pieces, y.Lexes := fun y hy => hl y (by simp [hy])
    obtain ⟨hhead, htail⟩ := List.isChain_cons.mp hp
    have hspelled := (hl x (by simp)).spells
    have hends : ∀ d, rest.head? = some d → x.kind.continuedBy d = false := by
      obtain ⟨first, more, -, hfirst, -⟩ := hspelled
      exact fun d hd => others.stops hrest hhead (Lexer.classify?_eq_of_startedBy hfirst) hd
    obtain ⟨ts, stop, htokens, hpieces, hstop⟩ := ih hrest htail (before ++ blanks ++ x.lexeme.toList)
    refine ⟨_ :: ts, stop, .word blank hspelled hends htokens, ?_, hstop⟩
    rw [List.map_cons, hpieces, Token.piece, String.ofList_toList]

/-- The tokens of a text are its pieces, and the end of the input. -/
theorem tokenize_spaced {text : String} (h : Spaced pieces text.toList) (hl : ∀ x ∈ pieces, x.Lexes)
    (hp : pieces.IsChain Piece.Parted) :
    ∃ ts stop, tokenize text = .ok (ts ++ [stop]) ∧ ts.map Token.piece = pieces ∧ stop.kind = .endOfInput := by
  obtain ⟨ts, stop, htokens, hpieces, hstop⟩ := h.segmented hl hp []
  exact ⟨ts, stop, tokenize_eq_ok_iff.mpr htokens, hpieces, hstop⟩

end ArithJit
