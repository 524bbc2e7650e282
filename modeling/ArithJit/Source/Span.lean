/-!
# Positions and spans of a source text

A position is a line and a column; a span is the stretch of text between two positions. Spans of
neighbouring pieces of syntax are joined by `Span.merge`, which takes the earlier start and the later
end. Lines and columns are kept in 64-bit words, so a span whose end would lie beyond the last column
does not exist (`Span.singleLine?`).
-/

namespace ArithJit

/-- The number of values of a machine word, and so of columns and of sizes in bytes. -/
def wordCount : Nat := 0x10000000000000000

/-- A place in a source text. -/
structure Position where
  /-- The line, counted from one. -/
  line : Nat
  /-- The column, counted in characters from zero. -/
  column : Nat
deriving DecidableEq, Repr, Inhabited

namespace Position

/-- Positions are ordered by line, then by column. -/
instance : LT Position where
  lt p q := p.line < q.line ∨ (p.line = q.line ∧ p.column < q.column)

theorem lt_iff (p q : Position) :
    p < q ↔ p.line < q.line ∨ (p.line = q.line ∧ p.column < q.column) :=
  Iff.rfl

instance (p q : Position) : Decidable (p < q) :=
  decidable_of_iff _ (lt_iff p q).symm

end Position

/-- A stretch of source text. -/
structure Span where
  /-- The position of the first character. -/
  start : Position
  /-- The position just past the last character. -/
  stop : Position
deriving DecidableEq, Repr, Inhabited

namespace Span

/-- The span of a node that stands for no text. -/
def zero : Span := ⟨⟨0, 0⟩, ⟨0, 0⟩⟩

/-- The span of `length` characters of one line, if its last column is a machine word. -/
def singleLine? (line column length : Nat) : Option Span :=
  if column + length < wordCount then
    some ⟨⟨line, column⟩, ⟨line, column + length⟩⟩
  else
    none

/-- The smallest span that covers both spans. -/
def merge (s t : Span) : Span where
  start := if t.start < s.start then t.start else s.start
  stop := if s.stop < t.stop then t.stop else s.stop

end Span

end ArithJit
