import ArithJit.Proofs.Segmentation

/-!
# Proofs: where the tokens of a text stand

Each token stands in the text where its position says, and the end of the input stands behind the text. A
token ends in the line in which it starts, and before the next token starts (`Token.Precedes`).
-/

namespace ArithJit

/-! ## Positions further on -/

/-- Without a line feed, a text goes on in the same line. -/
theorem lastLine_append_of_not_mem {text more : List Char} (h : '\n' ∉ more) :
    lastLine (text ++ more) = lastLine text ++ more := by
  have hmore : ∀ c ∈ more.reverse, decide (c ≠ '\n') = true := by
    intro c hc
    have hne : c ≠ '\n' := fun heq => h (heq ▸ List.mem_reverse.mp hc)
    simpa using hne
  rw [lastLine, lastLine, List.rtakeWhile, List.rtakeWhile, List.reverse_append,
    List.takeWhile_append_of_pos hmore, List.reverse_append, List.reverse_reverse]

theorem behind_append_of_not_mem {text more : List Char} (h : '\n' ∉ more) :
    Position.behind (text ++ more) =
      ⟨(Position.behind text).line, (Position.behind text).column + more.length⟩ := by
  rw [Position.behind, lastLine_append_of_not_mem h, List.count_append, List.count_eq_zero_of_not_mem h,
    List.length_append]
  rfl

/-- A position further on is in a later line, or in the same line and not before. -/
theorem behind_le_append (text more : List Char) :
    (Position.behind text).line < (Position.behind (text ++ more)).line ∨
      ((Position.behind text).line = (Position.behind (text ++ more)).line ∧
        (Position.behind text).column ≤ (Position.behind (text ++ more)).column) := by
  by_cases h : '\n' ∈ more
  · have hcount := List.count_pos_iff.mpr h
    left
    simp only [Position.behind, List.count_append]
    omega
  · right
    rw [behind_append_of_not_mem h]
    exact ⟨rfl, Nat.le_add_right _ _⟩

/-! ## The order of tokens -/

/-- The first token ends before the second one starts. -/
def Token.Precedes (t u : Token) : Prop :=
  t.position.line < u.position.line ∨
    (t.position.line = u.position.line ∧ t.position.column + max t.lexeme.length 1 ≤ u.position.column)

namespace Token.Kind.Spells

variable {kind : Token.Kind} {text : List Char}

theorem not_blank (h : kind.Spells text) : ∀ c ∈ text, Lexer.isBlank c = false := by
  obtain ⟨first, more, rfl, hfirst, hmore⟩ := h
  intro c hc
  rcases List.mem_cons.mp hc with rfl | hc
  · exact Cursor.isBlank_of_startedBy hfirst
  · by_contra hblank
    have hcontinues := hmore c hc
    rcases Lexer.isBlank_cases (Bool.not_eq_false _ ▸ hblank) with rfl | rfl | rfl | rfl <;>
      cases kind <;> cases hcontinues

theorem lineFeed_not_mem (h : kind.Spells text) : '\n' ∉ text := by
  intro hmem
  have hblank := h.not_blank '\n' hmem
  cases hblank

theorem length_pos (h : kind.Spells text) : 0 < text.length := by
  obtain ⟨first, more, rfl, -, -⟩ := h
  exact Nat.zero_lt_succ _

end Token.Kind.Spells

namespace Segmented

variable {before text : List Char} {ts : List Token}

/-- A token stands in the text at its position; the end of the input stands behind the text. -/
theorem stands (h : Segmented before text ts) : ∀ t ∈ ts,
    (t.kind = .endOfInput ∧ t.lexeme = "" ∧ t.position = .behind (before ++ text)) ∨
      ∃ front back, text = front ++ (t.lexeme.toList ++ back) ∧ t.kind.Spells t.lexeme.toList ∧
        t.position = .behind (before ++ front) := by
  induction h with
  | stop blank =>
    intro t ht
    obtain rfl := List.mem_singleton.mp ht
    exact Or.inl ⟨rfl, rfl, rfl⟩
  | @word before blanks lexeme rest kind ts blank spelled maximal others ih =>
    intro t ht
    rcases List.mem_cons.mp ht with rfl | ht
    · refine Or.inr ⟨blanks, rest, ?_, ?_, rfl⟩
      · rw [String.toList_ofList]
      · rw [String.toList_ofList]
        exact spelled
    · rcases ih t ht with ⟨hkind, hlexeme, hposition⟩ | ⟨front, back, rfl, hspelled, hposition⟩
      · exact Or.inl ⟨hkind, hlexeme, by rw [hposition]; simp⟩
      · refine Or.inr ⟨blanks ++ lexeme ++ front, back, by simp, hspelled, ?_⟩
        rw [hposition]
        simp

theorem exists_position (h : Segmented before text ts) :
    ∀ t ∈ ts, ∃ front, t.position = .behind (before ++ front) := by
  intro t ht
  rcases h.stands t ht with ⟨-, -, hposition⟩ | ⟨front, -, -, -, hposition⟩
  · exact ⟨text, hposition⟩
  · exact ⟨front, hposition⟩

/-- Each token ends before those behind it start. -/
theorem ordered (h : Segmented before text ts) : ts.Pairwise Token.Precedes := by
  induction h with
  | stop blank => exact List.pairwise_singleton _ _
  | @word before blanks lexeme rest kind ts blank spelled maximal others ih =>
    refine List.pairwise_cons.mpr ⟨fun u hu => ?_, ih⟩
    -- the other token starts somewhere in the text behind this one, which ends in the line where it starts
    obtain ⟨front, hu⟩ := others.exists_position u hu
    have hpos := spelled.length_pos
    have hlength : max (String.ofList lexeme).length 1 = lexeme.length := by
      rw [String.length_ofList]
      omega
    have hle := behind_le_append (before ++ blanks ++ lexeme) front
    rw [← hu, behind_append_of_not_mem spelled.lineFeed_not_mem] at hle
    simp only [Token.Precedes, hlength]
    exact hle

end Segmented

end ArithJit
