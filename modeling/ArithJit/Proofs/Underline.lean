import ArithJit.Diagnostic
import ArithJit.Proofs.Blame

/-!
# Proofs: the line of an error and the carets under it

The lexer counts lines and columns on its way over the text, and a diagnostic splits the text into lines once
more. The two agree: the line that is shown starts with what stands in front of the error since the last line
feed, and goes on with the text of the error (`lineAt_behind`). So the carets stand under that text, up to the
number of the line: from line 10000 on, the number is wider than the space in front of the carets
(`Excerpt.shift`).
-/

namespace ArithJit

/-! ## Lines -/

theorem lastLine_append_of_mem {text more : List Char} (h : '\n' ∈ more) :
    lastLine (text ++ more) = lastLine more := by
  induction more using List.reverseRecOn with
  | nil => simp at h
  | append_singleton more c ih =>
    rw [← List.append_assoc]
    by_cases hc : c = '\n'
    · subst hc
      rw [lastLine_concat_lineFeed, lastLine_concat_lineFeed]
    · have hmore : '\n' ∈ more := by simpa [Ne.symm hc] using h
      rw [lastLine_concat_of_ne _ hc, lastLine_concat_of_ne _ hc, ih hmore]

theorem lastLine_of_not_mem {text : List Char} (h : '\n' ∉ text) : lastLine text = text := by
  have happend : lastLine ([] ++ text) = lastLine [] ++ text := lastLine_append_of_not_mem h
  exact happend

theorem lastLine_cons_of_mem {c : Char} {text : List Char} (h : '\n' ∈ text) :
    lastLine (c :: text) = lastLine text := by
  have happend : lastLine ([c] ++ text) = lastLine text := lastLine_append_of_mem h
  exact happend

theorem lastLine_cons_lineFeed (text : List Char) : lastLine ('\n' :: text) = lastLine text := by
  by_cases h : '\n' ∈ text
  · exact lastLine_cons_of_mem h
  · have happend : lastLine (['\n'] ++ text) = lastLine ['\n'] ++ text := lastLine_append_of_not_mem h
    rw [lastLine_of_not_mem h]
    exact happend

theorem length_lastLine_le (text : List Char) : (lastLine text).length ≤ text.length := by
  have hsub : (text.reverse.takeWhile (· ≠ '\n')).length ≤ text.reverse.length :=
    (List.takeWhile_sublist _).length_le
  rw [List.length_reverse] at hsub
  rw [lastLine, List.rtakeWhile, List.length_reverse]
  exact hsub

theorem splitLines_lineFeed (rest : List Char) : splitLines ('\n' :: rest) = [] :: splitLines rest := by
  rw [splitLines]

theorem splitLines_return (rest : List Char) : splitLines ('\r' :: '\n' :: rest) = [] :: splitLines rest := by
  rw [splitLines]

/-- A character that ends no line is the first one of the line that follows. -/
theorem splitLines_cons {c : Char} {rest : List Char} (hc : c ≠ '\n') (hr : c = '\r' → rest.head? ≠ some '\n') :
    splitLines (c :: rest) = (c :: (splitLines rest).headD []) :: (splitLines rest).tail := by
  rw [splitLines.eq_def]
  split
  · next heq => cases heq
  · next heq => exact absurd (List.cons.inj heq).1 hc
  · next rest' heq =>
    obtain ⟨rfl, rfl⟩ := List.cons.inj heq
    exact absurd rfl (hr rfl)
  · next heq =>
    obtain ⟨rfl, rfl⟩ := List.cons.inj heq
    cases splitLines rest with
    | nil => rfl
    | cons line lines => rfl

/-- Characters that end no line stand at the front of the first line. -/
theorem head_splitLines_append {text rest : List Char} (hlf : '\n' ∉ text) (hcr : text.getLast? ≠ some '\r') :
    (splitLines (text ++ rest)).headD [] = text ++ (splitLines rest).headD [] := by
  induction text with
  | nil => rfl
  | cons c text ih =>
    have hc : c ≠ '\n' := fun heq => hlf (by simp [heq])
    have hlf' : '\n' ∉ text := fun hmem => hlf (by simp [hmem])
    have hcr' : text.getLast? ≠ some '\r' := by
      cases text with
      | nil => simp
      | cons d text =>
        rw [List.getLast?_cons_cons] at hcr
        exact hcr
    have hr : c = '\r' → (text ++ rest).head? ≠ some '\n' := by
      rintro rfl
      cases text with
      | nil => exact absurd rfl hcr
      | cons d text =>
        intro hhead
        obtain rfl : d = '\n' := by simpa using hhead
        simp at hlf'
    rw [List.cons_append, splitLines_cons hc hr, List.headD_cons, ih hlf' hcr', List.cons_append]

/-- The line behind a text is what follows its last line feed, and the first line of the rest. -/
theorem splitLines_append (text : List Char) {rest : List Char} (h : rest.head? ≠ some '\n') :
    (splitLines (text ++ rest))[text.count '\n']?.getD [] = lastLine text ++ (splitLines rest).headD [] := by
  have hfirst : ∀ lines : List (List Char), lines[0]?.getD [] = lines.headD [] := by
    intro lines
    cases lines <;> rfl
  induction text with
  | nil =>
    rw [List.nil_append, List.count_nil, hfirst]
    rfl
  | cons c text ih =>
    rw [List.cons_append]
    by_cases hc : c = '\n'
    · subst hc
      rw [List.count_cons_self, lastLine_cons_lineFeed, ← ih, splitLines_lineFeed, List.getElem?_cons_succ]
    · rw [List.count_cons_of_ne hc]
      by_cases hcr : c = '\r' → (text ++ rest).head? ≠ some '\n'
      · rw [splitLines_cons hc hcr]
        by_cases hmem : '\n' ∈ text
        · obtain ⟨n, hn⟩ : ∃ n, text.count '\n' = n + 1 :=
            Nat.exists_eq_succ_of_ne_zero (Nat.pos_iff_ne_zero.mp (List.count_pos_iff.mpr hmem))
          rw [lastLine_cons_of_mem hmem, ← ih, hn, List.getElem?_cons_succ, List.getElem?_tail]
        · have hline : lastLine (c :: text) = c :: text := lastLine_of_not_mem (by simp [hmem, Ne.symm hc])
          rw [List.count_eq_zero_of_not_mem hmem, hfirst, lastLine_of_not_mem hmem] at ih
          rw [List.count_eq_zero_of_not_mem hmem, hline, hfirst, List.headD_cons, ih, List.cons_append]
      · -- the carriage return belongs to the line feed behind it
        obtain ⟨rfl, hhead⟩ := Classical.not_imp.mp hcr
        have hhead := not_not.mp hhead
        cases text with
        | nil => exact absurd hhead h
        | cons d text =>
          obtain rfl : d = '\n' := by simpa using hhead
          rw [lastLine_cons_of_mem (by simp), ← ih, List.cons_append, splitLines_return, splitLines_lineFeed]

/-- The text is at the end of a line. -/
def EndsLine (text : List Char) : Prop :=
  text = [] ∨ text.head? = some '\n' ∨ ∃ rest, text = '\r' :: '\n' :: rest

/-- The first line goes up to where a line ends. -/
theorem exists_head_splitLines (text : List Char) :
    ∃ rest, text = (splitLines text).headD [] ++ rest ∧ '\n' ∉ (splitLines text).headD [] ∧ EndsLine rest := by
  induction text with
  | nil => exact ⟨[], rfl, List.not_mem_nil, Or.inl rfl⟩
  | cons c text ih =>
    by_cases hc : c = '\n'
    · subst hc
      rw [splitLines_lineFeed]
      exact ⟨'\n' :: text, rfl, List.not_mem_nil, Or.inr (Or.inl rfl)⟩
    by_cases hcr : c = '\r' → text.head? ≠ some '\n'
    · obtain ⟨rest, htext, hline, hrest⟩ := ih
      rw [splitLines_cons hc hcr, List.headD_cons]
      exact ⟨rest, congrArg (c :: ·) htext, List.not_mem_cons_of_ne_of_not_mem (Ne.symm hc) hline, hrest⟩
    · obtain ⟨rfl, hhead⟩ := Classical.not_imp.mp hcr
      obtain ⟨rest, rfl⟩ := List.head?_eq_some_iff.mp (not_not.mp hhead)
      rw [splitLines_return]
      exact ⟨'\r' :: '\n' :: rest, rfl, List.not_mem_nil, Or.inr (Or.inr ⟨rest, rfl⟩)⟩

/-- The line of a position starts with what stands in front of the position since the last line feed. -/
theorem lineAt_behind {source : String} {text rest : List Char} (hs : source.toList = text ++ rest)
    (h : rest.head? ≠ some '\n') :
    (lineAt source (Position.behind text).line).toList = lastLine text ++ (splitLines rest).headD [] := by
  rw [lineAt, String.toList_ofList, hs]
  exact splitLines_append text h

/-! ## Excerpts -/

/-- What a diagnostic shows of a text: a line of it, and a place in the line. -/
structure Excerpt where
  /-- The number of the line. -/
  line : Nat
  /-- The first column of the place. -/
  column : Nat
  /-- The number of carets. -/
  width : Nat
  /-- The line. -/
  text : List Char

namespace Excerpt

/-- The excerpt for a span. -/
def ofSpan (span : Span) (source : String) : Excerpt where
  line := span.start.line
  column := span.start.column
  width := max 1 (Diagnostic.width span)
  text := (lineAt source span.start.line).toList

/-- The line as it is printed, with its number. -/
def shown (x : Excerpt) : List Char :=
  (Diagnostic.lineNumber x.line).toList ++ ([' ', '|', ' '] ++ x.text)

/-- The line with the carets. -/
def carets (x : Excerpt) : List Char :=
  [' ', ' ', ' ', ' ', ' ', '|', ' '] ++ List.replicate x.column ' ' ++ List.replicate x.width '^'

/-- The lines that are printed. -/
def render (x : Excerpt) : String :=
  s!" --> {x.line}:{x.column + 1}\n  |\n" ++ String.ofList x.shown ++ "\n" ++ String.ofList x.carets ++ "\n"

/-- How many columns the line is printed further right than the carets. -/
def shift (x : Excerpt) : Nat :=
  (Diagnostic.lineNumber x.line).length - 4

/-- The characters that the carets stand under, if the printed line is moved to the left. -/
def underlined (x : Excerpt) (moved : Nat) : List Char :=
  (((x.shown.drop moved).zip x.carets).filter fun c => c.2 = '^').map Prod.fst

end Excerpt

theorem Diagnostic.length_lineNumber (n : Nat) :
    (Diagnostic.lineNumber n).length = max 4 (toString n).length := by
  rw [Diagnostic.lineNumber, String.length_append, String.length_ofList, List.length_replicate]
  omega

/-- Carets that fit into memory are printed under the line, behind the headline. -/
theorem Diagnostic.render_eq {e : Error} {span : Span} {source : String} (he : e.span? = some span)
    (hcolumn : (Excerpt.ofSpan span source).column < Diagnostic.runLimit)
    (hwidth : (Excerpt.ofSpan span source).width < Diagnostic.runLimit) :
    Diagnostic.render e source = .ok (Diagnostic.headline e ++ (Excerpt.ofSpan span source).render) := by
  have hcolumn : span.start.column < Diagnostic.runLimit := hcolumn
  have hwidth : max 1 (Diagnostic.width span) < Diagnostic.runLimit := hwidth
  have hword : ¬ wordCount ≤ span.start.column + 1 := by
    have hless : Diagnostic.runLimit < wordCount := by decide
    omega
  have htext : ∀ text : String, toString text = text := fun _ => rfl
  rw [Diagnostic.render, he]
  simp only [Diagnostic.excerpt, hword, if_false, Diagnostic.repeated, hcolumn, hwidth, if_true]
  refine congrArg (fun text => Except.ok (Diagnostic.headline e ++ text)) ?_
  apply String.toList_injective
  delta Excerpt.render
  simp [htext, Excerpt.ofSpan, Excerpt.shown, Excerpt.carets]

namespace Excerpt

variable {x : Excerpt}

/-- The carets stand where they should, up to line 9999. -/
theorem shift_eq_zero : x.shift = 0 ↔ x.line < 10000 := by
  rw [shift, Diagnostic.length_lineNumber, Nat.toString_eq_ofList_toDigits, String.length_ofList]
  have hdigits : (Nat.toDigits 10 x.line).length ≤ 4 ↔ x.line < 10000 :=
    Nat.length_toDigits_le_iff (by decide) (by decide)
  rw [← hdigits]
  omega

theorem drop_shown (x : Excerpt) : ∃ front, x.shown.drop x.shift = front ++ x.text ∧ front.length = 7 := by
  have hlength : (Diagnostic.lineNumber x.line).toList.length = x.shift + 4 := by
    rw [String.length_toList, shift, Diagnostic.length_lineNumber]
    omega
  refine ⟨(Diagnostic.lineNumber x.line).toList.drop x.shift ++ [' ', '|', ' '], ?_, ?_⟩
  · rw [shown, List.drop_append_of_le_length (by omega), List.append_assoc]
  · rw [List.length_append, List.length_drop, hlength]
    simp

theorem filter_zip_eq_nil {cs ms : List Char} (h : '^' ∉ ms) :
    ((cs.zip ms).filter fun c => c.2 = '^') = [] := by
  rw [List.filter_eq_nil_iff]
  rintro ⟨c, m⟩ hmem heq
  obtain rfl : m = '^' := by simpa using heq
  exact h (List.of_mem_zip hmem).2

/-- The carets stand under the text that begins in their column, and under as much of it as there are carets. -/
theorem underlined_eq {front text more : List Char} (hx : x.text = front ++ (text ++ more))
    (hcolumn : front.length = x.column) (hwidth : text.length = x.width) : x.underlined x.shift = text := by
  obtain ⟨gutter, hshown, hgutter⟩ := x.drop_shown
  have hmargin : '^' ∉ [' ', ' ', ' ', ' ', ' ', '|', ' '] ++ List.replicate x.column ' ' := by
    simp [List.mem_replicate]
  have hzip : (text ++ more).zip (List.replicate x.width '^') = text.zip (List.replicate x.width '^') := by
    have happend : (text ++ more).zip (List.replicate x.width '^' ++ []) =
        text.zip (List.replicate x.width '^') ++ more.zip [] := List.zip_append (by simpa using hwidth)
    simpa using happend
  rw [underlined, hshown, hx, carets, ← List.append_assoc gutter,
    List.zip_append (by simp [hgutter, hcolumn]; omega),
    List.filter_append, filter_zip_eq_nil hmargin, List.nil_append, hzip]
  have hall : ∀ c ∈ text.zip (List.replicate x.width '^'), (decide (c.2 = '^')) = true := by
    rintro ⟨c, m⟩ hmem
    simpa using (List.mem_replicate.mp (List.of_mem_zip hmem).2).2
  rw [List.filter_eq_self.mpr hall, List.map_fst_zip (by simp [hwidth])]

/-- The excerpt shows the line in which the text stands behind `front`. The carets stand under this text, if the
line is moved as far to the left as its number is too wide. -/
structure Underlines (x : Excerpt) (source : String) (front text : List Char) : Prop where
  line : x.line = (Position.behind front).line
  column : x.column = (lastLine front).length
  width : x.width = text.length
  shown : ∃ more rest, source.toList = front ++ (text ++ (more ++ rest)) ∧
    x.text = lastLine front ++ (text ++ more) ∧ '\n' ∉ more ∧ EndsLine rest
  under : x.underlined x.shift = text

/-- The excerpt shows the last line, and one caret behind it. -/
structure AtEnd (x : Excerpt) (source : String) : Prop where
  line : x.line = (Position.behind source.toList).line
  text : x.text = lastLine source.toList
  column : x.column = x.text.length
  width : x.width = 1
  behind : x.carets.length = (x.shown.drop x.shift).length + 1

theorem Underlines.lt {source : String} {front text : List Char} {n : Nat} (h : x.Underlines source front text)
    (hn : source.length < n) : x.column < n ∧ x.width < n := by
  obtain ⟨more, rest, hsource, -⟩ := h.shown
  have hlength := congrArg List.length hsource
  have hle := length_lastLine_le front
  rw [String.length_toList, List.length_append, List.length_append] at hlength
  rw [h.column, h.width]
  omega

theorem AtEnd.lt {source : String} {n : Nat} (h : x.AtEnd source) (hn : source.length < n) (hone : 1 < n) :
    x.column < n ∧ x.width < n := by
  have hle := length_lastLine_le source.toList
  rw [String.length_toList] at hle
  rw [h.column, h.text, h.width]
  omega

section OfSpan

variable {source : String} {span : Span} {front text rest : List Char}

theorem text_ofSpan (span : Span) (source : String) :
    (ofSpan span source).text = (lineAt source span.start.line).toList := by
  rw [ofSpan]

theorem underlines_ofSpan (hs : source.toList = front ++ (text ++ rest)) (hstart : span.start = .behind front)
    (hpos : 0 < text.length) (hwidth : Diagnostic.width span = text.length) (hlf : '\n' ∉ text)
    (hcr : text.getLast? ≠ some '\r') : (ofSpan span source).Underlines source front text := by
  have hhead : (text ++ rest).head? ≠ some '\n' := by
    cases text with
    | nil => exact absurd hpos (Nat.lt_irrefl 0)
    | cons c text =>
      intro heq
      obtain rfl : c = '\n' := by simpa using heq
      simp at hlf
  have hline : (ofSpan span source).text = lastLine front ++ (text ++ (splitLines rest).headD []) := by
    rw [text_ofSpan, hstart, lineAt_behind hs hhead, head_splitLines_append hlf hcr]
  have hwidth : (ofSpan span source).width = text.length := by
    simp only [ofSpan, hwidth]
    omega
  have hcolumn : (ofSpan span source).column = (lastLine front).length := congrArg Position.column hstart
  obtain ⟨after, hrest, hmore, hends⟩ := exists_head_splitLines rest
  exact {
    line := congrArg Position.line hstart
    column := hcolumn
    width := hwidth
    shown := ⟨(splitLines rest).headD [], after, by rw [← hrest, hs], hline, hmore, hends⟩
    under := underlined_eq hline hcolumn.symm hwidth.symm }

theorem underlines_ofSpan_of_not_blank (hs : source.toList = front ++ (text ++ rest))
    (hstart : span.start = .behind front) (hpos : 0 < text.length)
    (hwidth : Diagnostic.width span = text.length)
    (hblank : ∀ c ∈ text, Lexer.isBlank c = false) : (ofSpan span source).Underlines source front text := by
  refine underlines_ofSpan hs hstart hpos hwidth ?_ ?_
  · intro hlf
    cases hblank _ hlf
  · intro hcr
    cases hblank _ (List.mem_of_getLast? hcr)

theorem atEnd_ofSpan (hstart : span.start = .behind source.toList) (hwidth : Diagnostic.width span = 1) :
    (ofSpan span source).AtEnd source := by
  have htext : (ofSpan span source).text = lastLine source.toList := by
    rw [text_ofSpan, hstart, lineAt_behind (List.append_nil _).symm (by simp), splitLines]
    exact List.append_nil _
  have hcolumn : (ofSpan span source).column = (ofSpan span source).text.length := by
    rw [htext]
    exact congrArg Position.column hstart
  have hwidth : (ofSpan span source).width = 1 := by simp [ofSpan, hwidth]
  refine ⟨congrArg Position.line hstart, htext, hcolumn, hwidth, ?_⟩
  obtain ⟨gutter, hshown, hgutter⟩ := (ofSpan span source).drop_shown
  rw [hshown, List.length_append, hgutter, carets, hcolumn, hwidth]
  simp
  omega

end OfSpan

end Excerpt

/-! ## The text of an error -/

theorem Token.width_span {t : Token} {span : Span} (h : t.span = .ok span) :
    span.start = t.position ∧ Diagnostic.width span = max t.lexeme.length 1 := by
  rw [Token.span_ok h, Diagnostic.width, if_pos rfl]
  exact ⟨rfl, Nat.add_sub_cancel_left _ _⟩

theorem Token.Kind.Spells.eq_equal {text : List Char} (h : Token.Kind.equal.Spells text) : text = ['='] := by
  obtain ⟨first, more, rfl, hfirst, hmore⟩ := h
  obtain rfl : first = '=' := by simpa [Token.Kind.startedBy] using hfirst
  cases more with
  | nil => rfl
  | cons c more => cases hmore c (by simp)

/-- The span of a token is underlined as the token. -/
theorem Segmented.underlines {source : String} {tokens : List Token} {t : Token} {span : Span}
    (h : Segmented [] source.toList tokens) (ht : t ∈ tokens) (hspan : t.span = .ok span) :
    (t.kind = .endOfInput → (Excerpt.ofSpan span source).AtEnd source) ∧
      (t.kind ≠ .endOfInput → ∃ front, t.position = .behind front ∧
        (Excerpt.ofSpan span source).Underlines source front t.lexeme.toList) := by
  obtain ⟨hstart, hwidth⟩ := Token.width_span hspan
  rcases h.stands t ht with ⟨hkind, hlexeme, hposition⟩ | ⟨front, back, hsource, hspelled, hposition⟩
  · refine ⟨fun _ => Excerpt.atEnd_ofSpan (hstart.trans hposition) ?_, fun hne => absurd hkind hne⟩
    rw [hwidth, hlexeme]
    rfl
  · refine ⟨fun hend => absurd hend hspelled.ne_endOfInput, fun _ => ⟨front, hposition, ?_⟩⟩
    have hpos := hspelled.length_pos
    refine Excerpt.underlines_ofSpan_of_not_blank hsource (hstart.trans hposition) hpos ?_ hspelled.not_blank
    rw [hwidth, String.length_toList]
    rw [String.length_toList] at hpos
    omega

/-- Two tokens of a text stand in it with some text between them. -/
theorem Segmented.stand {before text : List Char} {tokens ts us : List Token} {t u : Token}
    (h : Segmented before text tokens) (hts : tokens = ts ++ t :: us) (hu : u ∈ us) (ht : t.kind ≠ .endOfInput)
    (hu' : u.kind ≠ .endOfInput) :
    ∃ front gap back, text = front ++ (t.lexeme.toList ++ (gap ++ (u.lexeme.toList ++ back))) ∧
      t.kind.Spells t.lexeme.toList ∧ u.kind.Spells u.lexeme.toList ∧ t.position = .behind (before ++ front) ∧
      u.position = .behind (before ++ front ++ (t.lexeme.toList ++ gap)) := by
  induction h generalizing ts with
  | stop blank =>
    obtain ⟨rfl, heq⟩ := List.append_eq_singleton_iff.mp hts.symm |>.resolve_right (by simp)
    cases heq
    exact absurd rfl ht
  | @word before blanks lexeme rest kind tokens blank spelled maximal others ih =>
    cases ts with
    | nil =>
      obtain ⟨rfl, rfl⟩ := List.cons.inj hts
      rcases others.stands u hu with ⟨hend, -⟩ | ⟨gap, back, rfl, hspelled, hposition⟩
      · exact absurd hend hu'
      · rw [String.toList_ofList]
        refine ⟨blanks, gap, back, rfl, spelled, hspelled, rfl, ?_⟩
        rw [hposition, List.append_assoc (before ++ blanks)]
    | cons v ts =>
      obtain ⟨front, gap, back, rfl, hspelled, hspelled', hposition, hposition'⟩ := ih (List.cons.inj hts).2
      refine ⟨blanks ++ (lexeme ++ front), gap, back, by simp, hspelled, hspelled', ?_, ?_⟩
      · rw [hposition]
        simp
      · rw [hposition']
        simp

/-- The text behind `front` reaches from the first token to the sign, if they stand in one line; otherwise it is
the first character of the token. -/
def Token.Reaches (first sign : Token) (front text : List Char) : Prop :=
  if sign.position.line = first.position.line then
    ∃ gap, text = first.lexeme.toList ++ gap ++ ['='] ∧
      sign.position = .behind (front ++ (first.lexeme.toList ++ gap))
  else text = first.lexeme.toList.take 1

/-- From the first leaf of a target to the sign, or under the start of the leaf, if the sign stands in another line. -/
theorem Segmented.underlines_target {source : String} {tokens ts us : List Token} {first sign : Token}
    {s s' : Span}
    (h : Segmented [] source.toList tokens) (hts : tokens = ts ++ first :: us) (hmem : sign ∈ us)
    (hleaf : first.isLeaf = true) (hsign : sign.kind = .equal) (hs : first.span = .ok s)
    (hs' : sign.span = .ok s') :
    ∃ front text, first.position = .behind front ∧ first.Reaches sign front text ∧
      (Excerpt.ofSpan ⟨s.start, s'.stop⟩ source).Underlines source front text := by
  have hfirst : first.kind ≠ .endOfInput := by
    intro hend
    simp [Token.isLeaf, hend] at hleaf
  obtain ⟨front, gap, back, hsource, hspelled, hequal, hposition, hposition'⟩ :=
    h.stand hts hmem hfirst (by simp [hsign])
  rw [hsign] at hequal
  have hequal := hequal.eq_equal
  rw [List.nil_append] at hposition hposition'
  have hstart : s.start = .behind front := by rw [(Token.width_span hs).1, hposition]
  have hlength : sign.lexeme.length = 1 := by rw [← String.length_toList, hequal]; rfl
  have hstop : s'.stop = ⟨sign.position.line, sign.position.column + 1⟩ := by
    rw [Token.span_ok hs', hlength]; rfl
  by_cases hsame : sign.position.line = first.position.line
  · -- in one line, the sign stands as far behind the leaf as the text between them is long
    have hgap : '\n' ∉ gap := by
      intro hlf
      have hcount := List.count_pos_iff.mpr hlf
      rw [hposition, hposition'] at hsame
      simp only [Position.behind, List.count_append] at hsame
      omega
    have hlf : '\n' ∉ first.lexeme.toList ++ gap := by simp [hspelled.lineFeed_not_mem, hgap]
    refine ⟨front, first.lexeme.toList ++ gap ++ ['='], hposition, ?_, ?_⟩
    · rw [Token.Reaches, if_pos hsame]
      exact ⟨gap, rfl, hposition'⟩
    · have hsource : source.toList = front ++ ((first.lexeme.toList ++ gap ++ ['=']) ++ back) := by
        rw [hsource, hequal]
        simp
      refine Excerpt.underlines_ofSpan hsource hstart ?_ ?_ ?_ (by simp)
      · exact Nat.lt_of_lt_of_le hspelled.length_pos (by simp)
      · have hcolumn := congrArg Position.column (hposition'.trans (behind_append_of_not_mem hlf))
        have hline : s'.stop.line = s.start.line := by rw [hstop, hstart, ← hposition, ← hsame]
        rw [Diagnostic.width, if_pos hline, hstop, hstart, hcolumn]
        simp
        omega
      · simpa using hlf
  · have hblank := hspelled.not_blank
    obtain ⟨c, more, hchars, -, -⟩ := hspelled
    refine ⟨front, [c], hposition, ?_, ?_⟩
    · rw [Token.Reaches, if_neg hsame, hchars]
      rfl
    · have hsource : source.toList = front ++ ([c] ++ (more ++ (gap ++ (sign.lexeme.toList ++ back)))) := by
        rw [hsource, hchars]
        rfl
      refine Excerpt.underlines_ofSpan_of_not_blank hsource hstart (by simp) ?_ ?_
      · have hline : s'.stop.line ≠ s.start.line := by
          rw [hstop, hstart, ← hposition]
          exact hsame
        rw [Diagnostic.width, if_neg hline]
        rfl
      · simpa using hblank c (by simp [hchars])

/-- The error is about the text that the excerpt shows and underlines. -/
def Error.MarkedBy (source : String) (x : Excerpt) : Error → Prop
  | unexpectedChar c _ => ∃ front, (∀ d ∈ front, Lexer.isAllowed d = true) ∧ Lexer.isAllowed c = false ∧
      x.Underlines source front [c]
  | invalidAssignTarget _ => ∃ tokens k sign pre target tree first front text,
      tokenize source = .ok tokens ∧ tokens[k]? = some sign ∧ IsWrong tokens k ∧ sign.kind = .equal ∧
      tokens.take k = pre ++ target ∧ (∀ u ∈ pre.getLast?, u.kind.Opens) ∧
      Derives .sum target tree ∧ tree.isName = false ∧ (leaves target).head? = some first ∧
      first.position = .behind front ∧ first.Reaches sign front text ∧ x.Underlines source front text
  | e => ∃ tokens k t, tokenize source = .ok tokens ∧ tokens[k]? = some t ∧ IsWrong tokens k ∧
      e.Blames .expression (tokens.take k) t ∧ (t.kind = .endOfInput → x.AtEnd source) ∧
      (t.kind ≠ .endOfInput → ∃ front, t.position = .behind front ∧ x.Underlines source front t.lexeme.toList)

theorem Error.MarkedBy.lt {source : String} {x : Excerpt} {e : Error} (h : e.MarkedBy source x)
    (hsource : source.length < Diagnostic.runLimit) :
    x.column < Diagnostic.runLimit ∧ x.width < Diagnostic.runLimit := by
  cases e with
  | unexpectedChar c span =>
    obtain ⟨front, -, -, hunder⟩ := h
    exact hunder.lt hsource
  | invalidAssignTarget span =>
    obtain ⟨-, -, -, -, -, -, -, front, text, -, -, -, -, -, -, -, -, -, -, -, hunder⟩ := h
    exact hunder.lt hsource
  | _ =>
    obtain ⟨tokens, k, t, -, -, -, -, hend, hreal⟩ := h
    by_cases hkind : t.kind = .endOfInput
    · exact (hend hkind).lt hsource (by decide)
    · obtain ⟨front, -, hunder⟩ := hreal hkind
      exact hunder.lt hsource

/-- An error of the parser is marked. -/
theorem Error.Blames.markedBy {source : String} {tokens : List Token} {e : Error} {k : Nat} {t : Token}
    (htokens : tokenize source = .ok tokens) (hat : tokens[k]? = some t) (hwrong : IsWrong tokens k)
    (h : e.Blames .expression (tokens.take k) t) :
    ∃ span, e.span? = some span ∧ e.MarkedBy source (Excerpt.ofSpan span source) := by
  have hsegmented := tokenize_eq_ok_iff.mp htokens
  have hmem : t ∈ tokens := List.mem_of_getElem? hat
  cases e with
  | integerTooLarge lexeme span =>
    exact ⟨span, rfl, tokens, k, t, htokens, hat, hwrong, h, hsegmented.underlines hmem h.2⟩
  | unexpectedToken expected found span =>
    exact ⟨span, rfl, tokens, k, t, htokens, hat, hwrong, h, hsegmented.underlines hmem h.2⟩
  | expectedSemicolon span =>
    exact ⟨span, rfl, tokens, k, t, htokens, hat, hwrong, h, hsegmented.underlines hmem h.1⟩
  | invalidAssignTarget span =>
    obtain ⟨pre, hmis, -⟩ := h
    obtain ⟨target, tree, first, s, s', htake, hderives, hother, hfirst, hs, hs', rfl⟩ := hmis.target
    obtain ⟨ts, us, rfl⟩ := List.append_of_mem (mem_of_mem_leaves (List.mem_of_head? hfirst))
    have hleaf : first.isLeaf = true := (List.mem_filter.mp (List.mem_of_head? hfirst)).2
    -- the sign stands behind the leaf
    have hsplit : tokens = (pre ++ ts) ++ first :: (us ++ tokens.drop k) := by
      calc tokens = tokens.take k ++ tokens.drop k := (List.take_append_drop k tokens).symm
        _ = (pre ++ ts) ++ first :: (us ++ tokens.drop k) := by rw [htake]; simp
    have hbehind : t ∈ us ++ tokens.drop k := by
      refine List.mem_append_right _ (List.mem_of_getElem? (i := 0) ?_)
      rw [List.getElem?_drop]
      exact hat
    obtain ⟨front, text, hposition, hreach, hunder⟩ :=
      hsegmented.underlines_target hsplit hbehind hleaf hmis.sign hs hs'
    exact ⟨_, rfl, tokens, k, t, pre, _, tree, first, front, text, htokens, hat, hwrong, hmis.sign,
      htake, hmis.opened, hderives, hother, hfirst, hposition, hreach, hunder⟩
  | _ => exact h.elim

/-- An error is shown with its line, and the carets stand under the text of the error, except that they stand too
far to the left from line 10000 on. -/
theorem render_underlines_error {s s' : Session} {source : String} {e : Error}
    (hsource : source.length < Diagnostic.runLimit) (h : s.parse source = (.error (.error e), s')) :
    ∃ span x, e.span? = some span ∧ x = Excerpt.ofSpan span source ∧
      Diagnostic.render e source = .ok (Diagnostic.headline e ++ x.render) ∧ e.MarkedBy source x ∧
      (x.shift = 0 ↔ x.line < 10000) := by
  have hmarked : ∃ span, e.span? = some span ∧ e.MarkedBy source (Excerpt.ofSpan span source) := by
    rcases segmented_or_unexpected [] source.toList with
      ⟨tokens, htokens⟩ | ⟨front, c, rest, -, heq, hfront, hc, -⟩
    · have htokens := tokenize_eq_ok_iff.mpr htokens
      obtain ⟨k, t, hat, hblames, hwrong⟩ := Session.isWrong_parse htokens h
      exact hblames.markedBy htokens hat hwrong
    · rw [Session.parse, tokenize_eq_error heq hfront hc] at h
      cases h
      have heq : source.toList = front ++ ([c] ++ rest) := heq
      refine ⟨_, rfl, front, hfront, hc, Excerpt.underlines_ofSpan_of_not_blank heq rfl (by simp) ?_ ?_⟩
      · simp [Diagnostic.width]
      · have hblank : Lexer.isBlank c = false := by
          by_contra hblank
          rw [Lexer.isAllowed_iff.mpr (Or.inl (Bool.not_eq_false _ ▸ hblank))] at hc
          cases hc
        simpa using hblank
  obtain ⟨span, hspan, hmarked⟩ := hmarked
  obtain ⟨hcolumn, hwidth⟩ := hmarked.lt hsource
  exact ⟨span, _, hspan, rfl, Diagnostic.render_eq hspan hcolumn hwidth, hmarked, Excerpt.shift_eq_zero⟩

/-- The carets reach from the number inside the parentheses up to the sign. -/
theorem render_underlines_error_target :
    ((Session.new {}).parse "a;\r\n(2 + b) = 3").1 =
    .error (.error (.invalidAssignTarget ⟨⟨2, 1⟩, ⟨2, 9⟩⟩)) ∧
      ∃ span x, (Error.invalidAssignTarget ⟨⟨2, 1⟩, ⟨2, 9⟩⟩).span? = some span ∧
        x = Excerpt.ofSpan span "a;\r\n(2 + b) = 3" ∧
        Diagnostic.render (.invalidAssignTarget ⟨⟨2, 1⟩, ⟨2, 9⟩⟩) "a;\r\n(2 + b) = 3" =
          .ok (Diagnostic.headline (.invalidAssignTarget ⟨⟨2, 1⟩, ⟨2, 9⟩⟩) ++ x.render) ∧
        (Error.invalidAssignTarget ⟨⟨2, 1⟩, ⟨2, 9⟩⟩).MarkedBy "a;\r\n(2 + b) = 3" x ∧
        (x.shift = 0 ↔ x.line < 10000) := by
  have hparse : ((Session.new {}).parse "a;\r\n(2 + b) = 3").1 =
      .error (.error (.invalidAssignTarget ⟨⟨2, 1⟩, ⟨2, 9⟩⟩)) := by
    decide +kernel
  exact ⟨hparse, render_underlines_error (by decide) (Prod.ext hparse rfl)⟩

/-- A wrong character in line 10000. -/
def farDown : String :=
  String.ofList (List.replicate 9999 '\n' ++ ['#'])

/-- The caret stands under the blank in front of the wrong character. -/
theorem carets_miss_far_down :
    ((Session.new {}).parse farDown).1 = .error (.error (.unexpectedChar '#' ⟨⟨10000, 0⟩, ⟨10000, 1⟩⟩)) ∧
      Diagnostic.render (.unexpectedChar '#' ⟨⟨10000, 0⟩, ⟨10000, 1⟩⟩) farDown =
        .ok "Error[LEX1000]: unexpected character `#`\n --> 10000:1\n  |\n10000 | #\n     | ^\n" ∧
      (Excerpt.ofSpan ⟨⟨10000, 0⟩, ⟨10000, 1⟩⟩ farDown).underlined 0 = [' '] := by
  have htext : farDown.toList = List.replicate 9999 '\n' ++ ['#'] := String.toList_ofList
  have hposition : Position.behind (List.replicate 9999 '\n') = ⟨10000, 0⟩ := by
    rw [Position.behind, List.count_replicate_self, List.replicate_succ', lastLine_concat_lineFeed]
    rfl
  have hallowed : ∀ c ∈ List.replicate 9999 '\n', Lexer.isAllowed c = true := by
    intro c hc
    rw [(List.mem_replicate.mp hc).2]
    rfl
  have htokens := tokenize_eq_error htext hallowed (show Lexer.isAllowed '#' = false from rfl)
  have hexcerpt : Excerpt.ofSpan ⟨⟨10000, 0⟩, ⟨10000, 1⟩⟩ farDown = ⟨10000, 0, 1, ['#']⟩ := by
    have hline := lineAt_behind htext (by simp)
    rw [hposition] at hline
    rw [Excerpt.ofSpan, hline, List.replicate_succ', lastLine_concat_lineFeed]
    rfl
  refine ⟨?_, ?_, ?_⟩
  · rw [Session.parse, htokens, hposition]
    rfl
  · have hspan : (Error.unexpectedChar '#' ⟨⟨10000, 0⟩, ⟨10000, 1⟩⟩).span? =
      some ⟨⟨10000, 0⟩, ⟨10000, 1⟩⟩ := rfl
    rw [Diagnostic.render_eq hspan (by rw [hexcerpt]; decide) (by rw [hexcerpt]; decide), hexcerpt]
    decide
  · rw [hexcerpt]
    decide

end ArithJit
