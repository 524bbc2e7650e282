import ArithJit.Proofs.Tokens
import Mathlib.Data.List.DropRight

/-!
# Proofs: how a text is cut into tokens

A text is cut into tokens in one way only. Blanks are skipped, a token starts with a character of its kind,
and it goes on as long as the characters allow (`Segmented`). The position of a token is that of its first
character: lines and columns are counted over the whole text in front of it (`Position.behind`), while the
cursor counts them on its way. There are no tokens if and only if the text has a character that is not
allowed, and then the first such character is reported.
-/

namespace ArithJit

/-! ## Positions in a text -/

/-- The characters of a text behind its last line feed. -/
def lastLine (text : List Char) : List Char :=
  text.rtakeWhile (· ≠ '\n')

/-- The position behind a text: its line feeds are counted from one, and the characters behind the last one
from zero. -/
def Position.behind (text : List Char) : Position :=
  ⟨text.count '\n' + 1, (lastLine text).length⟩

theorem lastLine_concat_of_ne (text : List Char) {c : Char} (h : c ≠ '\n') :
    lastLine (text ++ [c]) = lastLine text ++ [c] :=
  List.rtakeWhile_concat_pos _ text c (by simpa using h)

theorem lastLine_concat_lineFeed (text : List Char) : lastLine (text ++ ['\n']) = [] :=
  List.rtakeWhile_concat_neg _ text '\n' (by simp)

theorem behind_concat (text : List Char) (c : Char) :
    Position.behind (text ++ [c]) = Cursor.after (.behind text) c := by
  unfold Position.behind Cursor.after
  rw [List.count_append, List.count_singleton]
  by_cases hc : c = '\n'
  · subst hc
    simp [lastLine_concat_lineFeed]
  · simp [lastLine_concat_of_ne text hc, hc]

/-- Going over the characters of a text leads to the position behind it. -/
theorem behind_append (text more : List Char) :
    Position.behind (text ++ more) = more.foldl Cursor.after (.behind text) := by
  induction more generalizing text with
  | nil => rw [List.append_nil, List.foldl_nil]
  | cons c more ih =>
    have hone : text ++ c :: more = text ++ [c] ++ more := by simp
    rw [hone, ih, behind_concat, List.foldl_cons]

/-! ## The characters of tokens -/

namespace Token.Kind

/-- Whether a token of the kind starts with the character. -/
def startedBy : Token.Kind → Char → Bool
  | identifier, c => c.isAlpha || c = '_' || c = '$'
  | integer, c => c.isDigit
  | equal, c => c = '='
  | plus, c => c = '+'
  | minus, c => c = '-'
  | star, c => c = '*'
  | slash, c => c = '/'
  | leftParen, c => c = '('
  | rightParen, c => c = ')'
  | semicolon, c => c = ';'
  | endOfInput, _ => false

/-- Whether a token of the kind goes on with the character. -/
def continuedBy : Token.Kind → Char → Bool
  | identifier, c => c.isAlphanum || c = '_' || c = '$'
  | integer, c => c.isDigit || c = '_'
  | _, _ => false

/-- The characters are the text of a token of the kind. -/
def Spells (kind : Token.Kind) (text : List Char) : Prop :=
  ∃ first more, text = first :: more ∧ kind.startedBy first = true ∧ ∀ c ∈ more, kind.continuedBy c = true

end Token.Kind

namespace Lexer

variable {c : Char} {kind : Token.Kind}

/-- Whether a text that has tokens may contain the character. -/
def isAllowed (c : Char) : Bool :=
  c.isAlphanum || c ∈ [' ', '\t', '\r', '\n', '_', '$', '=', '+', '-', '*', '/', '(', ')', ';']

theorem isBlank_cases (h : isBlank c = true) : c = ' ' ∨ c = '\t' ∨ c = '\r' ∨ c = '\n' := by
  simpa [isBlank, or_assoc] using h

theorem classify?_blank (h : isBlank c = true) : classify? c = none ∧ continuesName c = false := by
  rcases isBlank_cases h with rfl | rfl | rfl | rfl <;> exact ⟨rfl, rfl⟩

theorem isDigit_of_startsName (h : startsName c = true) : isDigit c = false := by
  by_contra hdigit
  have hdigit : 48 ≤ c.toNat ∧ c.toNat ≤ 57 := by
    simpa [isDigit, Char.le_def, UInt32.le_iff_toNat_le] using hdigit
  rw [startsName, isLetter] at h
  simp only [Bool.or_eq_true, Bool.and_eq_true, decide_eq_true_eq, Char.le_def, UInt32.le_iff_toNat_le] at h
  rcases h with ((⟨hlow, -⟩ | ⟨hlow, -⟩) | rfl) | rfl
  · have hlow : 97 ≤ c.toNat := hlow
    omega
  · have hlow : 65 ≤ c.toNat := hlow
    omega
  · simp at hdigit
  · simp at hdigit

theorem isLetter_eq (c : Char) : isLetter c = c.isAlpha := by
  have hlower : (decide ('a' ≤ c) && decide (c ≤ 'z')) = c.isLower := rfl
  have hupper : (decide ('A' ≤ c) && decide (c ≤ 'Z')) = c.isUpper := (Bool.decide_and _ _).symm
  rw [isLetter, hlower, hupper]
  exact Bool.or_comm _ _

theorem startsName_eq (c : Char) : startsName c = Token.Kind.startedBy .identifier c := by
  rw [startsName, isLetter_eq]
  rfl

theorem continuesName_eq : continuesName = Token.Kind.continuedBy .identifier := by
  funext c
  rw [continuesName, startsName, isLetter_eq, Token.Kind.continuedBy, Char.isAlphanum]
  show (c.isAlpha || _ || _ || c.isDigit) = _
  cases c.isAlpha <;> cases c.isDigit <;> simp

theorem punctuation?_eq_some : punctuation? c = some kind ↔
    kind.startedBy c = true ∧ kind ≠ .integer ∧ kind ≠ .identifier := by
  constructor
  · intro h
    unfold punctuation? at h
    split at h <;> simp_all <;> subst h <;> simp [Token.Kind.startedBy]
  · rintro ⟨h, hi, hn⟩
    cases kind <;> simp_all [Token.Kind.startedBy, punctuation?]

/-- A punctuation character starts neither a number nor a name. -/
theorem isDigit_of_punctuation? (h : punctuation? c = some kind) :
    isDigit c = false ∧ startsName c = false := by
  unfold punctuation? at h
  split at h
  all_goals first | exact ⟨rfl, rfl⟩ | cases h

/-- The first character of a token tells its kind. -/
theorem classify?_eq_of_startedBy (h : kind.startedBy c = true) :
    classify? c = some (kind, kind.continuedBy) := by
  unfold classify?
  by_cases hi : kind = .integer
  · subst hi
    have hdigit : isDigit c = true := h
    rw [if_pos hdigit]
    rfl
  · by_cases hn : kind = .identifier
    · subst hn
      have hname : startsName c = true := by rw [startsName_eq]; exact h
      rw [isDigit_of_startsName hname, if_neg Bool.false_ne_true, if_pos hname, continuesName_eq]
    · have hk := punctuation?_eq_some.mpr ⟨h, hi, hn⟩
      obtain ⟨hdigit, hname⟩ := isDigit_of_punctuation? hk
      have hnone : kind.continuedBy = fun _ => false := by
        funext d
        cases kind <;> first | rfl | contradiction
      rw [hdigit, hname, hk, hnone]
      rfl

theorem exists_startedBy {continues : Char → Bool} (h : classify? c = some (kind, continues)) :
    kind.startedBy c = true := by
  unfold classify? at h
  split at h
  · next hdigit =>
    cases h
    exact hdigit
  · split at h
    · next hname =>
      cases h
      rw [← startsName_eq]
      exact hname
    · obtain ⟨k, hk, hpair⟩ := Option.map_eq_some_iff.mp h
      cases hpair
      exact (punctuation?_eq_some.mp hk).1

theorem isAllowed_of_isAlphanum (h : c.isAlphanum = true) : isAllowed c = true := by
  rw [isAllowed, h, Bool.true_or]

theorem isAllowed_of_startedBy (h : kind.startedBy c = true) : isAllowed c = true := by
  cases kind with
  | identifier =>
    simp only [Token.Kind.startedBy, Bool.or_eq_true, decide_eq_true_eq] at h
    rcases h with (halpha | rfl) | rfl
    · exact isAllowed_of_isAlphanum (by rw [Char.isAlphanum, halpha, Bool.true_or])
    · rfl
    · rfl
  | integer =>
    have hdigit : c.isDigit = true := h
    exact isAllowed_of_isAlphanum (by rw [Char.isAlphanum, hdigit, Bool.or_true])
  | endOfInput => cases h
  | _ =>
    simp only [Token.Kind.startedBy, decide_eq_true_eq] at h
    subst h
    rfl

theorem isAllowed_of_continuedBy (h : kind.continuedBy c = true) : isAllowed c = true := by
  cases kind with
  | identifier =>
    simp only [Token.Kind.continuedBy, Bool.or_eq_true, decide_eq_true_eq] at h
    rcases h with (hword | rfl) | rfl
    · exact isAllowed_of_isAlphanum hword
    · rfl
    · rfl
  | integer =>
    simp only [Token.Kind.continuedBy, Bool.or_eq_true, decide_eq_true_eq] at h
    rcases h with hdigit | rfl
    · exact isAllowed_of_isAlphanum (by rw [Char.isAlphanum, hdigit, Bool.or_true])
    · rfl
  | _ => cases h

/-- The characters that are allowed are the blanks and those that start tokens. -/
theorem isAllowed_iff :
    isAllowed c = true ↔ isBlank c = true ∨ ∃ kind : Token.Kind, kind.startedBy c = true := by
  constructor
  · intro h
    simp only [isAllowed, Char.isAlphanum, Bool.or_eq_true, decide_eq_true_eq] at h
    rcases h with (halpha | hdigit) | hmem
    · exact Or.inr ⟨.identifier, by simp [Token.Kind.startedBy, halpha]⟩
    · exact Or.inr ⟨.integer, hdigit⟩
    · simp only [List.mem_cons, List.not_mem_nil, or_false] at hmem
      rcases hmem with rfl | rfl | rfl | rfl | rfl | rfl | rfl | rfl | rfl | rfl | rfl | rfl | rfl | rfl
      all_goals first | exact Or.inl rfl | exact Or.inr ⟨_, exists_startedBy rfl⟩
  · rintro (h | ⟨kind, h⟩)
    · rcases isBlank_cases h with rfl | rfl | rfl | rfl <;> rfl
    · exact isAllowed_of_startedBy h

end Lexer

theorem Token.Kind.Spells.ne_endOfInput {kind : Token.Kind} {text : List Char} (h : kind.Spells text) :
    kind ≠ .endOfInput := by
  obtain ⟨first, more, -, hfirst, -⟩ := h
  rintro rfl
  cases hfirst

theorem Token.Kind.Spells.isAllowed {kind : Token.Kind} {text : List Char} (h : kind.Spells text) :
    ∀ c ∈ text, Lexer.isAllowed c = true := by
  obtain ⟨first, more, rfl, hfirst, hmore⟩ := h
  intro c hc
  rcases List.mem_cons.mp hc with rfl | hc
  · exact Lexer.isAllowed_of_startedBy hfirst
  · exact Lexer.isAllowed_of_continuedBy (hmore c hc)

/-! ## Reading a token -/

namespace Cursor

variable {blanks rest : List Char} {kind : Token.Kind} {c : Char}

/-- The cursor between two parts of a text. -/
def between (before rest : List Char) : Cursor :=
  ⟨rest, .behind before⟩

theorem takeWhile_head {cs : List Char} {p : Char → Bool} (h : ∀ d, cs.head? = some d → p d = false) :
    cs.takeWhile p = [] ∧ cs.dropWhile p = cs := by
  cases cs with
  | nil => exact ⟨rfl, rfl⟩
  | cons d cs =>
    have hd := h d rfl
    simp [hd]

/-- A run of characters is passed as a whole, if what follows does not belong to it. -/
theorem dropWhile_between (before : List Char) {p : Char → Bool} {run : List Char}
    (hrun : ∀ c ∈ run, p c = true) (hstop : ∀ c, rest.head? = some c → p c = false) :
    (between before (run ++ rest)).dropWhile p = between (before ++ run) rest := by
  obtain ⟨htake, hdrop⟩ := takeWhile_head hstop
  unfold Cursor.dropWhile between
  simp only [List.takeWhile_append_of_pos hrun, List.dropWhile_append_of_pos hrun, htake, hdrop,
    List.append_nil, behind_append]

theorem isBlank_of_startedBy (h : kind.startedBy c = true) : Lexer.isBlank c = false := by
  by_contra hblank
  have hnone := (Lexer.classify?_blank (Bool.not_eq_false _ ▸ hblank)).1
  rw [Lexer.classify?_eq_of_startedBy h] at hnone
  cases hnone

theorem next_end (before : List Char) (hb : ∀ c ∈ blanks, Lexer.isBlank c = true) :
    (between before blanks).next =
      (.ok ⟨.endOfInput, "", .behind (before ++ blanks)⟩, between (before ++ blanks) []) := by
  have hstart : (between before (blanks ++ [])).dropWhile Lexer.isBlank = between (before ++ blanks) [] :=
    dropWhile_between before hb (by simp)
  rw [List.append_nil] at hstart
  simp only [Cursor.next, hstart]
  rfl

theorem next_unexpected (before : List Char) (hb : ∀ c ∈ blanks, Lexer.isBlank c = true)
    (hc : Lexer.isAllowed c = false) :
    (between before (blanks ++ c :: rest)).next =
      (.error (unexpected (.behind (before ++ blanks)) c), between (before ++ blanks) (c :: rest)) := by
  have hnot : ¬ (Lexer.isBlank c = true ∨ ∃ kind : Token.Kind, kind.startedBy c = true) := by
    rw [← Lexer.isAllowed_iff, hc]
    exact Bool.false_ne_true
  have hblank : Lexer.isBlank c = false := by simpa using fun h => hnot (Or.inl h)
  have hnone : Lexer.classify? c = none := by
    cases hclass : Lexer.classify? c with
    | none => rfl
    | some k => exact absurd (Or.inr ⟨k.1, Lexer.exists_startedBy hclass⟩) hnot
  have hstart : (between before (blanks ++ c :: rest)).dropWhile Lexer.isBlank =
      between (before ++ blanks) (c :: rest) :=
    dropWhile_between before hb (by simpa using hblank)
  simp only [Cursor.next, hstart]
  simp only [between, hnone]

/-- A token is taken as a whole, if what follows does not continue it. -/
theorem next_word (before : List Char) {lexeme : List Char} (hb : ∀ c ∈ blanks, Lexer.isBlank c = true)
    (hl : kind.Spells lexeme) (hs : ∀ c, rest.head? = some c → kind.continuedBy c = false) :
    (between before (blanks ++ (lexeme ++ rest))).next =
      (.ok ⟨kind, String.ofList lexeme, .behind (before ++ blanks)⟩,
        between (before ++ blanks ++ lexeme) rest) := by
  obtain ⟨first, more, rfl, hfirst, hmore⟩ := hl
  have hstart : (between before (blanks ++ first :: (more ++ rest))).dropWhile Lexer.isBlank =
      between (before ++ blanks) (first :: (more ++ rest)) :=
    dropWhile_between before hb (by simpa using isBlank_of_startedBy hfirst)
  have hbehind : Cursor.mk (more ++ rest) (after (.behind (before ++ blanks)) first) =
      between (before ++ blanks ++ [first]) (more ++ rest) := by
    rw [between, behind_concat]
  have hpassed := dropWhile_between (before ++ blanks ++ [first]) hmore hs
  have htaken : (more ++ rest).takeWhile kind.continuedBy = more := by
    rw [List.takeWhile_append_of_pos hmore, (takeWhile_head hs).1, List.append_nil]
  rw [List.cons_append]
  simp only [Cursor.next, hstart]
  simp only [between, Lexer.classify?_eq_of_startedBy hfirst, htaken]
  rw [hbehind, hpassed]
  simp [between]

theorem tokens_cons {c stop stop' : Cursor} {t : Token} {ts : List Token} (h : c.next = (.ok t, stop))
    (ht : t.kind ≠ .endOfInput) (hts : stop.tokens = (.ok ts, stop')) : c.tokens = (.ok (t :: ts), stop') := by
  rw [Cursor.tokens]
  split
  · next heq =>
    rw [h] at heq
    cases heq
  · next heq =>
    rw [h] at heq
    cases heq
    rw [dif_neg ht, hts]

theorem tokens_end {c stop : Cursor} {t : Token} (h : c.next = (.ok t, stop)) (ht : t.kind = .endOfInput) :
    c.tokens = (.ok [t], stop) := by
  rw [Cursor.tokens]
  split
  · next heq =>
    rw [h] at heq
    cases heq
  · next heq =>
    rw [h] at heq
    cases heq
    rw [dif_pos ht]

theorem tokens_error {c stop : Cursor} {e : Error} (h : c.next = (.error e, stop)) :
    c.tokens = (.error e, stop) := by
  rw [Cursor.tokens]
  split
  · next heq =>
    rw [h] at heq
    cases heq
    rfl
  · next heq =>
    rw [h] at heq
    cases heq

theorem tokens_cons_error {c stop stop' : Cursor} {t : Token} {e : Error} (h : c.next = (.ok t, stop))
    (ht : t.kind ≠ .endOfInput) (he : stop.tokens = (.error e, stop')) : c.tokens = (.error e, stop') := by
  rw [Cursor.tokens]
  split
  · next heq =>
    rw [h] at heq
    cases heq
  · next heq =>
    rw [h] at heq
    cases heq
    rw [dif_neg ht, he]

end Cursor

/-! ## The tokens of a text -/

/-- Behind `before`, the text is cut into the tokens. Blanks are skipped, a token is as long as its kind
allows, and the end of the input stands behind all. -/
inductive Segmented : List Char → List Char → List Token → Prop where
  | stop {before blanks : List Char} (blank : ∀ c ∈ blanks, Lexer.isBlank c = true) :
      Segmented before blanks [⟨.endOfInput, "", .behind (before ++ blanks)⟩]
  | word {before blanks lexeme rest : List Char} {kind : Token.Kind} {ts : List Token}
      (blank : ∀ c ∈ blanks, Lexer.isBlank c = true) (spelled : kind.Spells lexeme)
      (maximal : ∀ c, rest.head? = some c → kind.continuedBy c = false)
      (others : Segmented (before ++ blanks ++ lexeme) rest ts) :
      Segmented before (blanks ++ (lexeme ++ rest))
        (⟨kind, String.ofList lexeme, .behind (before ++ blanks)⟩ :: ts)

theorem Segmented.tokens {before text : List Char} {ts : List Token} (h : Segmented before text ts) :
    ∃ stop, (Cursor.between before text).tokens = (.ok ts, stop) := by
  induction h with
  | stop blank => exact ⟨_, Cursor.tokens_end (Cursor.next_end _ blank) rfl⟩
  | word blank spelled maximal others ih =>
    obtain ⟨stop, hstop⟩ := ih
    exact ⟨stop, Cursor.tokens_cons (Cursor.next_word _ blank spelled maximal) spelled.ne_endOfInput hstop⟩

theorem Segmented.isAllowed {before text : List Char} {ts : List Token} (h : Segmented before text ts) :
    ∀ c ∈ text, Lexer.isAllowed c = true := by
  induction h with
  | stop blank => exact fun c hc => Lexer.isAllowed_iff.mpr (Or.inl (blank c hc))
  | word blank spelled maximal others ih =>
    intro c hc
    rcases List.mem_append.mp hc with hc | hc
    · exact Lexer.isAllowed_iff.mpr (Or.inl (blank c hc))
    · rcases List.mem_append.mp hc with hc | hc
      · exact spelled.isAllowed c hc
      · exact ih c hc

/-- A text is cut into a first run of the characters with a property and the rest. -/
theorem exists_run (p : Char → Bool) (text : List Char) : ∃ run rest, text = run ++ rest ∧
    (∀ c ∈ run, p c = true) ∧ ∀ c, rest.head? = some c → p c = false := by
  refine ⟨text.takeWhile p, text.dropWhile p, List.takeWhile_append_dropWhile.symm, ?_, ?_⟩
  · exact List.all_eq_true.mp List.all_takeWhile
  · intro c hc
    simpa [hc] using List.head?_dropWhile_not p text

/-- A text is cut into tokens, or its first character that is not allowed stops the lexer. -/
theorem segmented_or_unexpected (before text : List Char) :
    (∃ ts, Segmented before text ts) ∨ ∃ front c rest stop, text = front ++ c :: rest ∧
      (∀ d ∈ front, Lexer.isAllowed d = true) ∧ Lexer.isAllowed c = false ∧
      (Cursor.between before text).tokens =
      (.error (Cursor.unexpected (.behind (before ++ front)) c), stop) := by
  obtain ⟨n, hn⟩ : ∃ n, text.length = n := ⟨_, rfl⟩
  induction n using Nat.strong_induction_on generalizing before text with
  | _ n ih =>
    obtain ⟨blanks, rest, rfl, hblank, hrest⟩ := exists_run Lexer.isBlank text
    have hskipped : ∀ c ∈ blanks, Lexer.isAllowed c = true :=
      fun c hc => Lexer.isAllowed_iff.mpr (Or.inl (hblank c hc))
    cases rest with
    | nil =>
      rw [List.append_nil]
      exact Or.inl ⟨_, .stop hblank⟩
    | cons c rest =>
      by_cases hc : Lexer.isAllowed c = true
      · -- a token starts here, and the rest of the text is shorter
        obtain ⟨kind, hkind⟩ := (Lexer.isAllowed_iff.mp hc).resolve_left (by simp [hrest c rfl])
        obtain ⟨more, rest, rfl, hmore, hmaximal⟩ := exists_run kind.continuedBy rest
        have hspelled : kind.Spells (c :: more) := ⟨c, more, rfl, hkind, hmore⟩
        have hlength : rest.length < n := by
          subst hn
          simp only [List.length_append, List.length_cons]
          omega
        rcases ih _ hlength (before ++ blanks ++ c :: more) rest rfl with
          ⟨ts, hts⟩ | ⟨front, d, back, stop, rfl, hfront, hd, hstop⟩
        · exact Or.inl ⟨_, .word hblank hspelled hmaximal hts⟩
        · refine Or.inr ⟨blanks ++ (c :: more) ++ front, d, back, stop, by simp, ?_, hd, ?_⟩
          · intro a ha
            rcases List.mem_append.mp ha with ha | ha
            · exact (List.mem_append.mp ha).elim (hskipped a) (hspelled.isAllowed a)
            · exact hfront a ha
          · have hnext := Cursor.next_word before hblank hspelled hmaximal
            rw [← List.cons_append, Cursor.tokens_cons_error hnext hspelled.ne_endOfInput hstop]
            simp
      · have hc : Lexer.isAllowed c = false := Bool.eq_false_iff.mpr hc
        exact Or.inr ⟨blanks, c, rest, _, rfl, hskipped, hc,
          Cursor.tokens_error (Cursor.next_unexpected before hblank hc)⟩

/-- A text has one first character that is not allowed. -/
theorem first_not_allowed_unique {front front' rest rest' : List Char} {c c' : Char}
    (h : front ++ c :: rest = front' ++ c' :: rest')
    (hfront : ∀ d ∈ front, Lexer.isAllowed d = true) (hc : Lexer.isAllowed c = false)
    (hfront' : ∀ d ∈ front', Lexer.isAllowed d = true) (hc' : Lexer.isAllowed c' = false) :
    front = front' ∧ c = c' := by
  have htake : ∀ (front rest : List Char) (c : Char), (∀ d ∈ front, Lexer.isAllowed d = true) →
      Lexer.isAllowed c = false → (front ++ c :: rest).takeWhile Lexer.isAllowed = front := by
    intro front rest c hfront hc
    rw [List.takeWhile_append_of_pos hfront, (Cursor.takeWhile_head (by simpa using hc)).1, List.append_nil]
  have heq : front = front' := by
    rw [← htake front rest c hfront hc, h, htake front' rest' c' hfront' hc']
  subst heq
  simp only [List.append_cancel_left_eq, List.cons.injEq] at h
  exact ⟨rfl, h.1⟩

theorem tokenize_eq (source : String) : tokenize source = (Cursor.between [] source.toList).tokens.1 := rfl

theorem tokenize_eq_ok_iff {source : String} {ts : List Token} :
    tokenize source = .ok ts ↔ Segmented [] source.toList ts := by
  have hrun : ∀ ts, Segmented [] source.toList ts → tokenize source = .ok ts := by
    intro ts hts
    obtain ⟨stop, hstop⟩ := hts.tokens
    rw [tokenize_eq, hstop]
  constructor
  · intro h
    -- the text is cut in some way, and the lexer finds it
    rcases segmented_or_unexpected [] source.toList with ⟨ts', hts⟩ | ⟨front, c, rest, stop, -, -, -, hstop⟩
    · rw [hrun ts' hts] at h
      cases h
      exact hts
    · rw [tokenize_eq, hstop] at h
      cases h
  · exact hrun ts

theorem tokenize_eq_error {source : String} {front rest : List Char} {c : Char}
    (h : source.toList = front ++ c :: rest)
    (hfront : ∀ d ∈ front, Lexer.isAllowed d = true) (hc : Lexer.isAllowed c = false) :
    tokenize source = .error (Cursor.unexpected (.behind front) c) := by
  rcases segmented_or_unexpected [] source.toList with
    ⟨ts, hts⟩ | ⟨front', c', rest', stop, heq, hfront', hc', hstop⟩
  · have hallowed := hts.isAllowed c (by simp [h])
    rw [hc] at hallowed
    cases hallowed
  · obtain ⟨rfl, rfl⟩ := first_not_allowed_unique (h ▸ heq) hfront hc hfront' hc'
    rw [tokenize_eq, hstop, List.nil_append]

theorem exists_tokenize_iff {source : String} :
    (∃ ts, tokenize source = .ok ts) ↔ ∀ c ∈ source.toList, Lexer.isAllowed c = true := by
  constructor
  · rintro ⟨ts, hts⟩
    exact (tokenize_eq_ok_iff.mp hts).isAllowed
  · intro h
    rcases segmented_or_unexpected [] source.toList with ⟨ts, hts⟩ | ⟨front, c, rest, stop, heq, -, hc, -⟩
    · exact ⟨ts, tokenize_eq_ok_iff.mpr hts⟩
    · have hallowed := h c (by simp [heq])
      rw [hc] at hallowed
      cases hallowed

/-- The tokens of a source are its segmentation. There are none if and only if a character is not allowed, and
then the first such character is reported at its line and column. -/
theorem tokenize_segments_text (source : String) :
    (∀ ts, tokenize source = .ok ts ↔ Segmented [] source.toList ts) ∧
      ((∃ ts, tokenize source = .ok ts) ↔ ∀ c ∈ source.toList, Lexer.isAllowed c = true) ∧
      ∀ front c rest, source.toList = front ++ c :: rest → (∀ d ∈ front, Lexer.isAllowed d = true) →
        Lexer.isAllowed c = false →
        tokenize source = .error (.unexpectedChar c
          ⟨.behind front, ⟨(Position.behind front).line, (Position.behind front).column + 1⟩⟩) :=
  ⟨fun _ => tokenize_eq_ok_iff, exists_tokenize_iff, fun _ _ _ => tokenize_eq_error⟩

/-- A number ends where a name starts, a carriage return takes no line, and a character of several bytes takes
one column. -/
theorem tokenize_segments_lines :
    tokenize "1_0a\r\n$" =
      .ok [⟨.integer, "1_0", ⟨1, 0⟩⟩, ⟨.identifier, "a", ⟨1, 3⟩⟩, ⟨.identifier, "$", ⟨2, 0⟩⟩,
        ⟨.endOfInput, "", ⟨2, 1⟩⟩] ∧
      tokenize "a\n\tb√é" = .error (.unexpectedChar '√' ⟨⟨2, 2⟩, ⟨2, 3⟩⟩) := by
  constructor
  · refine ((tokenize_segments_text _).1 _).mpr ?_
    have hend : Segmented ['1', '_', '0', 'a', '\r', '\n', '$'] [] [⟨.endOfInput, "", ⟨2, 1⟩⟩] :=
      .stop (by simp)
    have hdollar : Segmented ['1', '_', '0', 'a'] (['\r', '\n'] ++ (['$'] ++ []))
        (⟨.identifier, "$", ⟨2, 0⟩⟩ :: _) :=
      .word (by simp [Lexer.isBlank]) ⟨_, _, rfl, rfl, by simp⟩ (by simp) hend
    have hname : Segmented ['1', '_', '0'] ([] ++ (['a'] ++ ['\r', '\n', '$']))
        (⟨.identifier, "a", ⟨1, 3⟩⟩ :: _) :=
      .word (by simp) ⟨_, _, rfl, rfl, by simp⟩ (by simp [Token.Kind.continuedBy]) hdollar
    have hnumber : Segmented [] ([] ++ (['1', '_', '0'] ++ ['a', '\r', '\n', '$']))
        (⟨.integer, "1_0", ⟨1, 0⟩⟩ :: _) :=
      .word (by simp) ⟨_, _, rfl, rfl, by simp [Token.Kind.continuedBy]⟩
      (by simp [Token.Kind.continuedBy]) hname
    exact hnumber
  · exact (tokenize_segments_text _).2.2 ['a', '\n', '\t', 'b'] '√' ['é'] rfl (List.all_eq_true.mp (by decide))
      (by decide)

end ArithJit
