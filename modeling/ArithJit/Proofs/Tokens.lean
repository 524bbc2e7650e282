import ArithJit.Proofs.Association
import ArithJit.Syntax.Lexer
import Mathlib.Tactic.Common

/-!
# Proofs: the tokens of a text

The tokens of a text end with the end of the input, which occurs nowhere else, and there is at most one
token more than there are characters. Each token lies within the text, and the characters of an integer
token are digits and underscores.
-/

namespace ArithJit

/-- Tokens that end with the end of the input, which occurs nowhere else. -/
inductive Ended : List Token → Prop where
  | stop {t : Token} (kind : t.kind = .endOfInput) : Ended [t]
  | more {t : Token} {ts : List Token} (kind : t.kind ≠ .endOfInput) (rest : Ended ts) : Ended (t :: ts)

theorem Ended.exists_cons {ts : List Token} (h : Ended ts) : ∃ t rest, ts = t :: rest := by
  cases h with
  | stop => exact ⟨_, _, rfl⟩
  | more => exact ⟨_, _, rfl⟩

/-- Only the last token is the end of the input. -/
theorem Ended.kind_ne {ts : List Token} {stop : Token} (h : Ended (ts ++ [stop])) :
    ∀ t ∈ ts, t.kind ≠ .endOfInput := by
  induction ts with
  | nil => simp
  | cons t ts ih =>
    rw [List.cons_append] at h
    generalize hrest : ts ++ [stop] = rest at h
    cases h with
    | stop kind => simp at hrest
    | more kind others => simpa using ⟨kind, ih (hrest ▸ others)⟩

/-- The end of the input occurs only once, so it is where the body ends. -/
theorem eq_of_ends {body ts us : List Token} {stop t : Token} (hbody : ∀ t ∈ body, t.kind ≠ .endOfInput)
    (ht : t.kind = .endOfInput) (h : body ++ [stop] = ts ++ t :: us) : body = ts ∧ stop = t := by
  rcases append_singleton_eq h with ⟨rfl, rfl, -⟩ | ⟨rest, -, rfl⟩
  · exact ⟨rfl, rfl⟩
  · exact absurd ht (hbody t (by simp))

/-- A token whose columns do not exceed a length, and that is a number if it is of that kind. -/
structure Token.Within (length : Nat) (t : Token) : Prop where
  column : t.position.column + t.lexeme.length ≤ length
  number : t.kind = .integer → ∀ c ∈ t.lexeme.toList, Lexer.continuesNumber c = true

/-- The span of a token exists, unless the text is longer than there are columns. -/
theorem Token.Within.span {n : Nat} {t : Token} (h : t.Within n) :
    (∃ span, t.span = .ok span) ∨ (wordCount ≤ n + 1 ∧ ∃ f, t.span = .error f) := by
  have hcolumn := h.column
  rw [Token.span, Span.singleLine?]
  by_cases hfits : t.position.column + max t.lexeme.length 1 < wordCount
  · rw [if_pos hfits]
    exact Or.inl ⟨_, rfl⟩
  · rw [if_neg hfits]
    exact Or.inr ⟨by omega, _, rfl⟩

theorem Lexer.punctuation?_ne {c : Char} {kind : Token.Kind} (h : punctuation? c = some kind) :
    kind ≠ .integer ∧ kind ≠ .endOfInput := by
  unfold punctuation? at h
  split at h <;> simp_all <;> subst h <;> simp

/-- What starts like a number goes on like one, and no character starts the end of the input. -/
theorem Lexer.classify?_eq_some {c : Char} {kind : Token.Kind} {continues : Char → Bool}
    (h : classify? c = some (kind, continues)) : kind ≠ .endOfInput ∧
      (kind = .integer → continuesNumber c = true ∧ continues = continuesNumber) := by
  rw [classify?] at h
  split at h
  · next hdigit =>
    obtain ⟨rfl, rfl⟩ : Token.Kind.integer = kind ∧ continuesNumber = continues := by simpa using h
    exact ⟨by simp, fun _ => ⟨by simp [continuesNumber, hdigit], rfl⟩⟩
  · split at h
    · obtain ⟨rfl, -⟩ : Token.Kind.identifier = kind ∧ continuesName = continues := by simpa using h
      exact ⟨by simp, by simp⟩
    · obtain ⟨k, hk, hpair⟩ := Option.map_eq_some_iff.mp h
      obtain rfl : k = kind := (Prod.mk.inj hpair).1
      have hne := punctuation?_ne hk
      exact ⟨hne.2, fun hint => absurd hint hne.1⟩

namespace Cursor

variable {c stop : Cursor} {t : Token} {n : Nat}

theorem column_foldl_after_le (cs : List Char) (p : Position) :
    (cs.foldl after p).column ≤ p.column + cs.length := by
  induction cs generalizing p with
  | nil => exact Nat.le_refl _
  | cons ch cs ih =>
    have hstep : (after p ch).column ≤ p.column + 1 := by
      rw [after]
      split
      · exact Nat.zero_le _
      · exact Nat.le_refl _
    have hrest := ih (after p ch)
    rw [List.foldl_cons, List.length_cons]
    omega

/-- The characters that are left fit in the columns that are left. -/
def Fits (c : Cursor) (n : Nat) : Prop :=
  c.position.column + c.rest.length ≤ n

theorem Fits.dropWhile (h : c.Fits n) (p : Char → Bool) :
    (c.dropWhile p).Fits n ∧ c.position.column + (c.rest.takeWhile p).length ≤ n := by
  have hlen : (c.rest.takeWhile p).length + (c.rest.dropWhile p).length = c.rest.length := by
    rw [← List.length_append, List.takeWhile_append_dropWhile]
  have hcolumn := column_foldl_after_le (c.rest.takeWhile p) c.position
  rw [Fits] at h
  refine ⟨?_, by omega⟩
  rw [Fits, Cursor.dropWhile]
  simp only
  omega

/-- What reading a token gives. -/
def Reads (n : Nat) : Except Error Token × Cursor → Prop
  | (.error e, _) => e.stage = .lexing
  | (.ok t, stop) => t.Within n ∧ stop.Fits n

theorem Fits.next (h : c.Fits n) : Reads n c.next := by
  have hstart := (h.dropWhile Lexer.isBlank).1
  set start := c.dropWhile Lexer.isBlank with hset
  cases hrest : start.rest with
  | nil =>
    simp only [Cursor.next, ← hset, hrest]
    refine ⟨⟨?_, ?_⟩, hstart⟩
    · rw [Fits, hrest] at hstart
      exact hstart
    · intro hkind
      cases hkind
  | cons first rest =>
    cases hclass : Lexer.classify? first with
    | none =>
      simp only [Cursor.next, ← hset, hrest, hclass]
      rfl
    | some k =>
      obtain ⟨kind, continues⟩ := k
      obtain ⟨-, hnumber⟩ := Lexer.classify?_eq_some hclass
      rw [Fits, hrest, List.length_cons] at hstart
      have hafter : (Cursor.mk rest (after start.position first)).Fits n := by
        have hcolumn := column_foldl_after_le [first] start.position
        rw [Fits]
        exact Nat.le_trans (Nat.add_le_add_right hcolumn _) (by simp; omega)
      have hlexeme : (rest.takeWhile continues).length ≤ rest.length :=
        (List.takeWhile_sublist continues).length_le
      simp only [Cursor.next, ← hset, hrest, hclass]
      refine ⟨⟨?_, ?_⟩, (hafter.dropWhile continues).1⟩
      · simp only [String.length_ofList, List.length_cons]
        omega
      · -- a number starts with a digit and goes on with characters of numbers
        intro hkind ch hch
        obtain ⟨hfirst, rfl⟩ := hnumber hkind
        rw [String.toList_ofList, List.mem_cons] at hch
        rcases hch with rfl | hch
        · exact hfirst
        · exact List.all_eq_true.mp List.all_takeWhile ch hch

/-- What the tokens of a text are, or why there are none. -/
def Tokenized (n length : Nat) : Except Error (List Token) → Prop
  | .error e => e.stage = .lexing
  | .ok ts => Ended ts ∧ (∀ t ∈ ts, t.Within n) ∧ ts.length ≤ length + 1

theorem Fits.tokens (h : c.Fits n) : Tokenized n c.rest.length c.tokens.1 := by
  fun_induction Cursor.tokens c with
  | case1 c e stop hnext =>
    have he := h.next
    rw [hnext] at he
    exact he
  | case2 c t stop hnext hend =>
    have ht := h.next
    rw [hnext] at ht
    exact ⟨.stop hend, by simpa using ht.1, by simp⟩
  | case3 c t stop hnext hmore hshorter e stop' htokens ih =>
    have ht := h.next
    rw [hnext] at ht
    have htail := ih ht.2
    rw [htokens] at htail
    exact htail
  | case4 c t stop hnext hmore hshorter ts stop' htokens ih =>
    have ht := h.next
    rw [hnext] at ht
    have htail := ih ht.2
    rw [htokens] at htail
    obtain ⟨hended, hwithin, hlen⟩ := htail
    refine ⟨.more hmore hended, ?_, ?_⟩
    · intro u hu
      rcases List.mem_cons.mp hu with rfl | hu
      · exact ht.1
      · exact hwithin u hu
    · rw [List.length_cons]
      omega

end Cursor

/-- The tokens of a source text lie within the text and end with the end of the input. -/
theorem tokenized_tokenize (source : String) :
    Cursor.Tokenized source.length source.length (tokenize source) := by
  have h : (Cursor.ofSource source).Fits source.length := by
    rw [Cursor.Fits, Cursor.ofSource, String.length_toList]
    exact Nat.le_of_eq (Nat.zero_add _)
  have htokens := h.tokens
  rw [Cursor.ofSource, String.length_toList] at htokens
  exact htokens

end ArithJit
