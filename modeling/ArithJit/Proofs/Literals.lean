import ArithJit.Proofs.Grammar
import Mathlib.Data.Nat.Digits.Defs

/-!
# Proofs: integer literals

The number that an integer token spells, as the sum of its digits with the weights of their places
(`Token.spelled`). The parser reads the digits from the left and gives up as soon as the number on the way is too large.
Numbers only grow while they are read, so it gives up exactly for the literals that are too large.
-/

namespace ArithJit

/-! ## The number that is spelled -/

/-- The values of the decimal digits of a token, from the last to the first. -/
def Token.digits (t : Token) : List Nat :=
  ((t.lexeme.toList.filter Lexer.isDigit).map fun c => c.toNat - '0'.toNat).reverse

/-- The number that the digits of a token spell: the first of them is the one with the largest weight. -/
def Token.spelled (t : Token) : Nat :=
  Nat.ofDigits 10 t.digits

/-- Reading digits from the left adds up the weights of their places. -/
theorem ofDigitChars_eq_ofDigits (cs : List Char) (value : Nat) :
    Nat.ofDigitChars 10 cs value =
      Nat.ofDigits 10 (cs.map fun c => c.toNat - '0'.toNat).reverse + 10 ^ cs.length * value := by
  induction cs generalizing value with
  | nil => simp
  | cons c cs ih =>
    rw [Nat.ofDigitChars_cons, ih, List.map_cons, List.reverse_cons, Nat.ofDigits_append, List.length_reverse,
      List.length_map, Nat.ofDigits_singleton, List.length_cons]
    ring

/-- Digits are not underscores, so what is left without the underscores are the digits. -/
theorem Token.number_eq_spelled {t : Token} (h : ∀ c ∈ t.lexeme.toList, Lexer.continuesNumber c = true) :
    t.number = t.spelled := by
  have hdigits : t.lexeme.toList.filter (· ≠ '_') = t.lexeme.toList.filter Lexer.isDigit := by
    refine List.filter_congr fun c hc => ?_
    by_cases hline : c = '_'
    · rw [hline]
      rfl
    · have hdigit : Lexer.isDigit c = true := by
        simpa [Lexer.continuesNumber, hline] using h c hc
      rw [hdigit]
      exact decide_eq_true hline
  rw [Token.number, hdigits, ofDigitChars_eq_ofDigits, Nat.mul_zero, Nat.add_zero]
  rfl

/-! ## The number that is read -/

theorem Token.span_eq_error {t : Token} (h : ¬ t.Fits) : t.span = .error (.overflow .add) := by
  rw [Token.Fits] at h
  rw [Token.span, Span.singleLine?, if_neg h]

namespace Parser

variable {t : Token} {p : Parser}

/-- For a number that is too large, the parser looks for the span of the token and reports an error there. -/
theorem integerValue_of_lt (hd : ∀ c ∈ t.lexeme.toList, Lexer.continuesNumber c = true)
    (hlt : largestLiteral < t.number) :
    integerValue t p = (do reject (.integerTooLarge t.lexeme (← check t.span)) : Parse Int32) p := by
  obtain ⟨m, hm⟩ := readDigits_digits 0 (isDigit_of_continuesNumber hd)
  cases m with
  | some word =>
    obtain ⟨-, -, hle⟩ := readDigits_lexeme_eq_some.mp hm
    exact absurd hlt (Nat.not_lt.mpr hle)
  | none =>
    rw [integerValue, hm]
    rfl

theorem integerValue_of_fits {span : Span} (hd : ∀ c ∈ t.lexeme.toList, Lexer.continuesNumber c = true)
    (hlt : largestLiteral < t.number) (hspan : t.span = .ok span) :
    integerValue t p = .error (.error (.integerTooLarge t.lexeme span)) p := by
  rw [integerValue_of_lt hd hlt, hspan]
  rfl

theorem integerValue_of_not_fits (hd : ∀ c ∈ t.lexeme.toList, Lexer.continuesNumber c = true)
    (hlt : largestLiteral < t.number) (hfits : ¬ t.Fits) :
    integerValue t p = .error (.fault (.overflow .add)) p := by
  rw [integerValue_of_lt hd hlt, Token.span_eq_error hfits]
  rfl

/-- Integer literals are read exactly, however long they are. A text of digits and underscores is read as the number
that its digits spell, exactly if that number is at most the largest 32-bit integer; what is read is never another
number. A larger number is an error with the whole text and the span of the token. Only if the span of such a token
ends beyond the last column, there is a fault. -/
theorem integerValue_reads_exactly (t : Token) (p : Parser)
    (hlexeme : ∀ c ∈ t.lexeme.toList, Lexer.continuesNumber c = true) :
    ((∃ value, integerValue t p = .ok value p ∧ value.toInt = t.spelled) ↔ t.spelled ≤ 2147483647) ∧
    (∀ value q, integerValue t p = .ok value q → value.toInt = t.spelled ∧ q = p) ∧
    (2147483647 < t.spelled → t.position.column + max t.lexeme.length 1 < 18446744073709551616 →
      ∃ span, t.span = .ok span ∧ integerValue t p = .error (.error (.integerTooLarge t.lexeme span)) p) ∧
    ((∃ f q, integerValue t p = .error (.fault f) q) ↔
      2147483647 < t.spelled ∧ 18446744073709551616 ≤ t.position.column + max t.lexeme.length 1) := by
  have hnumber := Token.number_eq_spelled hlexeme
  have hread : ∀ value q, integerValue t p = .ok value q →
      t.spelled ≤ 2147483647 ∧ value.toInt = t.spelled ∧ q = p := by
    intro value q h
    obtain ⟨rfl, rfl, hle⟩ := gives_integerValue value q h
    rw [← hnumber]
    exact ⟨hle, toInt_ofNat_of_le hle, rfl⟩
  have hsmall : t.spelled ≤ 2147483647 → integerValue t p = .ok (Int32.ofNat t.number) p :=
    fun hle => integerValue_of_le hlexeme (hnumber ▸ hle)
  have hlarge : 2147483647 < t.spelled → t.Fits →
      ∃ span, t.span = .ok span ∧ integerValue t p = .error (.error (.integerTooLarge t.lexeme span)) p := by
    intro hlt hfits
    obtain ⟨span, hspan⟩ := t.span_eq_ok.mpr hfits
    exact ⟨span, hspan, integerValue_of_fits hlexeme (hnumber ▸ hlt) hspan⟩
  refine ⟨⟨?_, ?_⟩, fun value q h => (hread value q h).2, hlarge, ⟨?_, ?_⟩⟩
  · rintro ⟨value, hvalue, -⟩
    exact (hread value p hvalue).1
  · intro hle
    exact ⟨_, hsmall hle, (hread _ p (hsmall hle)).2.1⟩
  · rintro ⟨f, q, hfault⟩
    have hlt : 2147483647 < t.spelled := by
      by_contra hle
      rw [hsmall (Nat.not_lt.mp hle)] at hfault
      cases hfault
    refine ⟨hlt, Nat.not_lt.mp fun hfits => ?_⟩
    obtain ⟨span, -, herror⟩ := hlarge hlt hfits
    rw [herror] at hfault
    cases hfault
  · rintro ⟨hlt, hlong⟩
    exact ⟨_, p, integerValue_of_not_fits hlexeme (hnumber ▸ hlt) (Nat.not_lt.mpr hlong)⟩

/-- The largest literal with a leading zero, and the smallest one that is too large. -/
theorem integerValue_reads_exactly_limits :
    (∃ value, integerValue ⟨.integer, "0_2147483647", ⟨1, 4⟩⟩ (.ofTokens []) = .ok value (.ofTokens []) ∧
      value.toInt = 2147483647) ∧
    ∃ span, Token.span ⟨.integer, "2_147_483_648", ⟨1, 4⟩⟩ = .ok span ∧
      integerValue ⟨.integer, "2_147_483_648", ⟨1, 4⟩⟩ (.ofTokens []) =
        .error (.error (.integerTooLarge "2_147_483_648" span)) (.ofTokens []) := by
  have hsmall : Token.spelled ⟨.integer, "0_2147483647", ⟨1, 4⟩⟩ = 2147483647 := by
    decide
  have hlarge : Token.spelled ⟨.integer, "2_147_483_648", ⟨1, 4⟩⟩ = 2147483648 := by
    decide
  have hread := integerValue_reads_exactly ⟨.integer, "0_2147483647", ⟨1, 4⟩⟩ (.ofTokens [])
    (List.all_eq_true.mp (by decide))
  have herror := integerValue_reads_exactly ⟨.integer, "2_147_483_648", ⟨1, 4⟩⟩ (.ofTokens [])
    (List.all_eq_true.mp (by decide))
  rw [hsmall] at hread
  exact ⟨hread.1.mpr (Nat.le_refl _), herror.2.2.1 (by rw [hlarge]; decide) (by decide)⟩

/-- In the last column a literal that is too large has no span, so there is a fault instead of the error. -/
theorem integerValue_faults_at_last_column :
    "2147483648".toList.all Lexer.isDigit = true ∧
    Token.spelled ⟨.integer, "2147483648", ⟨1, 18446744073709551615⟩⟩ = 2147483648 ∧
    integerValue ⟨.integer, "2147483648", ⟨1, 18446744073709551615⟩⟩ (.ofTokens []) =
      .error (.fault (.overflow .add)) (.ofTokens []) := by
  refine ⟨by decide, by decide, ?_⟩
  exact integerValue_of_not_fits (List.all_eq_true.mp (by decide)) (by decide) (by decide)

end Parser

end ArithJit
