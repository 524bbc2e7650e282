import ArithJit.Syntax.Token

/-!
# Splitting a text into tokens

A `Cursor` stands between two characters of a text. Reading a token skips blanks, then takes the
longest run of characters that makes a name or a number, or one punctuation character. A character
that starts no token is an error and is not taken, so that the cursor stays in front of it.
-/

namespace ArithJit

/-- A place in a text that is being read. -/
structure Cursor where
  /-- The characters that are still to be read. -/
  rest : List Char
  /-- The position of the first of them. -/
  position : Position := ⟨1, 0⟩
deriving DecidableEq, Repr

namespace Lexer

/-- Whether a character separates tokens and belongs to none. -/
def isBlank (c : Char) : Bool :=
  c = ' ' || c = '\t' || c = '\r' || c = '\n'

/-- Whether a character is a decimal digit. -/
def isDigit (c : Char) : Bool :=
  '0' ≤ c && c ≤ '9'

/-- Whether a character is a letter. -/
def isLetter (c : Char) : Bool :=
  ('a' ≤ c && c ≤ 'z') || ('A' ≤ c && c ≤ 'Z')

/-- Whether a character continues a number; underscores separate groups of digits. -/
def continuesNumber (c : Char) : Bool :=
  isDigit c || c = '_'

/-- Whether a character starts a name. -/
def startsName (c : Char) : Bool :=
  isLetter c || c = '_' || c = '$'

/-- Whether a character continues a name. -/
def continuesName (c : Char) : Bool :=
  startsName c || isDigit c

/-- The kind of token that a punctuation character is. -/
def punctuation? : Char → Option Token.Kind
  | '=' => some .equal
  | '+' => some .plus
  | '-' => some .minus
  | '*' => some .star
  | '/' => some .slash
  | '(' => some .leftParen
  | ')' => some .rightParen
  | ';' => some .semicolon
  | _ => none

/-- The kind of token that starts with a character, and the characters that continue it. -/
def classify? (c : Char) : Option (Token.Kind × (Char → Bool)) :=
  if isDigit c then some (.integer, continuesNumber)
  else if startsName c then some (.identifier, continuesName)
  else (punctuation? c).map fun kind => (kind, fun _ => false)

end Lexer

namespace Cursor

/-- The beginning of a text. -/
def ofSource (source : String) : Cursor where
  rest := source.toList

/-- The position after a character: a line feed starts a new line. -/
def after (p : Position) (c : Char) : Position :=
  if c = '\n' then ⟨p.line + 1, 0⟩ else ⟨p.line, p.column + 1⟩

/-- Moves past the longest run of characters with a property. -/
def dropWhile (c : Cursor) (p : Char → Bool) : Cursor where
  rest := c.rest.dropWhile p
  position := (c.rest.takeWhile p).foldl after c.position

/-- The error at a character that starts no token. -/
def unexpected (p : Position) (c : Char) : Error :=
  .unexpectedChar c ⟨p, ⟨p.line, p.column + 1⟩⟩

/-- Reads one token, with the cursor after it, or the error at the cursor. -/
def next (c : Cursor) : Except Error Token × Cursor :=
  let start := c.dropWhile Lexer.isBlank
  match start.rest with
  | [] => (.ok ⟨.endOfInput, "", start.position⟩, start)
  | first :: rest =>
    match Lexer.classify? first with
    | none => (.error (unexpected start.position first), start)
    | some (kind, continues) =>
      let lexeme := String.ofList (first :: rest.takeWhile continues)
      (.ok ⟨kind, lexeme, start.position⟩,
        dropWhile ⟨rest, after start.position first⟩ continues)

theorem rest_dropWhile_length_le (c : Cursor) (p : Char → Bool) :
    (c.dropWhile p).rest.length ≤ c.rest.length :=
  (List.dropWhile_sublist p).length_le

/-- A token other than the end of the input leaves less to read. -/
theorem next_rest_length_lt {c after : Cursor} {t : Token} (h : c.next = (.ok t, after))
    (ht : t.kind ≠ .endOfInput) : after.rest.length < c.rest.length := by
  have hskip := rest_dropWhile_length_le c Lexer.isBlank
  unfold next at h
  simp only at h
  split at h
  · simp only [Prod.mk.injEq, Except.ok.injEq] at h
    exact absurd (by rw [← h.1]) ht
  · next first rest hrest =>
    split at h
    · simp at h
    · next kind continues hclass =>
      simp only [Prod.mk.injEq] at h
      rw [← h.2]
      have hdrop := rest_dropWhile_length_le ⟨rest, Cursor.after (c.dropWhile Lexer.isBlank).position first⟩
        continues
      rw [hrest, List.length_cons] at hskip
      exact Nat.lt_of_le_of_lt hdrop hskip

/-- Reads all tokens up to and including the end of the input, or up to the first error. -/
def tokens (c : Cursor) : Except Error (List Token) × Cursor :=
  match h : c.next with
  | (.error e, stop) => (.error e, stop)
  | (.ok t, stop) =>
    if ht : t.kind = .endOfInput then (.ok [t], stop)
    else
      have := next_rest_length_lt h ht
      match tokens stop with
      | (.error e, stop) => (.error e, stop)
      | (.ok ts, stop) => (.ok (t :: ts), stop)
termination_by c.rest.length

end Cursor

/-- The tokens of a source text. -/
def tokenize (source : String) : Except Error (List Token) :=
  (Cursor.ofSource source).tokens.1

end ArithJit
