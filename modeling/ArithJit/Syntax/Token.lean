import ArithJit.Fault

/-!
# Tokens

The pieces that a source text is made of: names, integer literals, punctuation and the end of the
input, each with its text and the position of its first character.
-/

namespace ArithJit

/-- What a token is. -/
inductive Token.Kind where
  /-- A name. -/
  | identifier
  /-- An integer literal. -/
  | integer
  /-- The assignment sign. -/
  | equal
  /-- The plus sign. -/
  | plus
  /-- The minus sign. -/
  | minus
  /-- The multiplication sign. -/
  | star
  /-- The division sign. -/
  | slash
  /-- An opening parenthesis. -/
  | leftParen
  /-- A closing parenthesis. -/
  | rightParen
  /-- A semicolon. -/
  | semicolon
  /-- The end of the input. -/
  | endOfInput
deriving DecidableEq, Repr

/-- The kind of token as error messages name it. -/
def Token.Kind.describe : Token.Kind → String
  | identifier => "identifier"
  | integer => "integer literal"
  | equal => "`=`"
  | plus => "`+`"
  | minus => "`-`"
  | star => "`*`"
  | slash => "`/`"
  | leftParen => "`(`"
  | rightParen => "`)`"
  | semicolon => "`;`"
  | endOfInput => "end of input"

/-- A token of a source text. -/
structure Token where
  /-- What the token is. -/
  kind : Token.Kind
  /-- The text of the token; empty for the end of the input. -/
  lexeme : String
  /-- The position of the first character. -/
  position : Position
deriving DecidableEq, Repr

namespace Token

/-- The characters that the token covers; the end of the input covers one. -/
def span (t : Token) : Except Fault Span :=
  match Span.singleLine? t.position.line t.position.column (max t.lexeme.length 1) with
  | some span => .ok span
  | none => .error (.overflow .add)

/-- The token as error messages show it. -/
def shown (t : Token) : String :=
  if t.kind = .endOfInput then t.kind.describe else t.lexeme

end Token

end ArithJit
