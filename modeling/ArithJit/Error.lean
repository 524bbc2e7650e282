import ArithJit.Source.Span

/-!
# Errors of a program

An `Error` says what is wrong with the program that is being compiled, or why it could not be run.
Each error belongs to one stage and has a number there; the two together are its code, such as
`PAR2000`. Errors found while reading the text know where they were found.
-/

namespace ArithJit

/-- The stage at which an error is found. -/
inductive Stage where
  /-- Splitting the text into tokens. -/
  | lexing
  /-- Building the tree. -/
  | parsing
  /-- Evaluating the tree. -/
  | evaluation
  /-- Producing machine code. -/
  | compilation
  /-- Loading and calling machine code. -/
  | execution
deriving DecidableEq, Repr

/-- The letters that a code of this stage starts with. -/
def Stage.tag : Stage → String
  | .lexing => "LEX"
  | .parsing => "PAR"
  | .evaluation => "INT"
  | .compilation => "CMP"
  | .execution => "JIT"

/-- What is wrong with a program. -/
inductive Error where
  /-- A character that starts no token. -/
  | unexpectedChar (ch : Char) (span : Span)
  /-- A literal above the largest 32-bit integer. -/
  | integerTooLarge (lexeme : String) (span : Span)
  /-- A token that does not continue the program. -/
  | unexpectedToken (expected found : String) (span : Span)
  /-- Two expressions with nothing between them. -/
  | expectedSemicolon (span : Span)
  /-- An assignment to something that is not a name. -/
  | invalidAssignTarget (span : Span)
  /-- A name without a value. -/
  | undefinedVariable (name : String)
  /-- A division by zero. -/
  | divisionByZero
  /-- Arithmetic on a value that is not an integer. -/
  | nonIntegerOperand (operator : String)
  /-- An operation that has no machine code. -/
  | unsupportedOperation (operator : String)
  /-- A program without an expression. -/
  | emptyProgram
  /-- Machine code and evaluator disagree. -/
  | resultMismatch (interpreted executed : Int32)
  /-- An initial value that machine code cannot hold. -/
  | nonIntegerBinding (name : String)
  /-- Code that could not be loaded; a failed system call is named with its error number. -/
  | loading (reason : String) (call : Option String) (errno : Option Int)
deriving DecidableEq, Repr

namespace Error

/-- The stage that finds the error. -/
def stage : Error → Stage
  | unexpectedChar .. => .lexing
  | integerTooLarge .. => .parsing
  | unexpectedToken .. => .parsing
  | expectedSemicolon .. => .parsing
  | invalidAssignTarget .. => .parsing
  | undefinedVariable .. => .evaluation
  | divisionByZero => .evaluation
  | nonIntegerOperand .. => .evaluation
  | unsupportedOperation .. => .compilation
  | emptyProgram => .compilation
  | resultMismatch .. => .compilation
  | nonIntegerBinding .. => .compilation
  | loading .. => .execution

/-- The number of the error. -/
def number : Error → Nat
  | unexpectedChar .. => 1000
  | integerTooLarge .. => 2000
  | unexpectedToken .. => 2001
  | expectedSemicolon .. => 2002
  | invalidAssignTarget .. => 2003
  | undefinedVariable .. => 3000
  | divisionByZero => 3001
  | nonIntegerOperand .. => 3002
  | unsupportedOperation .. => 4000
  | emptyProgram => 4001
  | resultMismatch .. => 4002
  | nonIntegerBinding .. => 4003
  | loading .. => 5000

/-- The code of the error: the letters of its stage and its number. -/
def code (e : Error) : String :=
  e.stage.tag ++ toString e.number

/-- Where the error stands in the text, if it was found while reading the text. -/
def span? : Error → Option Span
  | unexpectedChar _ span => some span
  | integerTooLarge _ span => some span
  | unexpectedToken _ _ span => some span
  | expectedSemicolon span => some span
  | invalidAssignTarget span => some span
  | _ => none

/-- The wording of the error. -/
def message : Error → String
  | unexpectedChar ch _ => s!"unexpected character `{ch}`"
  | integerTooLarge lexeme _ => s!"integer literal `{lexeme}` is too large"
  | unexpectedToken expected found _ => s!"expected {expected}, found `{found}`"
  | expectedSemicolon _ => "expected `;` after expression"
  | invalidAssignTarget _ => "left-hand side of `=` must be an identifier"
  | undefinedVariable name => s!"variable `{name}` is used before it is assigned"
  | divisionByZero => "division by zero"
  | nonIntegerOperand operator => s!"operator `{operator}` needs integer operands"
  | unsupportedOperation operator => s!"operation `{operator}` cannot be lowered to machine code"
  | emptyProgram => "program has no expression to execute"
  | resultMismatch interpreted executed =>
    s!"native code returned {executed.toInt} but the interpreter produced {interpreted.toInt}"
  | nonIntegerBinding name => s!"initial binding `{name}` is not an integer"
  | loading reason _ _ => s!"jit: {reason}"

end Error

end ArithJit
