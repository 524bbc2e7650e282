import ArithJit.Syntax.Lexer
import ArithJit.Syntax.Forest

/-!
# Parsing

A program is a sequence of expressions with semicolons between them, the last one optional:

* an assignment is a sum, or a name, an equals sign and an assignment;
* a sum is a chain of products joined by `+` and `-`, grouped to the left;
* a product is a chain of primaries joined by `*` and `/`, grouped to the left;
* a primary is a number, a name or an expression in parentheses.

The parser adds nodes to the forest and names to the symbol table as it goes; what it has added stays
when it fails. It never moves past the end of the input.
-/

namespace ArithJit

/-- A parser between two tokens, with what it has built so far. -/
structure Parser where
  /-- The number of all tokens. -/
  count : Nat
  /-- The tokens that are still to be read. -/
  rest : List Token
  /-- The nodes. -/
  forest : Forest := .empty
  /-- The names. -/
  symbols : SymbolTable := .empty

/-- A step of a parser, which may fail and keeps what was built before it failed. -/
abbrev Parse (α : Type) := EStateM Failure Parser α

namespace Parser

/-- A parser at the first of some tokens. -/
def ofTokens (tokens : List Token) (forest : Forest := .empty) (symbols : SymbolTable := .empty) :
    Parser where
  count := tokens.length
  rest := tokens
  forest := forest
  symbols := symbols

/-! ## Reading tokens -/

/-- Makes a fault out of a result that has one. -/
def check {α : Type} (x : Except Fault α) : Parse α :=
  match x with
  | .ok a => pure a
  | .error f => throw (.fault f)

/-- Gives up with an error of the program. -/
def reject {α : Type} (e : Error) : Parse α :=
  throw (.error e)

/-- The token in front of the parser. -/
def peek : Parse Token := do
  let p ← get
  match p.rest with
  | t :: _ => return t
  | [] => throw (.fault (.indexOutOfBounds p.count p.count))

/-- Whether the token in front of the parser has a kind. -/
def isAt (kind : Token.Kind) : Parse Bool := do
  return (← peek).kind = kind

/-- Takes the token in front of the parser; the end of the input is never taken away. -/
def advance : Parse Token := do
  let t ← peek
  if t.kind ≠ .endOfInput then
    modify fun p => { p with rest := p.rest.tail }
  return t

/-- The error at a token that does not continue the program. -/
def unexpected {α : Type} (t : Token) (expected : String) : Parse α := do
  reject (.unexpectedToken expected t.shown (← check t.span))

/-- Takes a token of one kind. -/
def expect (kind : Token.Kind) : Parse Token := do
  let t ← peek
  if t.kind = kind then advance else unexpected t kind.describe

/-! ## Adding nodes -/

/-- Adds a node to the forest. -/
def addNode (node : Node) (span : Span) : Parse NodeId := do
  let p ← get
  let (id, forest) := p.forest.add node span
  set { p with forest }
  return id

/-- Adds an operator with its two operands; its span covers both. -/
def addBinary (left : NodeId) (op : Operator) (right : NodeId) : Parse NodeId := do
  let forest := (← get).forest
  addNode (.binary left op right) ((forest.span left).merge (forest.span right))

/-- The symbol of a name. -/
def internName (name : String) : Parse Symbol := do
  let p ← get
  let (symbol, symbols) := p.symbols.intern name
  set { p with symbols }
  return symbol

/-! ## Literals -/

/-- The value of a decimal digit. -/
def digit? (c : Char) : Option Nat :=
  if Lexer.isDigit c then some (c.toNat - '0'.toNat) else none

/-- A number as a 32-bit integer, if it is one. -/
def int32? (n : Int) : Option Int32 :=
  if Int32.minValue.toInt ≤ n ∧ n ≤ Int32.maxValue.toInt then some (Int32.ofInt n) else none

/-- The number with one more digit, if it and the number on the way to it are 32-bit integers. -/
def appendDigit? (value : Int32) (digit : Nat) : Option Int32 :=
  (int32? (value.toInt * 10)).bind fun tens => int32? (tens.toInt + digit)

/-- Reads digits from the left, starting from a value; `none` stands for a number that is too large. -/
def readDigits : Int32 → List Char → Except Fault (Option Int32)
  | value, [] => .ok (some value)
  | value, c :: rest =>
    match digit? c with
    | none => .error .notADigit
    | some d =>
      match appendDigit? value d with
      | none => .ok none
      | some next => readDigits next rest

/-- The value of an integer token; underscores are left out. -/
def integerValue (t : Token) : Parse Int32 := do
  match ← check (readDigits 0 (t.lexeme.toList.filter (· ≠ '_'))) with
  | some value => return value
  | none => reject (.integerTooLarge t.lexeme (← check t.span))

/-! ## The grammar -/

/-- A primary, given the parser for the expression inside parentheses. -/
def primary (expression : Parse NodeId) : Parse NodeId := do
  let t ← advance
  match t.kind with
  | .integer =>
    let value ← integerValue t
    addNode (.literal (.integer value)) (← check t.span)
  | .identifier =>
    let symbol ← internName t.lexeme
    addNode (.name symbol) (← check t.span)
  | .leftParen =>
    let inner ← expression
    let _ ← expect .rightParen
    return inner
  | _ => unexpected t "expression"

/-- The operator of a sum that a token is. -/
def sumOperator? : Token.Kind → Option Arithmetic
  | .plus => some .add
  | .minus => some .sub
  | _ => none

/-- The operator of a product that a token is. -/
def productOperator? : Token.Kind → Option Arithmetic
  | .star => some .mul
  | .slash => some .div
  | _ => none

/-- Continues a chain of operands, grouped to the left, by at most `length` operators. -/
def chainFrom (operator? : Token.Kind → Option Arithmetic) (operand : Parse NodeId) :
    (length : Nat) → NodeId → Parse NodeId
  | 0, left => return left
  | length + 1, left => do
    match operator? (← peek).kind with
    | none => return left
    | some op =>
      let _ ← advance
      let right ← operand
      chainFrom operator? operand length (← addBinary left (.arithmetic op) right)

/-- A chain of operands. Each operator is a token of its own, so the tokens that are left bound the
number of operators. -/
def chain (operator? : Token.Kind → Option Arithmetic) (operand : Parse NodeId) : Parse NodeId := do
  let left ← operand
  chainFrom operator? operand ((← get).rest.length + 1) left

/-- A product, given the parser for the expression inside parentheses. -/
def product (expression : Parse NodeId) : Parse NodeId :=
  chain productOperator? (primary expression)

/-- A sum, given the parser for the expression inside parentheses. -/
def sum (expression : Parse NodeId) : Parse NodeId :=
  chain sumOperator? (product expression)

/-- Whether a node of the forest is a name. -/
def isName (id : NodeId) : Parse Bool := do
  return ((← get).forest.get? id).any Node.isName

/-- An expression with at most `depth` parentheses and equals signs around one another. -/
def expressionTo : (depth : Nat) → Parse NodeId
  | 0 => do unexpected (← peek) "expression"
  | depth + 1 => do
    let inner := expressionTo depth
    let target ← sum inner
    if !(← isAt .equal) then
      return target
    let sign ← advance
    if !(← isName target) then
      let span := (← get).forest.span target
      reject (.invalidAssignTarget (span.merge (← check sign.span)))
    let value ← inner
    addBinary target .assign value

/-- An expression. Each parenthesis and each equals sign is a token of its own, so the tokens that are
left bound the depth. -/
def expression : Parse NodeId := do
  expressionTo ((← get).rest.length + 1)

/-- The expressions of a program up to the end of the input, at most `count` of them. -/
def statementsTo : (count : Nat) → Parse (List NodeId)
  | 0 => return []
  | count + 1 => do
    if ← isAt .endOfInput then
      return []
    let first ← expression
    if ← isAt .semicolon then
      let _ ← advance
    else if !(← isAt .endOfInput) then
      reject (.expectedSemicolon (← check (← peek).span))
    return first :: (← statementsTo count)

/-- A whole program: a block of its expressions. Each expression takes a token, so the tokens that are
left bound their number. -/
def program : Parse NodeId := do
  let start ← check (← peek).span
  let statements ← statementsTo ((← get).rest.length + 1)
  let stop ← check (← peek).span
  addNode (.block statements) (start.merge stop)

end Parser

end ArithJit
