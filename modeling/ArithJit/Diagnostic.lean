import ArithJit.Fault
import ArithJit.Source.Lines

/-!
# Diagnostics

The text that shows an error to the author of the program: a headline and, for an error with a place,
the line it stands in with the place underlined.
-/

namespace ArithJit.Diagnostic

/-- The longest run of one character that memory can hold, plus one. -/
def runLimit : Nat := 0x8000000000000000

/-- A character repeated. -/
def repeated (c : Char) (count : Nat) : Except Fault String :=
  if count < runLimit then .ok (String.ofList (List.replicate count c)) else .error .capacity

/-- The number of characters of the first line of a span. -/
def width (span : Span) : Nat :=
  if span.stop.line = span.start.line then span.stop.column - span.start.column else 1

/-- A number, filled up with blanks on the left to four characters. -/
def lineNumber (n : Nat) : String :=
  let digits := toString n
  String.ofList (List.replicate (4 - digits.length) ' ') ++ digits

/-- The headline of an error. -/
def headline (e : Error) : String :=
  s!"Error[{e.code}]: {e.message}\n"

/-- The line that a span starts in, with the span underlined by at least one caret. -/
def excerpt (span : Span) (source : String) : Except Fault String := do
  let line := span.start.line
  let column := span.start.column
  if wordCount ≤ column + 1 then
    throw (.overflow .add)
  let margin ← repeated ' ' column
  let carets ← repeated '^' (max 1 (width span))
  return s!" --> {line}:{column + 1}\n  |\n{lineNumber line} | {lineAt source line}\n"
    ++ s!"     | {margin}{carets}\n"

/-- The text of an error in a source. -/
def render (e : Error) (source : String) : Except Fault String := do
  match e.span? with
  | none => return headline e
  | some span => return headline e ++ (← excerpt span source)

/-- The text as it is shown on a terminal, the first of its lines in red. -/
def report (e : Error) (source : String) : Except Fault String := do
  match splitLines (← render e source).toList with
  | [] => return ""
  | first :: rest =>
    let head := "\x1b[31m" ++ String.ofList first ++ "\x1b[0m\n"
    return head ++ String.join (rest.map fun line => String.ofList line ++ "\n")

end ArithJit.Diagnostic
