/-!
# Lines of a text

A line feed ends a line, and a carriage return directly before it belongs to the line end; any other
carriage return is an ordinary character. The text after the last line feed is a line only if it is
not empty.
-/

namespace ArithJit

/-- The lines of a text, without their ends. -/
def splitLines : List Char → List (List Char)
  | [] => []
  | '\n' :: rest => [] :: splitLines rest
  | '\r' :: '\n' :: rest => [] :: splitLines rest
  | c :: rest =>
    match splitLines rest with
    | [] => [[c]]
    | line :: lines => (c :: line) :: lines

/-- The line with the given number, counted from one; empty if there is no such line. -/
def lineAt (text : String) (number : Nat) : String :=
  String.ofList ((splitLines text.toList)[number - 1]?.getD [])

end ArithJit
