import ArithJit.Single

/-!
# Values

What an expression evaluates to. Arithmetic is defined on integers only; they are 32 bits wide and
wrap around.
-/

namespace ArithJit

/-- The value of an expression. -/
inductive Value where
  /-- The value of an empty block. -/
  | void
  /-- A 32-bit integer. -/
  | integer (n : Int32)
  /-- A single-precision number. -/
  | floating (x : Single)
deriving DecidableEq, Repr

namespace Value

/-- The integer, if the value is one. -/
def asInteger? : Value → Option Int32
  | integer n => some n
  | _ => none

/-- The single-precision number, if the value is one. -/
def asFloating? : Value → Option Single
  | floating x => some x
  | _ => none

/-- Equality as numbers. -/
def equal : Value → Value → Bool
  | void, void => true
  | integer m, integer n => m == n
  | floating x, floating y => x.equal y
  | _, _ => false

/-- The value as text. -/
def text : Value → String
  | void => "void"
  | integer n => toString n.toInt
  | floating x => x.text

end Value

end ArithJit
