/-!
# Operators

The four arithmetic operators of the expression language, and assignment.
-/

namespace ArithJit

/-- An operator that computes a number from two numbers. -/
inductive Arithmetic where
  /-- Addition. -/
  | add
  /-- Subtraction. -/
  | sub
  /-- Multiplication. -/
  | mul
  /-- Division, rounding toward zero. -/
  | div
deriving DecidableEq, Repr

/-- The operator as it is written in a program. -/
def Arithmetic.text : Arithmetic → String
  | add => "+"
  | sub => "-"
  | mul => "*"
  | div => "/"

/-- The result on 32-bit integers, which wraps around; there is none for a division by zero. -/
def Arithmetic.apply? : Arithmetic → Int32 → Int32 → Option Int32
  | add, a, b => some (a + b)
  | sub, a, b => some (a - b)
  | mul, a, b => some (a * b)
  | div, a, b => if b = 0 then none else some (a / b)

/-- A binary operator. -/
inductive Operator where
  /-- Assignment to a name. -/
  | assign
  /-- Arithmetic on two numbers. -/
  | arithmetic (op : Arithmetic)
deriving DecidableEq, Repr

namespace Operator

/-- Whether the operator computes a number from two numbers. -/
def isArithmetic : Operator → Bool
  | assign => false
  | arithmetic _ => true

/-- The operator as it is written in a program. -/
def text : Operator → String
  | assign => "="
  | arithmetic op => op.text

end Operator

end ArithJit
