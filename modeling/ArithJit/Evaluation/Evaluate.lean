import ArithJit.Evaluation.Environment
import ArithJit.Fault
import ArithJit.Syntax.Forest

/-!
# Evaluation

The value of a node in an environment. The operands of an arithmetic operator are evaluated from left
to right, and only then is it checked that both are integers. The target of an assignment is checked
before its value is computed. A block has the value of its last child. What was assigned before an
evaluation fails stays assigned.
-/

namespace ArithJit

/-- A step of an evaluation, which may fail and keeps what was assigned before it failed. -/
abbrev Evaluate (α : Type) := EStateM Failure Environment α

/-- The text of a symbol in an error message: its name, or the symbol if it has none. -/
def SymbolTable.nameOf (t : SymbolTable) (symbol : Symbol) : String :=
  (t.name? symbol).getD symbol.text

/-- The result of an arithmetic operator on two values. -/
def Arithmetic.onValues (op : Arithmetic) (left right : Value) : Except Error Value :=
  match left.asInteger?, right.asInteger? with
  | some a, some b =>
    match op.apply? a b with
    | some n => .ok (.integer n)
    | none => .error .divisionByZero
  | _, _ => .error (.nonIntegerOperand op.text)

namespace Forest

/-- The name that a node is, as the target of an assignment. -/
def target (f : Forest) (id : NodeId) : Except Failure Symbol :=
  match f.get? id with
  | some (.name symbol) => .ok symbol
  | some _ => .error (.error (.invalidAssignTarget (f.span id)))
  | none => .error (.fault (.missingNode id.index))

/-- The value of a node, found within a number of levels; `names` supplies the names for error
messages. -/
def evaluateWithin (f : Forest) (names : SymbolTable) : Nat → NodeId → Evaluate Value
  | 0, _ => throw (.fault .tooDeep)
  | levels + 1, id =>
    match f.get? id with
    | none => throw (.fault (.missingNode id.index))
    | some (.literal value) => return value
    | some (.name symbol) => do
      match (← get).find? symbol with
      | some value => return value
      | none => throw (.error (.undefinedVariable (names.nameOf symbol)))
    | some (.binary left .assign right) => do
      match f.target left with
      | .error e => throw e
      | .ok symbol =>
        let value ← f.evaluateWithin names levels right
        modify (·.assign symbol value)
        return value
    | some (.binary left (.arithmetic op) right) => do
      let a ← f.evaluateWithin names levels left
      let b ← f.evaluateWithin names levels right
      match op.onValues a b with
      | .ok value => return value
      | .error e => throw (.error e)
    | some (.block children) =>
      children.foldlM (fun _ child => f.evaluateWithin names levels child) .void

/-- The value of a node. -/
def evaluate (f : Forest) (names : SymbolTable) (id : NodeId) : Evaluate Value :=
  f.evaluateWithin names f.levels id

end Forest

end ArithJit
