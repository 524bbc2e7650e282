import ArithJit.Assoc
import ArithJit.Symbol
import ArithJit.Value

/-!
# Environments

The values of names during evaluation. A scope binds names to values; an environment is a stack of
scopes with at least one scope in it. A name is looked up from the innermost scope outward. An
assignment goes to the innermost scope that binds the name, and to the innermost scope of all if none
does, so that a name is never bound twice. An environment also remembers the assignments made in it.
-/

namespace ArithJit

/-- One level of bindings. -/
structure Scope where
  /-- The names with their values. -/
  bindings : List (Symbol × Value) := []
deriving DecidableEq, Repr

namespace Scope

/-- The scope without bindings. -/
def empty : Scope := {}

/-- The number of names that are bound. -/
def size (s : Scope) : Nat :=
  s.bindings.length

/-- The value of a name. -/
def find? (s : Scope) (symbol : Symbol) : Option Value :=
  Assoc.find? symbol s.bindings

/-- Whether the scope binds a name. -/
def contains (s : Scope) (symbol : Symbol) : Bool :=
  Assoc.contains symbol s.bindings

/-- Gives a name a value, in place of the value it had. -/
def declare (s : Scope) (symbol : Symbol) (value : Value) : Scope where
  bindings := Assoc.insert symbol value s.bindings

end Scope

/-- An assignment that was carried out. -/
structure Assignment where
  /-- The name. -/
  symbol : Symbol
  /-- Its new value. -/
  value : Value
  /-- The scope that holds the value, counted from the outermost one. -/
  scope : Nat
deriving DecidableEq, Repr

/-- A stack of scopes. -/
structure Environment where
  /-- The innermost scope. -/
  current : Scope := .empty
  /-- The scopes around it, from the nearest to the outermost. -/
  outer : List Scope := []
  /-- The assignments so far, in their order. -/
  assignments : Array Assignment := #[]
deriving Repr

namespace Environment

/-- One empty scope. -/
def empty : Environment := {}

/-- One scope with initial values; of two values for one name the later one counts. -/
def ofBindings (bindings : List (Symbol × Value)) : Environment where
  current := bindings.foldl (fun scope b => scope.declare b.1 b.2) .empty

/-- All scopes, from the innermost to the outermost. -/
def scopes (e : Environment) : List Scope :=
  e.current :: e.outer

/-- Opens a scope. -/
def enter (e : Environment) : Environment :=
  { e with current := .empty, outer := e.scopes }

/-- Closes the innermost scope; the outermost scope stays. -/
def exit (e : Environment) : Environment :=
  match e.outer with
  | [] => e
  | scope :: outer => { e with current := scope, outer }

/-- The value of a name. -/
def find? (e : Environment) (symbol : Symbol) : Option Value :=
  e.scopes.findSome? (·.find? symbol)

/-- Assigns to a name in the nearest of some scopes that binds it, if one does; the result has the
number of scopes around that scope. -/
def assignBound? (symbol : Symbol) (value : Value) : List Scope → Option (Nat × List Scope)
  | [] => none
  | scope :: outer =>
    if scope.contains symbol then some (outer.length, scope.declare symbol value :: outer)
    else (assignBound? symbol value outer).map fun (depth, outer) => (depth, scope :: outer)

/-- Assigns to a name. -/
def assign (e : Environment) (symbol : Symbol) (value : Value) : Environment :=
  let record (depth : Nat) := e.assignments.push ⟨symbol, value, depth⟩
  let here : Environment :=
    ⟨e.current.declare symbol value, e.outer, record e.outer.length⟩
  if e.current.contains symbol then here
  else
    match assignBound? symbol value e.outer with
    | some (depth, outer) => ⟨e.current, outer, record depth⟩
    | none => here

end Environment

end ArithJit
