import ArithJit.Operator
import ArithJit.Source.Span
import ArithJit.Symbol
import ArithJit.Value

/-!
# The forest of parsed nodes

All trees of a session live in one forest. A node is added once and never changed; it names its
children by their numbers. A number that no node has is allowed and is noticed only when the node is
visited. Nodes may share children, and a node may even be below itself: a visit then comes back to it,
again and again, until it fails.
-/

namespace ArithJit

/-- A node of the forest, by its number. -/
structure NodeId where
  /-- The number, counted from zero. -/
  index : Nat
deriving DecidableEq, Repr

/-- A node, with its children given by number. -/
inductive Node where
  /-- A literal. -/
  | literal (value : Value)
  /-- A name. -/
  | name (symbol : Symbol)
  /-- An operator and its two operands. -/
  | binary (left : NodeId) (op : Operator) (right : NodeId)
  /-- Expressions that are evaluated one after the other. -/
  | block (children : List NodeId)
deriving DecidableEq, Repr

/-- Whether the node is a name. -/
def Node.isName : Node → Bool
  | name _ => true
  | _ => false

/-- Nodes with their spans. -/
structure Forest where
  /-- The nodes, in the order of their numbers. -/
  nodes : Array (Node × Span) := #[]
deriving Repr

namespace Forest

/-- The forest without nodes. -/
def empty : Forest := {}

/-- The number of nodes. -/
def size (f : Forest) : Nat :=
  f.nodes.size

/-- The node with a given number. -/
def get? (f : Forest) (id : NodeId) : Option Node :=
  f.nodes[id.index]?.map Prod.fst

/-- The span of a node; zero if there is no such node. -/
def span (f : Forest) (id : NodeId) : Span :=
  (f.nodes[id.index]?.map Prod.snd).getD .zero

/-- Adds a node; its number is the size of the forest so far. Numbers are meant to fit in 32 bits, and
forests of more than `2 ^ 32` nodes are left out. -/
def add (f : Forest) (node : Node) (span : Span) : NodeId × Forest :=
  (⟨f.size⟩, ⟨f.nodes.push (node, span)⟩)

/-- How many more levels than nodes a visit may go down. It matters only where a node is below itself:
there a visit ends when the stack of the machine is used up, and this number stands for the size of that
stack. All other visits end before. -/
def revisitLimit : Nat := 100000

/-- How many levels a visit may go down. Where no node is below itself, a path has at most as many
nodes as the forest, and a missing one at its end. -/
def levels (f : Forest) : Nat :=
  f.size + 1 + revisitLimit

end Forest

end ArithJit
