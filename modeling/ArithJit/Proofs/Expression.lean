import ArithJit.Evaluation.Evaluate
import ArithJit.Proofs.Results

/-!
# Proofs: expressions in a forest

An expression is the tree that a node of a forest stands for. A forest holds an expression at a node if
the nodes below it spell the expression and have smaller numbers. Evaluating the node is then evaluating
the expression, which needs no bound on the number of levels.
-/

namespace ArithJit

/-- An expression of the language. -/
inductive Expr where
  | literal (value : Int32)
  | name (symbol : Symbol)
  | assign (symbol : Symbol) (value : Expr)
  | arithmetic (op : Arithmetic) (left right : Expr)
deriving DecidableEq, Repr

namespace Expr

/-- The number of levels. -/
def depth : Expr → Nat
  | literal _ => 1
  | name _ => 1
  | assign _ value => value.depth + 1
  | arithmetic _ left right => max left.depth right.depth + 1

theorem exists_level {e : Expr} {levels : Nat} (h : e.depth ≤ levels) : ∃ l, levels = l + 1 := by
  have hpos : 0 < e.depth := by cases e <;> simp [depth]
  exact ⟨levels - 1, by omega⟩

/-- Whether a division occurs. -/
def divides : Expr → Bool
  | literal _ => false
  | name _ => false
  | assign _ value => value.divides
  | arithmetic op left right => op = .div || left.divides || right.divides

/-- The value of an expression. -/
def evaluate (names : SymbolTable) : Expr → Evaluate Value
  | literal value => return .integer value
  | name symbol => do
    match (← get).find? symbol with
    | some value => return value
    | none => throw (.error (.undefinedVariable (names.nameOf symbol)))
  | assign symbol value => do
    let v ← value.evaluate names
    modify (·.assign symbol v)
    return v
  | arithmetic op left right => do
    let a ← left.evaluate names
    let b ← right.evaluate names
    match op.onValues a b with
    | .ok value => return value
    | .error e => throw (.error e)

end Expr

/-- The nodes that a node names. -/
def Node.children : Node → List NodeId
  | literal _ => []
  | name _ => []
  | binary left _ right => [left, right]
  | block children => children

namespace Forest

variable {f g : Forest} {id : NodeId} {e : Expr} {names : SymbolTable} {levels : Nat}

/-- The node `id` stands for an expression. -/
inductive Holds (f : Forest) : NodeId → Expr → Prop where
  | literal {id : NodeId} {value : Int32} (node : f.get? id = some (.literal (.integer value))) :
      Holds f id (.literal value)
  | name {id : NodeId} {symbol : Symbol} (node : f.get? id = some (.name symbol)) :
      Holds f id (.name symbol)
  | assign {id left right : NodeId} {symbol : Symbol} {value : Expr}
      (node : f.get? id = some (.binary left .assign right))
      (target : f.get? left = some (.name symbol)) (below : right.index < id.index)
      (source : Holds f right value) : Holds f id (.assign symbol value)
  | arithmetic {id left right : NodeId} {op : Arithmetic} {l r : Expr}
      (node : f.get? id = some (.binary left (.arithmetic op) right))
      (belowLeft : left.index < id.index) (belowRight : right.index < id.index)
      (first : Holds f left l) (second : Holds f right r) : Holds f id (.arithmetic op l r)

/-- All nodes of `f` are nodes of `g`, with the same numbers. -/
def Extends (f g : Forest) : Prop :=
  ∀ id node, f.get? id = some node → g.get? id = some node

theorem Extends.refl (f : Forest) : Extends f f := fun _ _ h => h

theorem Extends.trans {f g h : Forest} (hfg : Extends f g) (hgh : Extends g h) : Extends f h :=
  fun id node hn => hgh id node (hfg id node hn)

/-- What a forest holds stays when nodes are added. -/
theorem Holds.mono (hfg : Extends f g) (h : f.Holds id e) : g.Holds id e := by
  induction h with
  | literal node => exact .literal (hfg _ _ node)
  | name node => exact .name (hfg _ _ node)
  | assign node target below _ ih => exact .assign (hfg _ _ node) (hfg _ _ target) below ih
  | arithmetic node belowLeft belowRight _ _ ihl ihr =>
    exact .arithmetic (hfg _ _ node) belowLeft belowRight ihl ihr

theorem index_lt_size {node : Node} (h : f.get? id = some node) : id.index < f.size := by
  rw [get?, Option.map_eq_some_iff] at h
  obtain ⟨entry, hentry, -⟩ := h
  exact (Array.getElem?_eq_some_iff.mp hentry).1

theorem Holds.index_lt (h : f.Holds id e) : id.index < f.size := by
  cases h with
  | literal node => exact index_lt_size node
  | name node => exact index_lt_size node
  | assign node => exact index_lt_size node
  | arithmetic node => exact index_lt_size node

/-- Numbers grow from level to level. -/
theorem Holds.depth_le (h : f.Holds id e) : e.depth ≤ id.index + 1 := by
  induction h with
  | literal => simp [Expr.depth]
  | name => simp [Expr.depth]
  | assign _ _ below _ ih =>
    rw [Expr.depth]
    omega
  | arithmetic _ belowLeft belowRight _ _ ihl ihr =>
    rw [Expr.depth]
    omega

/-- An expression has at most as many levels as the forest has nodes. -/
theorem Holds.depth_le_size (h : f.Holds id e) : e.depth ≤ f.size :=
  Nat.le_trans h.depth_le h.index_lt

/-- Evaluating a node is evaluating the expression that it stands for. -/
theorem Holds.evaluateWithin (h : f.Holds id e) (hl : e.depth ≤ levels) :
    f.evaluateWithin names levels id = e.evaluate names := by
  induction h generalizing levels with
  | literal node =>
    obtain ⟨levels, rfl⟩ := Expr.exists_level hl
    simp only [Forest.evaluateWithin, node, Expr.evaluate]
  | name node =>
    obtain ⟨levels, rfl⟩ := Expr.exists_level hl
    simp only [Forest.evaluateWithin, node]
    rfl
  | assign node target _ _ ih =>
    obtain ⟨levels, rfl⟩ := Expr.exists_level hl
    simp only [Forest.evaluateWithin, node, Forest.target, target, Expr.evaluate,
      ih (Nat.le_of_succ_le_succ hl)]
  | arithmetic node _ _ _ _ ihl ihr =>
    obtain ⟨levels, rfl⟩ := Expr.exists_level hl
    have hle := Nat.max_le.mp (Nat.le_of_succ_le_succ hl)
    simp only [Forest.evaluateWithin, node, ihl hle.1, ihr hle.2]
    rfl

end Forest

end ArithJit
