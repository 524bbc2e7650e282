import ArithJit.Proofs.Expression
import ArithJit.Proofs.Levels

/-!
# Proofs: trees in a forest

A node is a tree if it is well formed, if its children are trees and if this ends after finitely many
levels. `Formed f P` says that a node is well formed and that `P` holds of its children; `TreeWithin f n` is
its `n`-th iterate, and a tree is a node at some level. A forest has no more levels than nodes, so a visit
of a tree does not reach the limit on levels (`IsTree.within_levels`).
-/

namespace ArithJit.Forest

variable {f : Forest} {id : NodeId} {P Q : NodeId → Prop} {levels : Nat}

/-- A node is well formed, and its children have a property: literals are integers, only names are
assigned to, and blocks are not empty. -/
inductive Formed (f : Forest) (P : NodeId → Prop) (id : NodeId) : Prop where
  | literal {n : Int32} (node : f.get? id = some (.literal (.integer n)))
  | name {x : Symbol} (node : f.get? id = some (.name x))
  | assign {left right : NodeId} {x : Symbol} (node : f.get? id = some (.binary left .assign right))
      (target : f.get? left = some (.name x)) (value : P right)
  | arithmetic {left right : NodeId} {op : Arithmetic}
      (node : f.get? id = some (.binary left (.arithmetic op) right)) (first : P left) (second : P right)
  | block {children : List NodeId} (node : f.get? id = some (.block children)) (nonempty : children ≠ [])
      (all : ∀ c ∈ children, P c)

theorem Formed.mono (h : f.Formed P id) (hPQ : ∀ c, P c → Q c) : f.Formed Q id := by
  cases h with
  | literal node => exact .literal node
  | name node => exact .name node
  | assign node target value => exact .assign node target (hPQ _ value)
  | arithmetic node first second => exact .arithmetic node (hPQ _ first) (hPQ _ second)
  | block node nonempty all => exact .block node nonempty fun c hc => hPQ c (all c hc)

theorem Formed.index_lt (h : f.Formed P id) : id.index < f.size := by
  cases h with
  | literal node => exact index_lt_size node
  | name node => exact index_lt_size node
  | assign node => exact index_lt_size node
  | arithmetic node => exact index_lt_size node
  | block node => exact index_lt_size node

/-- A node is a tree of at most a number of levels. -/
def TreeWithin (f : Forest) : Nat → NodeId → Prop :=
  Within f.Formed

/-- A node is a tree. -/
def IsTree (f : Forest) (id : NodeId) : Prop :=
  ∃ levels, f.TreeWithin levels id

theorem IsTree.within_levels (h : f.IsTree id) : f.TreeWithin f.levels id := by
  obtain ⟨levels, h⟩ := h
  have hmono : ∀ P Q c, f.Formed P c → (∀ d, P d → Q d) → f.Formed Q c := fun _ _ _ => Formed.mono
  have hsize : Within f.Formed f.size id := Within.within_size hmono (fun _ _ => Formed.index_lt) h
  have hle : f.size ≤ f.levels := by
    rw [Forest.levels]
    omega
  exact hsize.mono hmono hle

/-- A block occurs in the tree of a node. -/
inductive HasBlock (f : Forest) : NodeId → Prop where
  | block {id : NodeId} {children : List NodeId} (node : f.get? id = some (.block children)) :
      HasBlock f id
  | left {id left right : NodeId} {op : Operator} (node : f.get? id = some (.binary left op right))
      (inside : HasBlock f left) : HasBlock f id
  | right {id left right : NodeId} {op : Operator} (node : f.get? id = some (.binary left op right))
      (inside : HasBlock f right) : HasBlock f id

end ArithJit.Forest
