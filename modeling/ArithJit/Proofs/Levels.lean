import ArithJit.Syntax.Forest
import Mathlib.Data.Finset.Card
import Mathlib.Data.Finset.Image
import Mathlib.Data.Finset.Range

/-!
# Proofs: levels of a forest

The nodes of a forest may be numbered in any order and may share children, so a number says nothing about
what stands below a node. A kind of tree is given by a step: `step P id` says that the node `id` is as it
should be and that `P` holds of its children. `Within step n` is the `n`-th iterate, the trees of at most
`n` levels. A forest has no more levels than nodes (`Within.within_size`): a level at which no new node becomes a
tree is the last one.
-/

namespace ArithJit.Forest

/-- A node is a tree of at most a number of levels. -/
def Within (step : (NodeId → Prop) → NodeId → Prop) : Nat → NodeId → Prop
  | 0, _ => False
  | levels + 1, id => step (Within step levels) id

variable {step : (NodeId → Prop) → NodeId → Prop} {levels size : Nat} {id : NodeId}
  (hmono : ∀ (P Q : NodeId → Prop) id, step P id → (∀ c, P c → Q c) → step Q id)
include hmono

theorem Within.succ (h : Within step levels id) : Within step (levels + 1) id := by
  induction levels generalizing id with
  | zero => exact absurd h not_false
  | succ levels ih => exact hmono _ _ id h fun c hc => ih hc

theorem Within.mono {more : Nat} (h : Within step levels id) (hle : levels ≤ more) :
    Within step more id := by
  induction hle with
  | refl => exact h
  | step _ ih => exact ih.succ hmono

/-- Finitely many trees have a number of levels in common. -/
theorem exists_common {ids : List NodeId} (h : ∀ c ∈ ids, ∃ levels, Within step levels c) :
    ∃ levels, ∀ c ∈ ids, Within step levels c := by
  induction ids with
  | nil => exact ⟨0, by simp⟩
  | cons id ids ih =>
    obtain ⟨m, hm⟩ := h id (by simp)
    obtain ⟨n, hn⟩ := ih fun c hc => h c (by simp [hc])
    refine ⟨max m n, fun c hc => ?_⟩
    rcases List.mem_cons.mp hc with rfl | hc
    · exact hm.mono hmono (Nat.le_max_left m n)
    · exact (hn c hc).mono hmono (Nat.le_max_right m n)

/-- Up to any level, each level has a new tree, or no level after some has one. -/
theorem exists_trees (levels : Nat) :
    (∀ id, Within step (levels + 1) id → Within step levels id) ∨
    ∃ trees : Finset NodeId, trees.card = levels + 1 ∧ ∀ id ∈ trees, Within step (levels + 1) id := by
  induction levels with
  | zero =>
    by_cases h : ∃ id, Within step 1 id
    · obtain ⟨id, hid⟩ := h
      exact Or.inr ⟨{id}, Finset.card_singleton id, by simpa using hid⟩
    · exact Or.inl fun id hid => absurd ⟨id, hid⟩ h
  | succ levels ih =>
    rcases ih with hlast | ⟨trees, hcard, htrees⟩
    · exact Or.inl fun id hid => hmono _ _ id hid hlast
    · by_cases h : ∃ id, Within step (levels + 2) id ∧ ¬ Within step (levels + 1) id
      · obtain ⟨id, hid, hnew⟩ := h
        have hmem : id ∉ trees := fun hmem => hnew (htrees id hmem)
        refine Or.inr ⟨insert id trees, by rw [Finset.card_insert_of_notMem hmem, hcard], ?_⟩
        intro c hc
        rcases Finset.mem_insert.mp hc with rfl | hc
        · exact hid
        · exact (htrees c hc).succ hmono
      · exact Or.inl fun id hid => by_contra fun hnew => h ⟨id, hid, hnew⟩

/-- A tree has at most as many levels as there are numbers for nodes. -/
theorem Within.within_size (hlt : ∀ (P : NodeId → Prop) id, step P id → id.index < size)
    (h : Within step levels id) : Within step size id := by
  have hlast : ∀ id, Within step (size + 1) id → Within step size id := by
    refine (exists_trees hmono size).resolve_right ?_
    rintro ⟨trees, hcard, htrees⟩
    -- the trees are nodes of the forest, and there is one more than it has
    have hsub : trees.image NodeId.index ⊆ Finset.range size := by
      intro n hn
      obtain ⟨c, hc, rfl⟩ := Finset.mem_image.mp hn
      exact Finset.mem_range.mpr (hlt _ c (htrees c hc))
    have hinj : Function.Injective NodeId.index := by
      rintro ⟨m⟩ ⟨n⟩ rfl
      rfl
    have hle := Finset.card_le_card hsub
    rw [Finset.card_image_of_injective trees hinj, Finset.card_range, hcard] at hle
    omega
  induction levels generalizing id with
  | zero => exact absurd h not_false
  | succ levels ih => exact hlast id (hmono _ _ id h fun c hc => ih hc)

end ArithJit.Forest
