import ArithJit.Machine.Processor
import Mathlib.Algebra.Group.Nat.Defs
import Mathlib.Tactic.Common

/-!
# Proofs: cells of the memory

What is loaded from memory after a store: the value that was stored if the cell is the same, the old
value if the two cells have no byte in common. Cells of a frame lie at a distance below its pointer; two
of them are apart if their distances differ by the size of a cell, also where addresses wrap around.
-/

namespace ArithJit.Machine

namespace Memory

variable {m : Memory} {x y : Word} {v : Word} {k l : Nat}

/-- No byte is both among the `k` bytes from `x` on and among the `l` bytes from `y` on. -/
def Apart (x : Word) (k : Nat) (y : Word) (l : Nat) : Prop :=
  ∀ i < k, ∀ j < l, x + BitVec.ofNat 64 i ≠ y + BitVec.ofNat 64 j

theorem add_one_add (x : Word) (i : Nat) : x + 1 + BitVec.ofNat 64 i = x + BitVec.ofNat 64 (i + 1) := by
  rw [BitVec.ofNat_add, ← BitVec.add_assoc, BitVec.add_assoc x 1, BitVec.add_comm 1,
    ← BitVec.add_assoc]
  rfl

/-- A store changes only the bytes of its cell. -/
theorem byteAt_store (h : ∀ i < k, y ≠ x + BitVec.ofNat 64 i) :
    (m.store x k v).byteAt y = m.byteAt y := by
  induction k generalizing m x v with
  | zero => rfl
  | succ k ih =>
    rw [store, ih]
    · have h0 := h 0 (by omega)
      rw [BitVec.add_zero] at h0
      simp [set, h0]
    · intro i hi
      rw [add_one_add]
      exact h (i + 1) (by omega)

theorem load_congr {m m' : Memory} (h : ∀ i < k, m.byteAt (x + BitVec.ofNat 64 i) =
    m'.byteAt (x + BitVec.ofNat 64 i)) : m.load x k = m'.load x k := by
  induction k generalizing x with
  | zero => rfl
  | succ k ih =>
    have h0 := h 0 (by omega)
    rw [BitVec.add_zero] at h0
    rw [load, load, h0, ih]
    intro i hi
    rw [add_one_add]
    exact h (i + 1) (by omega)

theorem load_store_of_apart (h : Apart y l x k) : (m.store x k v).load y l = m.load y l :=
  load_congr fun j hj => byteAt_store fun i hi => h j hj i hi

theorem load_store_self (hk : k ≤ 8) : (m.store x k v).load x k = v.toNat % 256 ^ k := by
  induction k generalizing m x v with
  | zero => simp [load, Nat.mod_one]
  | succ k ih =>
    rw [store, load, ih (by omega), byteAt_store]
    · have hlow : (BitVec.setWidth 8 v).toNat = v.toNat % 256 := by simp
      have hhigh : (v >>> 8).toNat = v.toNat / 256 := by simp [Nat.shiftRight_eq_div_pow]
      simp only [set, if_true]
      rw [hlow, hhigh, Nat.pow_succ', Nat.mod_mul]
    · intro i hi h
      rw [add_one_add] at h
      have h' : BitVec.ofNat 64 (i + 1) = 0#64 := by
        rw [← BitVec.add_right_eq_self (x := x)]
        exact h.symm
      have hn := congrArg BitVec.toNat h'
      rw [BitVec.toNat_ofNat, BitVec.toNat_ofNat, Nat.mod_eq_of_lt (by omega)] at hn
      simp at hn

theorem load_lt (m : Memory) (x : Word) (k : Nat) : m.load x k < 256 ^ k := by
  induction k generalizing x with
  | zero => simp [load]
  | succ k ih =>
    have h0 := (m.byteAt x).isLt
    have h1 := ih (x + 1)
    rw [load, Nat.pow_succ']
    omega

end Memory

/-! ## Cells of a frame -/

/-- The address at a distance below a base. -/
def below (base : Word) (distance : Nat) : Word :=
  base + BitVec.ofInt 64 (-distance)

theorem below_add (base : Word) (distance i : Nat) :
    below base distance + BitVec.ofNat 64 i = base + BitVec.ofInt 64 (i - distance) := by
  have hi : BitVec.ofNat 64 i = BitVec.ofInt 64 i := (BitVec.ofInt_natCast 64 i).symm
  rw [below, BitVec.add_assoc, hi, ← BitVec.ofInt_add]
  congr 2
  omega

/-- Cells at distances that differ by at least the size of the lower one have no byte in common. -/
theorem apart_below {base : Word} {d e k l : Nat} (hd : d ≤ 2 ^ 32) (he : e ≤ 2 ^ 32) (hk : k ≤ d)
    (hl : l ≤ e) (h : e + k ≤ d ∨ d + l ≤ e) : Memory.Apart (below base d) k (below base e) l := by
  intro i hi j hj heq
  rw [below_add, below_add, BitVec.add_right_inj] at heq
  have hn := congrArg BitVec.toNat heq
  rw [BitVec.toNat_ofInt, BitVec.toNat_ofInt] at hn
  omega

end ArithJit.Machine
