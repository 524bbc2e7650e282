import ArithJit.Proofs.Programs

/-!
# Proofs: how much code a program has

The tokens of a program bound its instructions and its slots. The code for an expression holds a division
only if the expression does, and no code for an expression returns.
-/

namespace ArithJit

open Bytecode (Builder)

/-- The number of tokens of an expression, parentheses apart. -/
def Expr.size : Expr → Nat
  | literal _ => 1
  | name _ => 1
  | assign _ value => value.size + 2
  | arithmetic _ left right => left.size + right.size + 1

/-- The number of tokens of some expressions, parentheses and semicolons apart. -/
def Expr.sizeAll : List Expr → Nat
  | [] => 0
  | e :: es => e.size + sizeAll es

namespace Bytecode.Builder

variable {b b' b'' : Builder} {m m' n n' : Nat} {d d' : Bool}

/-- The builder `b'` was made from `b` by at most `m` instructions and `n` slots. None of the instructions
returns, and `d` says whether one of them divides. -/
structure Adds (b b' : Builder) (m n : Nat) (d : Bool) : Prop where
  code : ∃ more, b'.instructions = b.instructions ++ more ∧ more.length ≤ m ∧
    (∀ i ∈ more, i.opcode ≠ .ret) ∧ more.any (·.opcode = .arithmetic .div) = d
  locals : b'.locals.length ≤ b.locals.length + n

theorem Adds.refl (b : Builder) : Adds b b 0 0 false :=
  ⟨⟨[], (List.append_nil _).symm, Nat.le_refl _, by simp, rfl⟩, Nat.le_refl _⟩

theorem Adds.trans (h : Adds b b' m n d) (h' : Adds b' b'' m' n' d') :
    Adds b b'' (m + m') (n + n') (d || d') := by
  obtain ⟨⟨more, hcode, hlen, hret, hdiv⟩, hlocals⟩ := h
  obtain ⟨⟨more', hcode', hlen', hret', hdiv'⟩, hlocals'⟩ := h'
  refine ⟨⟨more ++ more', ?_, ?_, ?_, ?_⟩, ?_⟩
  · rw [hcode', hcode, List.append_assoc]
  · rw [List.length_append]
    omega
  · intro i hi
    exact (List.mem_append.mp hi).elim (hret i) (hret' i)
  · rw [List.any_append, hdiv, hdiv']
  · omega

theorem Adds.mono (h : Adds b b' m n d) (hm : m ≤ m') (hn : n ≤ n') : Adds b b' m' n' d := by
  obtain ⟨⟨more, hcode, hlen, hrest⟩, hlocals⟩ := h
  exact ⟨⟨more, hcode, Nat.le_trans hlen hm, hrest⟩, Nat.le_trans hlocals (Nat.add_le_add_left hn _)⟩

theorem adds_singleton {i : Instruction} (hcode : b'.instructions = b.instructions ++ [i])
    (hret : i.opcode ≠ .ret) (hlocals : b'.locals.length ≤ b.locals.length + n) :
    Adds b b' 1 n (i.opcode = .arithmetic .div) :=
  ⟨⟨[i], hcode, Nat.le_refl _, by simpa using hret, by simp⟩, hlocals⟩

theorem adds_slot (b : Builder) (x : Symbol) : Adds b (b.slot x).2 1 1 false := by
  rw [slot]
  split
  · exact (Adds.refl b).mono (by omega) (by omega)
  · next hnone =>
    exact adds_singleton (b.instructions_addSlot x) (by simp) (Nat.le_of_eq (b.length_addSlot hnone))

theorem adds_read (b : Builder) (o : Operand) : Adds b (b.read o).2 1 0 false := by
  rw [read]
  split
  · exact adds_singleton (b.instructions_define _) (by simp) (Nat.le_refl _)
  · exact (Adds.refl b).mono (by omega) (by omega)

theorem adds_write (b : Builder) (address value : Operand) :
    Adds b (b.write address value) 1 0 false :=
  adds_singleton (b.instructions_append _) (by simp) (Nat.le_refl _)

theorem adds_compute (b : Builder) (op : Arithmetic) (l r : Operand) :
    Adds b (b.compute op l r).2 1 0 (op = .div) := by
  have h := adds_singleton (n := 0) (b.instructions_define
    { opcode := .arithmetic op, dest := b.next .word, src0 := l, src1 := r }) (by simp) (Nat.le_refl _)
  simp only [Opcode.arithmetic.injEq] at h
  exact h

/-- The code for an expression divides if the expression does. -/
theorem adds_lower (e : Expr) (b : Builder) : Adds b (e.lower b).2 (3 * e.size) e.size e.divides := by
  induction e generalizing b with
  | literal value => exact (Adds.refl b).mono (Nat.zero_le _) (Nat.zero_le _)
  | name x => exact (b.adds_slot x).mono (by simp [Expr.size]) (by simp [Expr.size])
  | assign x value ih =>
    have h : Adds b ((Expr.assign x value).lower b).2 (1 + 3 * value.size + 1 + 1) (1 + value.size + 0 + 0)
        (false || value.divides || false || false) :=
      (((b.adds_slot x).trans (ih _)).trans (adds_read _ _)).trans (adds_write _ _ _)
    simp only [Bool.false_or, Bool.or_false] at h
    exact h.mono (by rw [Expr.size]; omega) (by rw [Expr.size]; omega)
  | arithmetic op l r ihl ihr =>
    -- both operands may have to be read from slots
    have h : Adds b ((Expr.arithmetic op l r).lower b).2 (3 * l.size + 1 + 3 * r.size + 1 + 1)
        (l.size + 0 + r.size + 0 + 0) (l.divides || false || r.divides || false || decide (op = .div)) :=
      ((((ihl b).trans (adds_read _ _)).trans (ihr _)).trans (adds_read _ _)).trans
        (adds_compute _ op _ _)
    have hdiv : (Expr.arithmetic op l r).divides =
        (l.divides || false || r.divides || false || decide (op = .div)) := by
      rw [Expr.divides, Bool.or_false, Bool.or_false, Bool.or_assoc, Bool.or_comm]
    rw [hdiv]
    exact h.mono (by rw [Expr.size]; omega) (by rw [Expr.size]; omega)

theorem adds_lowerAll (es : List Expr) (o : Operand) (b : Builder) :
    Adds b (Expr.lowerAll es o b).2 (3 * Expr.sizeAll es) (Expr.sizeAll es) (es.any Expr.divides) := by
  induction es generalizing o b with
  | nil => exact Adds.refl b
  | cons e es ih =>
    have h := (adds_lower e b).trans (ih (e.lower b).1 _)
    have hsize : Expr.sizeAll (e :: es) = e.size + Expr.sizeAll es := rfl
    rw [hsize, Nat.mul_add]
    exact h

theorem adds_bindAll (bindings : List (Symbol × Int32)) (b : Builder) :
    Adds b (bindAll bindings b) (2 * bindings.length) bindings.length false := by
  induction bindings generalizing b with
  | nil => exact Adds.refl b
  | cons binding rest ih =>
    have h : Adds b (bindAll (binding :: rest) b) (1 + 1 + 2 * rest.length) (1 + 0 + rest.length)
        (false || false || false) :=
      ((b.adds_slot binding.1).trans (adds_write _ _ _)).trans (ih _)
    exact h.mono (by rw [List.length_cons]; omega) (by rw [List.length_cons]; omega)

end Bytecode.Builder

end ArithJit
