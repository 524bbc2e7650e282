import ArithJit.Proofs.BytecodeMachine
import ArithJit.Proofs.Execution
import ArithJit.Proofs.MemoryCells
import ArithJit.Proofs.SelectionSteps

/-!
# Proofs: selected code computes what bytecode computes

Bytecode and the machine code that is selected for it are executed side by side. A temporary has the
lowest 32 bits of its register, and a slot is a cell of the frame. The slots of the whole code are laid
out from the beginning, so that no step has to wait for its slot.
-/

namespace ArithJit.Machine

open Assoc (find?)

/-! ## Words of 32 bits -/

theorem setWidth_signExtend (n : BitVec 32) : (n.signExtend 64).setWidth 32 = n := by
  ext i hi
  rw [BitVec.getElem_setWidth, BitVec.getLsbD_signExtend]
  simp [hi, show i < 64 by omega]

theorem setWidth_sub (x y : Word) : (x - y).setWidth 32 = x.setWidth 32 - y.setWidth 32 := by
  rw [BitVec.sub_eq_add_neg, BitVec.sub_eq_add_neg, BitVec.setWidth_add _ _ (by omega)]
  simp [BitVec.setWidth_neg_of_le]

/-- The lowest bits of the word `x` are the integer `n`. -/
def Low (n : Int32) (x : Word) : Prop :=
  x.setWidth 32 = n.toBitVec

/-- The address of a displacement below the frame pointer. -/
theorem address_eq_below {disp : Int32} (h : disp.toInt ≤ 0) (s : State) :
    s.address .rbp disp = below (s.get .rbp) (distance disp) := by
  have hd : (-(distance disp : Int)) = disp.toInt := by
    rw [distance]
    omega
  rw [State.address, below, hd]
  rfl

/-- The contents of temporaries and slots are those of their registers and cells. -/
structure Represents (slots : List (Temp × Int32)) (s : Bytecode.State) (v : Virtual) : Prop where
  /-- A temporary has the lowest bits of its register. -/
  words : ∀ t, Low (s.words t) (v.temps t)
  /-- A slot has the word in its cell. -/
  cells : ∀ t disp, find? t slots = some disp →
    v.state.memory.load (v.state.address .rbp disp) 4 = (s.slots t).toBitVec.toNat

/-- Any contents of registers and memory are contents of temporaries and slots. -/
theorem exists_represents (slots : List (Temp × Int32)) (v : Virtual) : ∃ s, Represents slots s v := by
  refine ⟨⟨fun t => .ofBitVec ((v.temps t).setWidth 32), fun t => (find? t slots).elim 0 fun disp =>
    .ofBitVec (.ofNat 32 (v.state.memory.load (v.state.address .rbp disp) 4))⟩, fun t => rfl,
    fun t disp ht => ?_⟩
  have hlt := Memory.load_lt v.state.memory (v.state.address .rbp disp) 4
  simp only [ht]
  exact (Nat.mod_eq_of_lt hlt).symm

variable {slots : List (Temp × Int32)} {s : Bytecode.State} {v : Virtual} {o : Bytecode.Operand}
  {p : Operand} {i : Bytecode.Instruction} {out : List Instruction}

/-! ## Reading and writing operands -/

theorem Converts.narrow (h : Converts slots o p) : p.register?.any Register.isFrame = false := by
  cases h <;> rfl

/-- An operand has the same value before and after its conversion. -/
theorem Represents.value (hs : Represents slots s v) (h : Converts slots o p) :
    Option.Rel Low (s.value? o) (v.value? false p) := by
  cases h with
  | none => exact .none
  | word t => exact .some (hs.words t)
  | immediate n ty => exact .some (setWidth_signExtend n.toBitVec)
  | slot reserved =>
    refine .some ?_
    rw [Low, State.operandBytes]
    simp only [Bool.false_eq_true, if_false]
    rw [hs.cells _ _ reserved]
    simp

/-- Writing an operand has the same effect before and after its conversion. -/
theorem Represents.write {sel : Selector} (hlaid : sel.Laid) (hs : Represents sel.slots s v)
    (h : Converts sel.slots o p) {n : Int32} {x : Word} (hx : Low n x) :
    Option.Rel (Represents sel.slots) (s.write? n o) (v.write? false x p) := by
  cases h with
  | none => exact .none
  | immediate n ty => exact .none
  | word t =>
    refine .some ⟨fun u => ?_, hs.cells⟩
    by_cases hu : u = t
    · simpa [Bytecode.State.setWord, Virtual.setTemp, hu, Low] using hx
    · simpa [Bytecode.State.setWord, Virtual.setTemp, hu] using hs.words u
  | @slot t disp reserved =>
    refine .some ⟨hs.words, fun u disp' hu => ?_⟩
    obtain ⟨hneg, h4, hle⟩ := hlaid.cell t disp reserved
    obtain ⟨hneg', h4', hle'⟩ := hlaid.cell u disp' hu
    have hlimit := hlaid.limit
    rw [stackLimit] at hlimit
    by_cases hut : u = t
    · subst hut
      obtain rfl : disp' = disp := Option.some.inj (hu.symm.trans reserved)
      have hstore := Memory.load_store_self (m := v.state.memory)
        (x := v.state.address .rbp disp') (v := x) (k := 4) (by omega)
      have hlow := congrArg BitVec.toNat hx
      rw [BitVec.toNat_setWidth] at hlow
      simp only [Bytecode.State.setSlot, if_true, ← hlow]
      exact hstore
    · have hapart : Memory.Apart (v.state.address .rbp disp') 4 (v.state.address .rbp disp) 4 := by
        rw [address_eq_below hneg, address_eq_below hneg']
        exact apart_below (by omega) (by omega) h4' h4
          (hlaid.apart t u disp disp' (Ne.symm hut) reserved hu)
      simp only [Bytecode.State.setSlot, hut, if_false, ← hs.cells u disp' hu]
      exact Memory.load_store_of_apart hapart

/-! ## One instruction -/

theorem Virtual.exec?_singleton {i : Instruction} (hi : i.opcode ≠ .ret) (v : Virtual) :
    Virtual.exec? [i] v = v.step? i := by
  simp only [Virtual.exec?, hi, if_false]
  cases v.step? i <;> rfl

/-- A copy moves the value of an operand. -/
theorem Represents.mov {sel : Selector} (hlaid : sel.Laid) (hs : Represents sel.slots s v)
    {dest src : Bytecode.Operand} {a b : Operand} (ha : Converts sel.slots dest a)
    (hb : Converts sel.slots src b) (form : Form) :
    Option.Rel (Represents sel.slots) ((s.value? src).bind (s.write? · dest))
      (v.step? ⟨.mov, a, b, form⟩) := by
  have hwidth : Instruction.isWide ⟨.mov, a, b, form⟩ = false := by
    simp [Instruction.isWide, ha.narrow, hb.narrow]
  rw [Virtual.step?_mov rfl, hwidth]
  exact rel_bind (hs.value hb) fun _ _ hxy => hs.write hlaid ha hxy

/-- A machine operator computes the lowest bits of what the operator computes. -/
theorem low_arithmetic {op : Arithmetic} {opcode : Opcode} (h : Selector.arithmeticOpcode? op = some opcode) :
    ∃ f : Word → Word → Word,
      (∀ {m n x y}, Low m x → Low n y → ∃ k, op.apply? m n = some k ∧ Low k (f x y)) ∧
      ∀ (v : Virtual) (a b : Operand) (form : Form),
        v.step? ⟨opcode, a, b, form⟩ = v.combine? ⟨opcode, a, b, form⟩ f := by
  simp only [Low]
  cases op <;> simp only [Selector.arithmeticOpcode?, Option.some.injEq, reduceCtorEq] at h
  all_goals subst h
  · refine ⟨(· + ·), fun {m n _ _} hm hn => ⟨m + n, rfl, ?_⟩, fun _ _ _ _ => rfl⟩
    rw [BitVec.setWidth_add _ _ (by omega), hm, hn, Int32.toBitVec_add]
  · refine ⟨(· - ·), fun {m n _ _} hm hn => ⟨m - n, rfl, ?_⟩, fun _ _ _ _ => rfl⟩
    rw [setWidth_sub, hm, hn, Int32.toBitVec_sub]
  · refine ⟨(· * ·), fun {m n _ _} hm hn => ⟨m * n, rfl, ?_⟩, fun _ _ _ _ => rfl⟩
    rw [BitVec.setWidth_mul _ _ (by omega), hm, hn, Int32.toBitVec_mul]

section Arithmetic

variable {sel : Selector} {op : Arithmetic} {opcode : Opcode} {dest src0 src1 : Bytecode.Operand}
  {a b c : Operand}

/-- A machine operator combines its operands as the operator does. -/
theorem Represents.combine (hlaid : sel.Laid) (hs : Represents sel.slots s v)
    (hop : Selector.arithmeticOpcode? op = some opcode) (ha : Converts sel.slots dest a)
    (hc : Converts sel.slots src1 c) {m : Int32} (hm : s.value? dest = some m) (form : Form) :
    Option.Rel (Represents sel.slots)
      ((s.value? src1).bind fun n => op.apply? m n |>.bind (s.write? · dest))
      (v.step? ⟨opcode, a, c, form⟩) := by
  obtain ⟨f, hf, hstep⟩ := low_arithmetic hop
  have hwidth : Instruction.isWide ⟨opcode, a, c, form⟩ = false := by
    simp [Instruction.isWide, ha.narrow, hc.narrow]
  obtain ⟨x, hx, hmx⟩ := exists_of_rel_some (hm ▸ hs.value ha)
  rw [hstep, Virtual.combine?, hwidth]
  simp only [hx, Option.bind_eq_bind, Option.bind_some]
  refine rel_bind (hs.value hc) fun n y hny => ?_
  obtain ⟨k, hk, hlow⟩ := hf hmx hny
  rw [hk]
  exact hs.write hlaid ha hlow

/-- An operator that does not overwrite its right operand may start by copying its left operand. -/
theorem Represents.arithmetic (hlaid : sel.Laid) (hs : Represents sel.slots s v)
    (hop : Selector.arithmeticOpcode? op = some opcode) (ha : Converts sel.slots dest a)
    (hb : Converts sel.slots src0 b) (hc : Converts sel.slots src1 c)
    (hkept : ∀ t ty, dest = .register t ty → src1 ≠ .register t ty) (form form' : Form) :
    Option.Rel (Represents sel.slots)
      ((s.value? src0).bind fun m => (s.value? src1).bind fun n => op.apply? m n |>.bind (s.write? · dest))
      ((v.step? ⟨.mov, a, b, form⟩).bind (Virtual.step? · ⟨opcode, a, c, form'⟩)) := by
  have hmov := hs.mov hlaid ha hb form
  revert hmov
  generalize v.step? _ = z
  cases s.value? src0 with
  | none =>
    intro hmov
    cases hmov
    exact .none
  | some m =>
    intro hmov
    simp only [Option.bind_some] at hmov ⊢
    cases hw : s.write? m dest with
    | none =>
      rw [hw] at hmov
      cases hmov
      cases s.value? src1 with
      | none => exact .none
      | some n => cases op.apply? m n <;> simp [Bytecode.State.write?_eq_none hw]
    | some s₁ =>
      rw [hw] at hmov
      cases hmov with
      | some hs₁ =>
      -- the copy changes neither the right operand nor what a second write of the target does
      obtain ⟨t, ty, hdest⟩ := Bytecode.State.write?_eq_some hw
      have hne : src1 ≠ dest := fun h => hkept t ty hdest (h.trans hdest)
      rw [← Bytecode.State.value?_write?_of_ne hw hne]
      simp only [← Bytecode.State.write?_write? hw]
      exact hs₁.combine hlaid hop ha hc (Bytecode.State.value?_write?_self hw) form'

end Arithmetic

/-- A reservation has room for a word, and an operator does not overwrite its right operand. -/
structure Selectable (i : Bytecode.Instruction) : Prop where
  /-- A slot has at least the four bytes of a word. -/
  room : i.opcode = .push → ∀ n ty, i.src0 = .immediate n ty → 4 ≤ n.toInt
  /-- The target of an operator is not its right operand. -/
  kept : ∀ op, i.opcode = .arithmetic op → ∀ t ty, i.dest = .register t ty → i.src1 ≠ .register t ty

/-- The instructions that are selected for an instruction do what it does. -/
theorem Represents.step {sel : Selector} (hlaid : sel.Laid) (hs : Represents sel.slots s v)
    (h : Emits sel.slots i out) (hi : Selectable i) (hret : i.opcode ≠ .ret) :
    (∀ j ∈ out, j.opcode ≠ .ret) ∧
    Option.Rel (Represents sel.slots) (s.step? i) (Virtual.exec? out v) := by
  cases h with
  | noop opcode =>
    refine ⟨by simp [Instruction.nullary], ?_⟩
    simp only [Bytecode.State.step?, opcode]
    exact .some hs
  | load opcode target source legal =>
    refine ⟨by simp, ?_⟩
    rw [Virtual.exec?_singleton (by simp)]
    simp only [Bytecode.State.step?, opcode]
    exact hs.mov hlaid target source _
  | store opcode target source legal =>
    refine ⟨by simp, ?_⟩
    rw [Virtual.exec?_singleton (by simp)]
    simp only [Bytecode.State.step?, opcode]
    exact hs.mov hlaid target source _
  | @arithmetic op opcode dest left right form form' arith machine target first second =>
    have hopcode : opcode ≠ .ret := by
      cases op <;> simp [Selector.arithmeticOpcode?] at machine <;> simp [← machine]
    refine ⟨by simp [hopcode], ?_⟩
    have hexec : Virtual.exec? [⟨.mov, dest, left, form⟩, ⟨opcode, dest, right, form'⟩] v =
        (v.step? ⟨.mov, dest, left, form⟩).bind (Virtual.step? · ⟨opcode, dest, right, form'⟩) := by
      simp only [Virtual.exec?, hopcode, reduceCtorEq, if_false]
      congr
      funext u
      cases u.step? ⟨opcode, dest, right, form'⟩ <;> rfl
    rw [hexec]
    simp only [Bytecode.State.step?, arith]
    exact hs.arithmetic hlaid machine target first second (hi.kept op arith) form form'
  | result opcode => exact absurd opcode hret
  | ret opcode => exact absurd opcode hret

/-- The instructions that are selected for a return put the value into the accumulator. -/
theorem Represents.ret (hs : Represents slots s v) (h : Emits slots i out) (hret : i.opcode = .ret)
    (rest : List Instruction) :
    ∃ v', Virtual.exec? (out ++ rest) v = some v' ∧ Represents slots s v' ∧
      ∀ n, s.value? i.src0 = some n → Low n (v'.state.get .rax) := by
  cases h with
  | noop opcode => simp [opcode] at hret
  | load opcode => simp [opcode] at hret
  | store opcode => simp [opcode] at hret
  | arithmetic arith => simp [arith] at hret
  | ret opcode absent =>
    exact ⟨v, rfl, hs, fun n hn => by simp [absent, Bytecode.State.value?] at hn⟩
  | @result src form opcode present source legal =>
    have hwidth : Instruction.isWide ⟨.mov, .fixed .rax, src, form⟩ = false := by
      rw [Instruction.isWide, source.narrow]
      rfl
    obtain ⟨n, hn⟩ := s.exists_value? present
    obtain ⟨x, hx, hlow⟩ := exists_of_rel_some (hn ▸ hs.value source)
    rw [hn]
    refine ⟨{ v with state := v.state.set .rax ((x.setWidth 32).setWidth 64) }, ?_,
      ⟨hs.words, fun t disp ht => ?_⟩, fun m hm => ?_⟩
    · simp only [List.cons_append, List.nil_append, Virtual.exec?]
      rw [Virtual.step?_mov rfl, hwidth, hx]
      rfl
    · rw [State.address, State.get_set_of_ne (by decide)]
      exact hs.cells t disp ht
    · obtain rfl : n = m := Option.some.inj hm
      rw [State.get_set_self]
      simpa [Low] using hlow

/-! ## Whole pieces of code -/

/-- Selected code is executed as the bytecode is run: it leaves the same words and slots, and what is
returned is in the accumulator. -/
theorem Selector.steps_simulates {code : List Bytecode.Instruction} {sel sel' : Selector}
    (h : Selector.steps code sel = .ok () sel') (hlaid : sel.Laid) (hcode : ∀ i ∈ code, Selectable i) :
    sel'.Laid ∧ KeepsSlots sel.slots sel'.slots ∧
    ∃ out, sel'.code.toList = sel.code.toList ++ out ∧ ∀ s v, Represents sel'.slots s v →
      Option.Rel (fun r v' => Represents sel'.slots r.1 v' ∧
          ∀ n, r.2 = some n → Low n (v'.state.get .rax))
        (s.run? code) (Virtual.exec? out v) := by
  induction code generalizing sel with
  | nil =>
    obtain rfl : sel = sel' := by simpa [Selector.steps, pure, EStateM.pure] using h
    refine ⟨hlaid, fun _ _ h => h, [], by simp, fun s v hs => .some ⟨hs, fun n hn => ?_⟩⟩
    simp at hn
  | cons i code ih =>
    obtain ⟨u, hi, hrest⟩ := steps_cons_eq_ok h
    have hsel := hcode i (by simp)
    obtain ⟨hu, hkeep⟩ := hlaid.step hsel.room hi
    obtain ⟨hlaid', hkeep', out, hout, hsim⟩ := ih hrest hu fun j hj => hcode j (by simp [hj])
    refine ⟨hlaid', fun t disp ht => hkeep' t disp (hkeep t disp ht), ?_⟩
    rcases step_eq_ok hi with ⟨hop, hreserve⟩ | ⟨first, hfirst, rfl⟩
    · obtain ⟨t, bytes, ty, -, -, -, -, -, rfl⟩ := reserve_eq_ok hreserve
      refine ⟨out, hout, fun s v hs => ?_⟩
      rw [Bytecode.State.run?]
      simpa [hop, Bytecode.State.step?] using hsim s v hs
    · refine ⟨first ++ out, by rw [hout]; simp [append], fun s v hs => ?_⟩
      -- the slots of the whole code include those that the instruction was selected with
      have hemits := (hfirst.mono hkeep).mono hkeep'
      rw [Bytecode.State.run?]
      by_cases hret : i.opcode = .ret
      · obtain ⟨v', hexec, hrep, hrax⟩ := hs.ret hemits hret out
        rw [if_pos hret, hexec]
        exact .some ⟨hrep, hrax⟩
      · obtain ⟨hnoret, hstep⟩ := hs.step hlaid' hemits hsel hret
        rw [if_neg hret, Virtual.exec?_append hnoret]
        exact rel_bind hstep fun s' v' hs' => hsim s' v' hs'

end ArithJit.Machine
