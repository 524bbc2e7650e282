import ArithJit.Proofs.AllocatedCode
import ArithJit.Proofs.SavedRegisters
import ArithJit.Proofs.SelectionProgress
import ArithJit.Proofs.UniqueDecoding

/-!
# Proofs: what a function leaves to its caller

A function that is called from any state with enough room on the stack returns with the stack pointer,
the frame pointer and the registers that belong to its caller as they were. It writes only to its frame:
the saved registers lie right below the caller's stack, and the slots lie below these.

The body of a function writes the registers that were given to temporaries, the accumulator, and cells
below the frame pointer (`InFrame`). So the body changes no register of the caller that the prologue did
not save, and no saved register on the stack.
-/

namespace ArithJit.Machine

open Assoc (find?)

/-! ## Selected code -/

/-- An instruction that can be selected: it computes or returns, and its operands stand for operands of
bytecode, or its target is the accumulator. -/
structure IsSelected (slots : List (Temp × Int32)) (i : Instruction) : Prop where
  opcode : i.opcode ∈ [.noop, .mov, .add, .sub, .imul, .ret]
  regular : i.Regular
  first : (∃ o, Converts slots o i.op0) ∨ i.op0 = .fixed .rax
  second : ∃ o, Converts slots o i.op1

theorem Converts.unallocated {slots : List (Temp × Int32)} {o : Bytecode.Operand} {p : Operand}
    (h : Converts slots o p) : p.Unallocated := by
  cases h with
  | none => exact .none
  | slot reserved => exact .mem _
  | word t => exact .temp t
  | immediate n ty => exact .imm n

theorem IsSelected.mono {slots later : List (Temp × Int32)} {i : Instruction} (h : IsSelected slots i)
    (hs : KeepsSlots slots later) : IsSelected later i where
  opcode := h.opcode
  regular := h.regular
  first := h.first.imp_left (Exists.imp fun _ ho => ho.mono hs)
  second := h.second.imp fun _ ho => ho.mono hs

theorem isSelected_nullary {slots : List (Temp × Int32)} {opcode : Opcode}
    (h : opcode ∈ [.noop, .mov, .add, .sub, .imul, .ret]) : IsSelected slots (.nullary opcode) :=
  ⟨h, rfl, Or.inl ⟨.none, .none⟩, .none, .none⟩

theorem Emits.isSelected {slots : List (Temp × Int32)} {i : Bytecode.Instruction} {j : Instruction}
    {out : List Instruction} (h : Emits slots i out) (hj : j ∈ out) : IsSelected slots j := by
  cases h with
  | noop opcode =>
    obtain rfl := List.mem_singleton.mp hj
    exact isSelected_nullary (by simp)
  | load opcode target source legal =>
    obtain rfl := List.mem_singleton.mp hj
    exact ⟨by simp, legal, Or.inl ⟨_, target⟩, _, source⟩
  | store opcode target source legal =>
    obtain rfl := List.mem_singleton.mp hj
    exact ⟨by simp, legal, Or.inl ⟨_, target⟩, _, source⟩
  | @arithmetic op opcode _ _ _ _ _ arith machine target first second legal legal' =>
    rcases List.mem_cons.mp hj with rfl | hj
    · exact ⟨by simp, legal, Or.inl ⟨_, target⟩, _, first⟩
    · obtain rfl := List.mem_singleton.mp hj
      refine ⟨?_, legal', Or.inl ⟨_, target⟩, _, second⟩
      cases op <;> simp [Selector.arithmeticOpcode?] at machine <;> simp [← machine]
  | result opcode present source legal =>
    rcases List.mem_cons.mp hj with rfl | hj
    · exact ⟨by simp, legal, Or.inr rfl, _, source⟩
    · obtain rfl := List.mem_singleton.mp hj
      exact isSelected_nullary (by simp)
  | ret opcode absent =>
    obtain rfl := List.mem_singleton.mp hj
    exact isSelected_nullary (by simp)

theorem Emits.exists_ret {slots : List (Temp × Int32)} {i : Bytecode.Instruction} {out : List Instruction}
    (h : Emits slots i out) (hi : i.opcode = .ret) : ∃ j ∈ out, j.opcode = .ret := by
  cases h with
  | noop opcode => simp [hi] at opcode
  | load opcode => simp [hi] at opcode
  | store opcode => simp [hi] at opcode
  | arithmetic arith => simp [hi] at arith
  | result => exact ⟨.nullary .ret, by simp, rfl⟩
  | ret => exact ⟨.nullary .ret, by simp, rfl⟩

namespace Selector

variable {s s' : Selector} {code : List Bytecode.Instruction}

theorem isSelected_steps (h : steps code s = .ok () s')
    (hs : ∀ j ∈ s.code.toList, IsSelected s.slots j) : ∀ j ∈ s'.code.toList, IsSelected s'.slots j := by
  induction code generalizing s with
  | nil =>
    obtain rfl : s = s' := by simpa [steps, pure, EStateM.pure] using h
    exact hs
  | cons i code ih =>
    obtain ⟨u, hstep, hrest⟩ := steps_cons_eq_ok h
    apply ih hrest
    have hkeeps := keepsSlots_step hstep
    rcases step_eq_ok hstep with ⟨-, hreserve⟩ | ⟨out, hout, rfl⟩
    · obtain ⟨t, bytes, ty, -, -, -, -, -, rfl⟩ := reserve_eq_ok hreserve
      exact fun j hj => (hs j hj).mono hkeeps
    · intro j hj
      have hmem : j ∈ s.code.toList ∨ j ∈ out := by simpa [append] using hj
      exact hmem.elim (hs j) hout.isSelected

theorem laid_steps (h : steps code s = .ok () s') (hs : s.Laid)
    (hroom : ∀ i ∈ code, i.opcode = .push → ∀ n ty, i.src0 = .immediate n ty → 4 ≤ n.toInt) :
    s'.Laid := by
  induction code generalizing s with
  | nil =>
    obtain rfl : s = s' := by simpa [steps, pure, EStateM.pure] using h
    exact hs
  | cons i code ih =>
    obtain ⟨u, hstep, hrest⟩ := steps_cons_eq_ok h
    exact ih hrest (hs.step (hroom i (by simp)) hstep).1 fun j hj => hroom j (by simp [hj])

/-- Selected code returns if the bytecode does. -/
theorem exists_ret_steps (h : steps code s = .ok () s')
    (hret : (∃ j ∈ s.code.toList, j.opcode = .ret) ∨ ∃ i ∈ code, i.opcode = .ret) :
    ∃ j ∈ s'.code.toList, j.opcode = .ret := by
  induction code generalizing s with
  | nil =>
    obtain rfl : s = s' := by simpa [steps, pure, EStateM.pure] using h
    simpa using hret
  | cons i code ih =>
    obtain ⟨u, hstep, hrest⟩ := steps_cons_eq_ok h
    apply ih hrest
    rcases step_eq_ok hstep with ⟨hop, hreserve⟩ | ⟨out, hout, rfl⟩
    · obtain ⟨t, bytes, ty, -, -, -, -, -, rfl⟩ := reserve_eq_ok hreserve
      rcases hret with hret | ⟨j, hj, hjret⟩
      · exact Or.inl hret
      · rcases List.mem_cons.mp hj with rfl | hj
        · simp [hop] at hjret
        · exact Or.inr ⟨j, hj, hjret⟩
    · have hleft : ∀ j, j ∈ s.code.toList ∨ j ∈ out → j ∈ (s.append out).code.toList := by
        intro j hj
        simpa [append] using hj
      rcases hret with ⟨j, hj, hjret⟩ | ⟨j, hj, hjret⟩
      · exact Or.inl ⟨j, hleft j (Or.inl hj), hjret⟩
      · rcases List.mem_cons.mp hj with rfl | hj
        · obtain ⟨l, hl, hlret⟩ := hout.exists_ret hjret
          exact Or.inl ⟨l, hleft l (Or.inr hl), hlret⟩
        · exact Or.inr ⟨j, hj, hjret⟩

end Selector

/-! ## The body of a function -/

namespace Allocator

variable {a b : Allocator} {n m : Allocation} {i j : Instruction} {code out : List Instruction}

/-- The instruction `j` is `i` with registers that can be given out, and the register of its target is
recorded. -/
structure Grants (m : Allocation) (i j : Instruction) : Prop extends Places i j where
  recorded : ∀ t r, i.op0 = .temp t → j.op0 = .reg ⟨some t, some r⟩ →
    r.isFrame = false ∧ find? t m.assignments = some r
  narrow : j.op1.register?.any Register.isFrame = false

theorem allocateFrom_grants (hsecond : ∀ i ∈ code, i.op1.Unallocated) (ha : a.Balanced)
    (hr : a.Recorded n) (h : a.allocateFrom n code = .ok (out, b, m)) :
    (∀ j ∈ out, ∃ i ∈ code, Grants m i j) ∧ ∀ i ∈ code, ∃ j ∈ out, Grants m i j := by
  induction code generalizing a n out with
  | nil =>
    simp only [allocateFrom, Except.ok.injEq, Prod.mk.injEq] at h
    obtain ⟨rfl, -, -⟩ := h
    simp
  | cons i rest ih =>
    obtain ⟨j, c, k, out', hstep, hrest, rfl⟩ := allocateFrom_cons_ok h
    have hi : i.op1.Unallocated := hsecond i (by simp)
    have hgrants : Grants m i j := by
      refine ⟨step_places hi hstep, ?_, ?_⟩
      all_goals obtain ⟨op0, d, k', op1, e, hfirst, hop1, -, -, rfl, -⟩ := step_ok hstep
      · intro t r hop0 hreg
        obtain ⟨q, hlive, hq⟩ := (find?_assignFirst hfirst).2.2 t hop0
        obtain rfl : q = r := by simpa [hq] using hreg
        exact ⟨(ha.assignFirst hfirst).not_frame hlive,
          assignments_of_assignFirst ha hr hfirst hstep hrest hlive⟩
      · exact (assigned_assignSecond hi hop1).narrow (ha.assignFirst hfirst) hi
    obtain ⟨hout, hcode⟩ :=
      ih (fun l hl => hsecond l (by simp [hl])) (ha.step hstep) (hr.step ha hstep) hrest
    constructor
    · intro l hl
      rcases List.mem_cons.mp hl with rfl | hl
      · exact ⟨i, by simp, hgrants⟩
      · obtain ⟨i', hi', hl'⟩ := hout l hl
        exact ⟨i', by simp [hi'], hl'⟩
    · intro l hl
      rcases List.mem_cons.mp hl with rfl | hl
      · exact ⟨j, by simp, hgrants⟩
      · obtain ⟨j', hj', hl'⟩ := hcode l hl
        exact ⟨j', by simp [hj'], hl'⟩

end Allocator

/-- An instruction of the body of a function. It does not write the frame registers, nor a register of the
caller that is not saved; what it writes to memory lies in the frame. -/
structure InFrame (size : Nat) (saved : List Register) (j : Instruction) : Prop where
  opcode : j.opcode ∈ [.noop, .mov, .add, .sub, .imul, .ret]
  regular : j.Regular
  first : ∀ r, j.op0.register? = some r → r.isFrame = false ∧ (r.isCalleeSaved = true → r ∈ saved)
  narrow : j.isWide = false
  cell : ∀ base disp, j.op0 = .mem base disp →
    base = .rbp ∧ disp.toInt ≤ 0 ∧ 4 ≤ distance disp ∧ distance disp ≤ size

theorem mem_calleeSaved {m : Allocation} {t : Temp} {r : Register}
    (ht : find? t m.assignments = some r) (hr : r.isCalleeSaved = true) : r ∈ m.calleeSaved := by
  rw [Allocation.calleeSaved, List.mem_filter, Bool.and_eq_true, List.any_eq_true]
  refine ⟨?_, hr, (t, r), Assoc.mem_of_find? ht, by simp⟩
  cases r <;> simp [Register.all]

theorem Allocator.Grants.inFrame {s : Selector} {size : Nat} {m : Allocation} {i j : Instruction}
    (h : Grants m i j) (hi : IsSelected s.slots i) (hs : s.Laid) (hsize : s.reserved ≤ size) :
    InFrame size m.calleeSaved j := by
  have hfirst : ∀ r, j.op0.register? = some r →
      r.isFrame = false ∧ (r.isCalleeSaved = true → r ∈ m.calleeSaved) := by
    intro r hr
    rcases h.first with ⟨hsame, hne⟩ | ⟨t, q, hop0, hq⟩
    · -- an operand that is not placed has a register only if it is the accumulator
      rw [hsame] at hr
      rcases hi.first with ⟨o, ho⟩ | hrax
      · cases hp : i.op0 <;> rw [hp] at ho hr hne <;> cases ho <;>
          simp [Operand.register?, Operand.asRegister?] at hr hne
      · rw [hrax] at hr
        obtain rfl : Register.rax = r := by
          simpa [Operand.register?, Operand.asRegister?, Operand.fixed] using hr
        exact ⟨rfl, by simp [Register.isCalleeSaved]⟩
    · obtain rfl : q = r := by
        simpa [hq, Operand.register?, Operand.asRegister?] using hr
      obtain ⟨hframe, hfind⟩ := h.recorded t q hop0 hq
      exact ⟨hframe, mem_calleeSaved hfind⟩
  refine ⟨h.opcode ▸ hi.opcode, h.regular hi.regular, hfirst, ?_, fun base disp hmem => ?_⟩
  · have hnarrow : j.op0.register?.any Register.isFrame = false := by
      cases hr : j.op0.register? with
      | none => rfl
      | some r => exact (hfirst r hr).1
    rw [Instruction.isWide, hnarrow, h.narrow]
    rfl
  · rcases h.first with ⟨hsame, -⟩ | ⟨t, q, -, hq⟩
    · rw [hsame] at hmem
      rcases hi.first with ⟨o, ho⟩ | hrax
      · rw [hmem] at ho
        cases ho with
        | slot reserved =>
          obtain ⟨hneg, hword, hle⟩ := hs.cell _ _ reserved
          exact ⟨rfl, hneg, hword, Nat.le_trans hle hsize⟩
      · simp [hrax, Operand.fixed] at hmem
    · simp [hq] at hmem

/-! ## Executing the body -/

namespace State

variable {s t : State} {i j : Instruction} {r : Register} {o : Operand} {wide : Bool} {v : Word}
  {size : Nat} {saved : List Register}

theorem get_write? (h : s.write? wide v o = some t) (hr : o.register? ≠ some r) : t.get r = s.get r := by
  rcases o with _ | ⟨u, _ | q⟩ | ⟨base, disp⟩ | value
  · simp [write?] at h
  · simp [write?] at h
  · have hq : r ≠ q := by
      rintro rfl
      exact hr rfl
    simp only [write?, Option.some.injEq] at h
    rw [← h, get_set_of_ne hq]
  · simp only [write?, Option.some.injEq] at h
    rw [← h]
    rfl
  · simp [write?] at h

/-- An instruction that computes writes a value to its first operand, if it has any effect. -/
theorem step?_eq_write? (hop : i.opcode ∈ [.noop, .mov, .add, .sub, .imul, .ret])
    (h : s.step? i = some t) : t = s ∨ ∃ v, s.write? i.isWide v i.op0 = some t := by
  have hcombine : ∀ f, s.combine? i f = some t → ∃ v, s.write? i.isWide v i.op0 = some t := by
    intro f hf
    simp only [combine?, Option.bind_eq_bind, Option.bind_eq_some_iff] at hf
    obtain ⟨x, -, y, -, hf⟩ := hf
    exact ⟨f x y, hf⟩
  simp only [List.mem_cons, List.not_mem_nil, or_false] at hop
  rcases hop with hop | hop | hop | hop | hop | hop
  · simp only [step?, hop, Option.some.injEq] at h
    exact Or.inl h.symm
  · rw [step?_mov hop, Option.bind_eq_some_iff] at h
    obtain ⟨v, -, h⟩ := h
    exact Or.inr ⟨v, h⟩
  · simp only [step?, hop] at h
    exact Or.inr (hcombine _ h)
  · simp only [step?, hop] at h
    exact Or.inr (hcombine _ h)
  · simp only [step?, hop] at h
    exact Or.inr (hcombine _ h)
  · simp [step?, hop] at h

theorem exists_value? (s : State) (wide : Bool) (h : o.Named) (ho : o ≠ .none) :
    ∃ v, s.value? wide o = some v := by
  rcases o with _ | ⟨u, _ | q⟩ | ⟨base, disp⟩ | value
  · exact absurd rfl ho
  · simp [Operand.Named] at h
  · exact ⟨_, rfl⟩
  · exact ⟨_, rfl⟩
  · exact ⟨_, rfl⟩

theorem exists_write? (s : State) (wide : Bool) (v : Word) (h : o.Named) (ho : o ≠ .none)
    (himm : ∀ n, o ≠ .imm n) : ∃ t, s.write? wide v o = some t := by
  rcases o with _ | ⟨u, _ | q⟩ | ⟨base, disp⟩ | value
  · exact absurd rfl ho
  · simp [Operand.Named] at h
  · exact ⟨_, rfl⟩
  · exact ⟨_, rfl⟩
  · exact absurd rfl (himm value)

/-- An instruction on two operands that can be encoded has both of them, and the first one can be
written. -/
theorem complete_of_encodable (h : i.Encodable) (hop : i.opcode ∈ [.mov, .add, .sub, .imul]) :
    i.op0 ≠ .none ∧ (∀ n, i.op0 ≠ .imm n) ∧ i.op1 ≠ .none := by
  obtain ⟨opcode, op0, op1, form⟩ := i
  have hregular : Form.ofOperands? op0 op1 = some form := h.regular
  have hpattern := h.pattern
  simp only [List.mem_cons, List.not_mem_nil, or_false] at hop
  rcases op0 with _ | x | ⟨base, disp⟩ | n <;> rcases op1 with _ | y | ⟨base', disp'⟩ | n' <;>
    simp only [Form.ofOperands?, Option.some.injEq, reduceCtorEq] at hregular
  · subst hregular
    rcases hop with rfl | rfl | rfl | rfl <;> simp [pattern?] at hpattern
  · subst hregular
    rcases hop with rfl | rfl | rfl | rfl <;> simp [pattern?] at hpattern
  all_goals simp

theorem exists_step? (s : State) (h : i.Encodable) (hop : i.opcode ∈ [.noop, .mov, .add, .sub, .imul, .ret])
    (hret : i.opcode ≠ .ret) : ∃ t, s.step? i = some t := by
  by_cases hnoop : i.opcode = .noop
  · exact ⟨s, by simp [step?, hnoop]⟩
  have hop' : i.opcode ∈ [.mov, .add, .sub, .imul] := by
    simp only [List.mem_cons, List.not_mem_nil, or_false] at hop ⊢
    tauto
  obtain ⟨hne0, himm, hne1⟩ := complete_of_encodable h hop'
  obtain ⟨x, hx⟩ := exists_value? s i.isWide h.first hne0
  obtain ⟨y, hy⟩ := exists_value? s i.isWide h.second hne1
  have hwrite := fun v => exists_write? s i.isWide v h.first hne0 himm
  simp only [List.mem_cons, List.not_mem_nil, or_false] at hop'
  rcases hop' with hop | hop | hop | hop
  · rw [step?_mov hop, hy]
    exact hwrite y
  · simp only [step?, hop, combine?, hx, hy]
    exact hwrite (x + y)
  · simp only [step?, hop, combine?, hx, hy]
    exact hwrite (x - y)
  · simp only [step?, hop, combine?, hx, hy]
    exact hwrite (x * y)

/-- What the body writes to memory lies between the frame pointer and the end of the frame. -/
theorem writesWithin_body (h : InFrame size saved j) (hroom : size ≤ (s.get .rbp).toNat) :
    WritesWithin ((s.get .rbp).toNat - size) (s.get .rbp).toNat s j := by
  rintro a ⟨x, k, hwritten, l, hl, hla⟩
  have hcell : s.cell? j.isWide j.op0 = some (x, k) := by
    have hop := h.opcode
    simp only [List.mem_cons, List.not_mem_nil, or_false] at hop
    rcases hop with hop | hop | hop | hop | hop | hop <;> simp [written?, hop] at hwritten <;>
      exact hwritten
  cases hop0 : j.op0 with
  | mem base disp =>
    obtain ⟨rfl, hneg, hword, hle⟩ := h.cell base disp hop0
    rw [hop0, h.narrow, cell?, Option.some.injEq, Prod.mk.injEq] at hcell
    obtain ⟨rfl, rfl⟩ := hcell
    have hl4 : l < 4 := hl
    rw [address_eq_below hneg] at hla
    have hstart := toNat_below (x := s.get .rbp) (d := distance disp) (by omega)
    have hlt := (s.get .rbp).isLt
    have hbounds := toNat_cell hl4 (by omega) hla
    omega
  | none => simp [hop0, cell?] at hcell
  | reg q => simp [hop0, cell?] at hcell
  | imm n => simp [hop0, cell?] at hcell

/-- Code of a body keeps the frame pointer and the registers of the caller that are not saved. -/
theorem executes_body {code : List Instruction}
    (h : ∀ j ∈ code, InFrame size saved j ∧ j.Encodable ∧ j.opcode ≠ .ret)
    (hroom : size ≤ (s.get .rbp).toNat) :
    ∃ t, Executes (WritesWithin ((s.get .rbp).toNat - size) (s.get .rbp).toNat) code s t ∧
      t.get .rbp = s.get .rbp ∧ ∀ r, r.isCalleeSaved = true → r ∉ saved → t.get r = s.get r := by
  refine exists_executes (I := fun u => u.get .rbp = s.get .rbp ∧
    ∀ r, r.isCalleeSaved = true → r ∉ saved → u.get r = s.get r) (fun j hj => ?_)
    ⟨rfl, fun r _ _ => rfl⟩
  obtain ⟨hbody, hencodable, hret⟩ := h j hj
  refine ⟨hret, fun u hu => ?_⟩
  obtain ⟨hrbp, hregs⟩ := hu
  constructor
  · rw [← hrbp] at hroom ⊢
    exact writesWithin_body hbody hroom
  · obtain ⟨t, ht⟩ := exists_step? u hencodable hbody.opcode hret
    have hkeep : ∀ r, j.op0.register? ≠ some r → t.get r = u.get r := by
      intro r hr
      rcases step?_eq_write? hbody.opcode ht with rfl | ⟨v, hv⟩
      · rfl
      · exact get_write? hv hr
    refine ⟨t, ht, ?_, fun r hr hsaved => ?_⟩
    · rw [hkeep .rbp fun hrbp' => ?_, hrbp]
      exact absurd (hbody.first .rbp hrbp').1 (by decide)
    · rw [hkeep r fun hr' => hsaved ((hbody.first r hr').2 hr), hregs r hr hsaved]

end State

/-! ## Functions -/

/-- The parts of a function. -/
theorem Function.ofBytecode_eq_ok {bytecode : List Bytecode.Instruction} {f : Function}
    (h : ofBytecode bytecode = .ok f) :
    ∃ s out a, select bytecode = .ok s ∧ s.frameSize = .ok f.frameSize ∧
      Allocator.fresh.allocate s.code.toList = .ok (out, a, f.allocation) ∧
      f.code = insertFrame out (Int32.ofNat f.frameSize) f.allocation.calleeSaved := by
  unfold ofBytecode at h
  obtain ⟨s, hselect, h⟩ := except_bind_eq_ok.mp h
  have hfunction : s.toFunction = .ok f := by
    cases hs : s.toFunction with
    | error e => simp [hs, Failure.ofFault] at h
    | ok g => simpa [hs, Failure.ofFault, Except.mapError] using h
  unfold Selector.toFunction at hfunction
  obtain ⟨size, hsize, hfunction⟩ := except_bind_eq_ok.mp hfunction
  obtain ⟨⟨out, a, n⟩, halloc, hfunction⟩ := except_bind_eq_ok.mp hfunction
  simp only [pure, Except.pure, Except.ok.injEq] at hfunction
  subst hfunction
  exact ⟨s, out, a, hselect, hsize, halloc, rfl⟩

theorem nodup_pushed_calleeSaved (a : Allocation) : (pushed a.calleeSaved).Nodup := by
  have hrbp : Register.rbp ∉ a.calleeSaved := by simp [Allocation.calleeSaved, Register.isCalleeSaved]
  have hall : Register.all.Nodup := by decide
  rw [pushed, List.nodup_append]
  refine ⟨hall.filter _, by simp, ?_⟩
  intro q hq r hr hqr
  rw [List.mem_singleton] at hr
  exact hrbp (hr ▸ hqr ▸ hq)

theorem rsp_not_mem_calleeSaved (a : Allocation) : .rsp ∉ a.calleeSaved := by
  simp [Allocation.calleeSaved, Register.isCalleeSaved]

/-- Code that returns is cut at its first return. -/
theorem exists_first_ret {code : List Instruction} (h : ∃ i ∈ code, i.opcode = .ret) :
    ∃ before i after, code = before ++ i :: after ∧ i.opcode = .ret ∧ ∀ j ∈ before, j.opcode ≠ .ret := by
  have hfind : (code.find? fun i => decide (i.opcode = .ret)).isSome = true := by
    simpa [List.find?_isSome] using h
  obtain ⟨i, hi⟩ := Option.isSome_iff_exists.mp hfind
  obtain ⟨hret, before, after, hcode, hbefore⟩ := List.find?_eq_some_iff_append.mp hi
  exact ⟨before, i, after, hcode, of_decide_eq_true hret, fun j hj => by simpa using hbefore j hj⟩

/-- An instruction writes only to the frame below `top`, which has `saved` bytes of saved registers and
then `size` bytes of slots. If its target is a memory operand, it writes to the slots. -/
def State.KeepsToFrame (top saved size : Nat) (s : State) (i : Instruction) : Prop :=
  ∀ a, s.Writes i a → top - (saved + size) ≤ a.toNat ∧ a.toNat < top ∧
    ∀ base disp, i.op0 = .mem base disp → a.toNat < top - saved

open State in
/-- A body in a frame restores the registers of the caller. -/
theorem executes_framed {body : List Instruction} {saved : List Register} {size : Nat} (k : Int32)
    (hnodup : (pushed saved).Nodup) (hrsp : .rsp ∉ saved)
    (hbody : ∀ j ∈ body, InFrame size saved j ∧ j.Encodable ∧ j.opcode ≠ .ret) (s : State)
    (hroom : 8 * (saved.length + 1) + size ≤ (s.get .rsp).toNat) :
    ∃ t, Executes (KeepsToFrame (s.get .rsp).toNat (8 * (saved.length + 1)) size)
        (prologue k saved ++ (body ++ epilogue saved)) s t ∧
      t.get .rsp = s.get .rsp ∧ t.get .rbp = s.get .rbp ∧
      ∀ r, r.isCalleeSaved = true → t.get r = s.get r := by
  obtain ⟨u, hprologue, hrbp, hregs, hstack⟩ := executes_prologue k hrsp s (by omega)
  have hrbpn : (u.get .rbp).toNat = (s.get .rsp).toNat - 8 * (saved.length + 1) := by
    rw [hrbp]
    exact toNat_below (by omega)
  obtain ⟨w, hexec, hwrbp, hwregs⟩ := executes_body hbody (s := u) (by omega)
  -- the saved registers lie above the frame pointer, where the body does not write
  have hkept : Stacked w.memory (s.get .rsp) ((pushed saved).map s.get) := by
    have hlen : ((pushed saved).map s.get).length = saved.length + 1 := by simp [pushed]
    refine hstack.congr (by omega) fun a hlow _ => ?_
    apply hexec.byteAt
    intro v j _ hj hwrite
    have := hj a hwrite
    omega
  obtain ⟨t, hepilogue, hsp, hrestored, hothers⟩ :=
    executes_epilogue hnodup hrsp (u := w) (by rw [hwrbp, hrbp]) hkept
  refine ⟨t, ?_, hsp, hrestored .rbp (by simp [pushed]), fun r hr => ?_⟩
  · refine (hprologue.mono fun v j hj hwrites a ha => ?_).append
      ((hexec.mono fun v j _ hwrites a ha => ?_).append (hepilogue.mono fun v j _ hnone a ha => ?_))
    · have hbounds := hwrites a ha
      refine ⟨by omega, hbounds.2, fun base disp hmem => ?_⟩
      rcases mem_prologue hj with ⟨r, rfl⟩ | rfl | rfl <;> simp [Instruction.unary, Operand.fixed] at hmem
    · have hbounds := hwrites a ha
      exact ⟨by omega, by omega, fun _ _ _ => by omega⟩
    · exact absurd ha (hnone a)
  · by_cases hsaved : r ∈ saved
    · exact hrestored r (List.mem_append_left _ hsaved)
    · have hrsp' : r ≠ .rsp := by
        rintro rfl
        simp [Register.isCalleeSaved] at hr
      have hrbp' : r ≠ .rbp := by
        rintro rfl
        simp [Register.isCalleeSaved] at hr
      have hpushed : r ∉ pushed saved := by simp [pushed, hsaved, hrbp']
      rw [hothers r hpushed hrsp', hwregs r hr hsaved, hregs r hrsp' hrbp']

namespace Function

variable {bytecode : List Bytecode.Instruction} {f : Function}

/-- The number of bytes on the stack that hold the saved registers, the frame pointer among them. -/
def savedBytes (f : Function) : Nat :=
  8 * (f.allocation.calleeSaved.length + 1)

/-- The body of a function of any bytecode. -/
theorem exists_body (h : ofBytecode bytecode = .ok f)
    (hroom : ∀ i ∈ bytecode, i.opcode = .push → ∀ n ty, i.src0 = .immediate n ty → 4 ≤ n.toInt)
    (hret : ∃ i ∈ bytecode, i.opcode = .ret) :
    ∃ out, f.code = insertFrame out (Int32.ofNat f.frameSize) f.allocation.calleeSaved ∧
      (∀ j ∈ out, InFrame f.frameSize f.allocation.calleeSaved j) ∧ ∃ j ∈ out, j.opcode = .ret := by
  obtain ⟨s, out, a, hselect, hsize, halloc, hcode⟩ := ofBytecode_eq_ok h
  have hsteps := select_eq_ok.mp hselect
  have hselected := Selector.isSelected_steps hsteps (by simp [Selector.empty])
  have hlaid := Selector.laid_steps hsteps Selector.laid_empty hroom
  have hsecond : ∀ i ∈ s.code.toList, i.op1.Unallocated := by
    intro i hi
    obtain ⟨o, ho⟩ := (hselected i hi).second
    exact ho.unallocated
  obtain ⟨hout, hall⟩ := Allocator.allocateFrom_grants hsecond Allocator.balanced_fresh
    (fun t r ht => by simp [Allocator.fresh] at ht) halloc
  refine ⟨out, hcode, fun j hj => ?_, ?_⟩
  · obtain ⟨i, hi, hij⟩ := hout j hj
    exact hij.inFrame (hselected i hi) hlaid (Selector.reserved_le_frameSize hsize)
  · obtain ⟨i, hi, hiret⟩ := Selector.exists_ret_steps hsteps (Or.inr hret)
    obtain ⟨j, hj, hij⟩ := hall i hi
    exact ⟨j, hj, hij.opcode.trans hiret⟩

/-- A function whose slots have room for a word, called with enough room on the stack, returns with the
stack pointer, the frame pointer and the registers of its caller as they were. All bytes outside its frame
stay, those of the caller's stack and the return address among them, and what is written to slots is apart
from the saved registers. -/
theorem caller_state_restored (h : ofBytecode bytecode = .ok f) {c : Code} (hc : f.encode = .ok c)
    (hroom : ∀ i ∈ bytecode, i.opcode = .push → ∀ n ty, i.src0 = .immediate n ty → 4 ≤ n.toInt)
    (hret : ∃ i ∈ bytecode, i.opcode = .ret) (s : State)
    (hstack : f.savedBytes + f.frameSize ≤ (s.get .rsp).toNat) :
    ∃ before i after t, f.code = before ++ i :: after ∧ i.opcode = .ret ∧
      State.Executes (State.KeepsToFrame (s.get .rsp).toNat f.savedBytes f.frameSize) before s t ∧
      s.run? c.bytes = some t ∧
      (∀ r ∈ [.rsp, .rbp, .rbx, .rsi, .rdi], t.get r = s.get r) ∧
      ∀ a : Word, a.toNat < (s.get .rsp).toNat - (f.savedBytes + f.frameSize) ∨
        (s.get .rsp).toNat ≤ a.toNat → t.memory.byteAt a = s.memory.byteAt a := by
  obtain ⟨out, hcode, hinFrame, hret⟩ := exists_body h hroom hret
  have hregular : ∀ i ∈ f.code, i.Regular := by
    intro i hi
    rw [hcode] at hi
    rcases mem_insertFrame hi with hi | hi | hi
    · exact (encodable_prologue hi).regular
    · exact (encodable_epilogue hi).regular
    · exact (hinFrame i hi).regular
  have hbytes := Code.ofInstructions_eq_ok.mp hc
  have hnamed := (exists_encodeAll_iff hregular).mp ⟨c.bytes, hbytes⟩
  obtain ⟨body, i, more, rfl, hi, hbody⟩ := exists_first_ret hret
  obtain ⟨after, hframe, -⟩ := exists_insertFrame (Int32.ofNat f.frameSize) f.allocation.calleeSaved hbody
    hi more
  rw [hframe] at hcode
  have hencodable : ∀ j ∈ body, j.Encodable := by
    intro j hj
    have hmem : j ∈ f.code := by simp [hcode, hj]
    obtain ⟨h0, h1, hpattern⟩ := hnamed j hmem
    exact ⟨hregular j hmem, h0, h1, hpattern⟩
  obtain ⟨t, hexec, hrsp, hrbp, hregs⟩ := executes_framed (Int32.ofNat f.frameSize)
    (nodup_pushed_calleeSaved f.allocation) (rsp_not_mem_calleeSaved f.allocation)
    (fun j hj => ⟨hinFrame j (by simp [hj]), hencodable j hj, hbody j hj⟩) s hstack
  refine ⟨_, i, after, t, hcode, hi, hexec, ?_, ?_, fun a ha => ?_⟩
  · rw [State.run?_encodeAll hregular ⟨i, by simp [hcode], hi⟩ hbytes, hcode, hexec.exec?]
    simp [State.exec?, hi]
  · intro r hr
    simp only [List.mem_cons, List.not_mem_nil, or_false] at hr
    rcases hr with rfl | rfl | rfl | rfl | rfl
    · exact hrsp
    · exact hrbp
    · exact hregs .rbx rfl
    · exact hregs .rsi rfl
    · exact hregs .rdi rfl
  · apply hexec.byteAt
    intro u j _ hj hwrite
    have hbounds := hj a hwrite
    simp only [savedBytes] at ha
    omega

/-- Code with a slot and four words that are live together, the last of which needs a register of the
caller. It returns twice. -/
def savingCode : List Bytecode.Instruction :=
  [{ opcode := .push, dest := .register ⟨0⟩ .slot, src0 := .immediate 4 .slot },
   { opcode := .store, src0 := .register ⟨0⟩ .slot, src1 := .immediate 7 .word },
   { opcode := .load, dest := .register ⟨1⟩ .word, src0 := .register ⟨0⟩ .slot },
   { opcode := .load, dest := .register ⟨2⟩ .word, src0 := .register ⟨0⟩ .slot },
   { opcode := .load, dest := .register ⟨3⟩ .word, src0 := .register ⟨0⟩ .slot },
   { opcode := .load, dest := .register ⟨4⟩ .word, src0 := .register ⟨0⟩ .slot },
   { opcode := .arithmetic .add, dest := .register ⟨1⟩ .word, src0 := .register ⟨2⟩ .word,
     src1 := .register ⟨3⟩ .word },
   { opcode := .ret, src0 := .register ⟨4⟩ .word },
   { opcode := .ret, src0 := .register ⟨1⟩ .word }]

theorem caller_state_restored_rbx : ∃ f c t, ofBytecode savingCode = .ok f ∧ f.encode = .ok c ∧
    f.allocation.calleeSaved = [.rbx] ∧ f.frameSize = 16 ∧
    (State.entry.set .rbx 5).run? c.bytes = some t ∧ t.get .rbx = 5 ∧ t.get .rsp = 0x7FFFFFFF0000 ∧
    ∀ a : Word, 0x7FFFFFFF0000 ≤ a.toNat → t.memory.byteAt a = 0 := by
  obtain ⟨f, hf, hsaved, hsize⟩ : ∃ f, ofBytecode savingCode = .ok f ∧
      f.allocation.calleeSaved = [.rbx] ∧ f.frameSize = 16 := ⟨_, rfl, by decide, by decide⟩
  obtain ⟨c, hc⟩ : ∃ c, f.encode = .ok c := by
    obtain rfl := Except.ok.inj hf
    exact ⟨_, rfl⟩
  have hroom : ∀ i ∈ savingCode, i.opcode = .push → ∀ n ty, i.src0 = .immediate n ty → 4 ≤ n.toInt := by
    intro i hi hop n ty hn
    simp only [savingCode, List.mem_cons, List.not_mem_nil, or_false] at hi
    rcases hi with rfl | rfl | rfl | rfl | rfl | rfl | rfl | rfl | rfl <;> simp at hop
    obtain ⟨rfl, -⟩ := Bytecode.Operand.immediate.inj hn
    decide
  have hentry : (State.entry.set .rbx 5).get .rsp = 0x7FFFFFFF0000 := by decide
  obtain ⟨-, -, -, t, -, -, -, hrun, hregs, hbytes⟩ := caller_state_restored hf hc hroom
    ⟨_, List.mem_of_getElem? (i := 7) rfl, rfl⟩ (State.entry.set .rbx 5)
    (by rw [savedBytes, hsaved, hsize, hentry]; decide)
  refine ⟨f, c, t, hf, hc, hsaved, hsize, hrun, ?_, ?_, fun a ha => ?_⟩
  · exact hregs .rbx (by simp)
  · rw [hregs .rsp (by simp), hentry]
  · rw [hbytes a (Or.inr (by rw [hentry]; exact ha))]
    rfl

end Function

end ArithJit.Machine
