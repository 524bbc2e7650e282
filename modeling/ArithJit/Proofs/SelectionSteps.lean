import ArithJit.Machine.Selection
import ArithJit.Proofs.Association
import ArithJit.Proofs.Expression

/-!
# Proofs: what a step of the selection does

A step either reserves the bytes of a slot or appends instructions that depend on nothing but the
operands and the slots reserved before. The layout of the slots is an invariant: their cells lie below
the frame pointer, within the reserved bytes and apart from one another.
-/

namespace ArithJit.Machine

open Assoc (find?)

/-- The machine operand `p` stands for the bytecode operand `o`. -/
inductive Converts (slots : List (Temp × Int32)) : Bytecode.Operand → Operand → Prop where
  | none : Converts slots .none .none
  /-- The content of a slot. -/
  | slot {t : Temp} {disp : Int32} (reserved : find? t slots = some disp) :
      Converts slots (.register t .slot) (.mem .rbp disp)
  | word (t : Temp) : Converts slots (.register t .word) (.temp t)
  | immediate (n : Int32) (ty : Bytecode.Ty) : Converts slots (.immediate n ty) (.imm n)

/-- The instructions that are selected for an instruction other than a reservation. -/
inductive Emits (slots : List (Temp × Int32)) : Bytecode.Instruction → List Instruction → Prop where
  | noop {i : Bytecode.Instruction} (opcode : i.opcode = .noop) : Emits slots i [.nullary .noop]
  | load {i : Bytecode.Instruction} {dest src : Operand} {form : Form} (opcode : i.opcode = .load)
      (target : Converts slots i.dest dest) (source : Converts slots i.src0 src)
      (legal : Form.ofOperands? dest src = some form) : Emits slots i [⟨.mov, dest, src, form⟩]
  | store {i : Bytecode.Instruction} {dest src : Operand} {form : Form} (opcode : i.opcode = .store)
      (target : Converts slots i.src0 dest) (source : Converts slots i.src1 src)
      (legal : Form.ofOperands? dest src = some form) : Emits slots i [⟨.mov, dest, src, form⟩]
  /-- The left operand is copied, and the right one is combined with the copy. -/
  | arithmetic {i : Bytecode.Instruction} {op : Arithmetic} {opcode : Opcode}
      {dest left right : Operand} {form form' : Form} (arith : i.opcode = .arithmetic op)
      (machine : Selector.arithmeticOpcode? op = some opcode) (target : Converts slots i.dest dest)
      (first : Converts slots i.src0 left) (second : Converts slots i.src1 right)
      (legal : Form.ofOperands? dest left = some form) (legal' : Form.ofOperands? dest right = some form') :
      Emits slots i [⟨.mov, dest, left, form⟩, ⟨opcode, dest, right, form'⟩]
  | result {i : Bytecode.Instruction} {src : Operand} {form : Form} (opcode : i.opcode = .ret)
      (present : i.src0 ≠ .none) (source : Converts slots i.src0 src)
      (legal : Form.ofOperands? (.fixed .rax) src = some form) :
      Emits slots i [⟨.mov, .fixed .rax, src, form⟩, .nullary .ret]
  | ret {i : Bytecode.Instruction} (opcode : i.opcode = .ret) (absent : i.src0 = .none) :
      Emits slots i [.nullary .ret]

/-- All slots of `slots` are slots of `later`, at the same displacements. -/
def KeepsSlots (slots later : List (Temp × Int32)) : Prop :=
  ∀ t disp, find? t slots = some disp → find? t later = some disp

theorem Converts.mono {slots later : List (Temp × Int32)} {o : Bytecode.Operand} {p : Operand}
    (h : Converts slots o p) (hs : KeepsSlots slots later) : Converts later o p := by
  cases h with
  | none => exact .none
  | slot reserved => exact .slot (hs _ _ reserved)
  | word t => exact .word t
  | immediate n ty => exact .immediate n ty

theorem Emits.mono {slots later : List (Temp × Int32)} {i : Bytecode.Instruction}
    {out : List Instruction} (h : Emits slots i out) (hs : KeepsSlots slots later) :
    Emits later i out := by
  cases h with
  | noop opcode => exact .noop opcode
  | load opcode target source legal => exact .load opcode (target.mono hs) (source.mono hs) legal
  | store opcode target source legal => exact .store opcode (target.mono hs) (source.mono hs) legal
  | arithmetic arith machine target first second legal legal' =>
    exact .arithmetic arith machine (target.mono hs) (first.mono hs) (second.mono hs) legal legal'
  | result opcode present source legal => exact .result opcode present (source.mono hs) legal
  | ret opcode absent => exact .ret opcode absent

/-- How far below the frame pointer a displacement is. -/
def distance (disp : Int32) : Nat :=
  (-disp.toInt).toNat

theorem toInt_ofInt_neg {n : Nat} (h : n ≤ stackLimit) : (Int32.ofInt (-n : Int)).toInt = -n := by
  rw [stackLimit] at h
  exact Int32.toInt_ofInt_of_le (by omega) (by omega)

theorem distance_ofInt {n : Nat} (h : n ≤ stackLimit) : distance (Int32.ofInt (-n : Int)) = n := by
  rw [distance, toInt_ofInt_neg h]
  omega

namespace Selector

variable {s s' : Selector} {i : Bytecode.Instruction} {o : Bytecode.Operand} {p : Operand}

/-- Appends instructions. -/
def append (s : Selector) (code : List Instruction) : Selector :=
  { s with code := s.code ++ code.toArray }

theorem append_append (s : Selector) (code code' : List Instruction) :
    (s.append code).append code' = s.append (code ++ code') := by
  simp [append]

theorem convert_eq_ok : convert o s = .ok p s' ↔ s' = s ∧ Converts s.slots o p := by
  constructor
  · intro h
    cases o with
    | none =>
      obtain ⟨rfl, rfl⟩ : Operand.none = p ∧ s = s' := by simpa [convert, pure, EStateM.pure] using h
      exact ⟨rfl, .none⟩
    | immediate n ty =>
      obtain ⟨rfl, rfl⟩ : Operand.imm n = p ∧ s = s' := by simpa [convert, pure, EStateM.pure] using h
      exact ⟨rfl, .immediate n ty⟩
    | register t ty =>
      cases ty with
      | word =>
        obtain ⟨rfl, rfl⟩ : Operand.temp t = p ∧ s = s' := by
          simpa [convert, pure, EStateM.pure] using h
        exact ⟨rfl, .word t⟩
      | slot =>
        simp only [convert, bind_eq_ok] at h
        obtain ⟨u, s₁, hget, h⟩ := h
        obtain ⟨rfl, rfl⟩ : s = u ∧ s = s₁ := by simpa [get_apply] using hget
        cases hfind : find? t s.slots with
        | none => simp [hfind, fault, throw_apply] at h
        | some disp =>
          obtain ⟨rfl, rfl⟩ : Operand.mem .rbp disp = p ∧ s = s' := by
            simpa [hfind, pure, EStateM.pure] using h
          exact ⟨rfl, .slot hfind⟩
  · rintro ⟨rfl, h⟩
    cases h with
    | none => rfl
    | word t => rfl
    | immediate n ty => rfl
    | slot reserved =>
      simp [convert, bind, EStateM.bind, get_apply, reserved, pure, EStateM.pure]

theorem emit_eq_ok {opcode : Opcode} {a b : Operand} {x : Unit} :
    emit opcode a b s = .ok x s' ↔
      ∃ form, Form.ofOperands? a b = some form ∧ s' = s.append [⟨opcode, a, b, form⟩] := by
  cases h : Form.ofOperands? a b with
  | none => simp [emit, Instruction.ofOperands, h, fault, throw_apply]
  | some form => simp [emit, Instruction.ofOperands, h, modify_apply, append, eq_comm]

/-- A reservation of some bytes fails if the frame would become too large or the slot exists. -/
theorem reserve_immediate (dest : Bytecode.Operand) (t : Temp) (bytes : Int32) (ty : Bytecode.Ty)
    (ht : dest.temp? = some t) (hb : 0 < bytes) :
    reserve dest (.immediate bytes ty) s =
      if stackLimit < s.reserved + bytes.toInt.toNat then .error (.fault (.overflow .sub)) s
      else if find? t s.slots ≠ none then .error (.fault (.slotReservedTwice t)) s
      else .ok () { s with
        reserved := s.reserved + bytes.toInt.toNat
        slots := s.slots ++ [(t, Int32.ofInt (-(s.reserved + bytes.toInt.toNat : Nat)))] } := by
  have hb' : ¬ bytes ≤ 0 := fun h => absurd (Int32.lt_of_lt_of_le hb h) (Int32.lt_irrefl)
  simp only [reserve, ht, hb', if_false, bind, EStateM.bind, get_apply]
  generalize s.reserved + bytes.toInt.toNat = n
  by_cases hlimit : stackLimit < n
  · simp only [hlimit, if_true]
    rfl
  · simp only [hlimit, if_false]
    cases hfind : find? t s.slots with
    | some disp =>
      simp only [Assoc.contains, hfind, Option.isSome_some, if_true, ne_eq, reduceCtorEq, not_false_eq_true]
      rfl
    | none =>
      simp only [Assoc.contains, hfind, Option.isSome_none, Bool.false_eq_true, if_false, ne_eq,
        not_true_eq_false, Assoc.insert_eq_append hfind]
      rfl

/-- What a reservation needs and does. -/
theorem reserve_eq_ok {dest size : Bytecode.Operand} (h : reserve dest size s = .ok () s') :
    ∃ t bytes ty, dest.temp? = some t ∧ size = .immediate bytes ty ∧ 0 < bytes ∧
      s.reserved + bytes.toInt.toNat ≤ stackLimit ∧ find? t s.slots = none ∧
      s' = { s with
        reserved := s.reserved + bytes.toInt.toNat
        slots := s.slots ++ [(t, Int32.ofInt (-(s.reserved + bytes.toInt.toNat : Nat)))] } := by
  cases ht : dest.temp? with
  | none => simp [reserve, ht, fault, throw_apply] at h
  | some t =>
    cases size with
    | none => simp [reserve, ht, fault, throw_apply] at h
    | register u ty => simp [reserve, ht, fault, throw_apply] at h
    | immediate bytes ty =>
      by_cases hb : bytes ≤ 0
      · simp [reserve, ht, hb, fault, throw_apply, bind, EStateM.bind] at h
      · have hpos : 0 < bytes := by
          rw [Int32.lt_iff_toInt_lt]
          rw [Int32.le_iff_toInt_le] at hb
          omega
        rw [reserve_immediate dest t bytes ty ht hpos] at h
        split at h
        · simp at h
        · next hlimit =>
          split at h
          · simp at h
          · next hfind =>
            simp only [EStateM.Result.ok.injEq, true_and] at h
            exact ⟨t, bytes, ty, rfl, rfl, hpos, Nat.not_lt.mp hlimit, not_not.mp hfind, h.symm⟩

/-- The step of an instruction is settled by what it emits. -/
theorem step_of_emits {out : List Instruction} (h : Emits s.slots i out) :
    step i s = .ok () (s.append out) := by
  have hconvert : ∀ {o p}, Converts s.slots o p → convert o s = .ok p s :=
    fun h => convert_eq_ok.mpr ⟨rfl, h⟩
  have hemit : ∀ {opcode a b form} (u : Selector), Form.ofOperands? a b = some form →
      emit opcode a b u = .ok () (u.append [⟨opcode, a, b, form⟩]) :=
    fun u h => emit_eq_ok.mpr ⟨_, h, rfl⟩
  cases h with
  | noop opcode =>
    simp only [step, opcode]
    exact hemit s rfl
  | load opcode target source legal =>
    simp only [step, opcode, bind, EStateM.bind, hconvert target, hconvert source]
    exact hemit s legal
  | store opcode target source legal =>
    simp only [step, opcode, bind, EStateM.bind, hconvert target, hconvert source]
    exact hemit s legal
  | arithmetic arith machine target first second legal legal' =>
    simp only [step, arith, machine, bind, EStateM.bind, hconvert target, hconvert first,
      hconvert second, hemit s legal, hemit _ legal', append_append]
    rfl
  | result opcode present source legal =>
    simp only [step, opcode, Bytecode.Operand.isNone, present, decide_false, Bool.not_false, if_true,
      bind, EStateM.bind, hconvert source, hemit s legal]
    rw [hemit _ (show Form.ofOperands? .none .none = some .bare from rfl), append_append]
    rfl
  | ret opcode absent =>
    simp only [step, opcode, Bytecode.Operand.isNone, absent, decide_true, Bool.not_true,
      Bool.false_eq_true, if_false]
    exact hemit s rfl

/-- A step reserves a slot or appends instructions. -/
theorem step_eq_ok (h : step i s = .ok () s') :
    (i.opcode = .push ∧ reserve i.dest i.src0 s = .ok () s') ∨
    ∃ out, Emits s.slots i out ∧ s' = s.append out := by
  cases hop : i.opcode with
  | noop =>
    simp only [step, hop, emit_eq_ok] at h
    obtain ⟨form, hform, rfl⟩ := h
    obtain rfl : Form.bare = form := by simpa [Form.ofOperands?] using hform
    exact Or.inr ⟨_, .noop hop, rfl⟩
  | push => exact Or.inl ⟨rfl, by simpa [step, hop] using h⟩
  | load =>
    simp only [step, hop, bind_eq_ok, convert_eq_ok, emit_eq_ok] at h
    obtain ⟨dest, _, ⟨rfl, hdest⟩, src, _, ⟨rfl, hsrc⟩, form, hform, rfl⟩ := h
    exact Or.inr ⟨_, .load hop hdest hsrc hform, rfl⟩
  | store =>
    simp only [step, hop, bind_eq_ok, convert_eq_ok, emit_eq_ok] at h
    obtain ⟨dest, _, ⟨rfl, hdest⟩, src, _, ⟨rfl, hsrc⟩, form, hform, rfl⟩ := h
    exact Or.inr ⟨_, .store hop hdest hsrc hform, rfl⟩
  | arithmetic op =>
    cases hmachine : arithmeticOpcode? op with
    | none => simp [step, hop, hmachine, throw_apply] at h
    | some opcode =>
      simp only [step, hop, hmachine, bind_eq_ok, convert_eq_ok, emit_eq_ok] at h
      obtain ⟨dest, _, ⟨rfl, hdest⟩, left, _, ⟨rfl, hleft⟩, right, _, ⟨rfl, hright⟩, _, _,
        ⟨form, hform, rfl⟩, form', hform', rfl⟩ := h
      refine Or.inr ⟨_, .arithmetic hop hmachine hdest hleft hright hform hform', ?_⟩
      rw [append_append]
      rfl
  | ret =>
    by_cases habsent : i.src0 = .none
    · simp only [step, hop, Bytecode.Operand.isNone, habsent, decide_true, Bool.not_true,
        Bool.false_eq_true, if_false, emit_eq_ok] at h
      obtain ⟨form, hform, rfl⟩ := h
      obtain rfl : Form.bare = form := by simpa [Form.ofOperands?] using hform
      exact Or.inr ⟨_, .ret hop habsent, rfl⟩
    · simp only [step, hop, Bytecode.Operand.isNone, habsent, decide_false, Bool.not_false, if_true,
        bind_eq_ok, convert_eq_ok, emit_eq_ok] at h
      obtain ⟨src, _, ⟨rfl, hsrc⟩, _, _, ⟨form, hform, rfl⟩, form', hform', rfl⟩ := h
      obtain rfl : Form.bare = form' := by simpa [Form.ofOperands?] using hform'
      refine Or.inr ⟨_, .result hop habsent hsrc hform, ?_⟩
      rw [append_append]
      rfl

/-! ## The layout of the slots -/

/-- The cells of the slots lie in the reserved bytes and apart from one another. -/
structure Laid (s : Selector) : Prop where
  /-- The frame is not too large. -/
  limit : s.reserved ≤ stackLimit
  /-- A cell is a word within the reserved bytes. -/
  cell : ∀ t disp, find? t s.slots = some disp →
    disp.toInt ≤ 0 ∧ 4 ≤ distance disp ∧ distance disp ≤ s.reserved
  /-- Two cells have no byte in common. -/
  apart : ∀ t u disp disp', t ≠ u → find? t s.slots = some disp → find? u s.slots = some disp' →
    distance disp + 4 ≤ distance disp' ∨ distance disp' + 4 ≤ distance disp

theorem laid_empty : empty.Laid where
  limit := by simp [empty]
  cell t disp h := by simp [empty] at h
  apart t u disp disp' _ h := by simp [empty] at h

theorem find?_snoc {t u : Temp} {disp disp' : Int32} {slots : List (Temp × Int32)}
    (hnew : find? t slots = none) (h : find? u (slots ++ [(t, disp)]) = some disp') :
    (u = t ∧ disp' = disp) ∨ (u ≠ t ∧ find? u slots = some disp') := by
  rw [← Assoc.insert_eq_append hnew, Assoc.find?_insert] at h
  split at h
  · next hu => exact Or.inl ⟨hu, (Option.some.inj h).symm⟩
  · next hu => exact Or.inr ⟨hu, h⟩

theorem Laid.reserve (hs : s.Laid) {t : Temp} {n : Nat} (hn : 4 ≤ n)
    (hlimit : s.reserved + n ≤ stackLimit) (hnew : find? t s.slots = none) :
    Laid { s with
      reserved := s.reserved + n
      slots := s.slots ++ [(t, Int32.ofInt (-(s.reserved + n : Nat)))] } where
  limit := hlimit
  cell u disp h := by
    rcases find?_snoc hnew h with ⟨-, rfl⟩ | ⟨-, h⟩
    · rw [toInt_ofInt_neg hlimit, distance_ofInt hlimit]
      exact ⟨by omega, by omega, Nat.le_refl _⟩
    · obtain ⟨h1, h2, h3⟩ := hs.cell u disp h
      exact ⟨h1, h2, Nat.le_add_right_of_le h3⟩
  apart u w disp disp' hne hu hw := by
    -- all older cells end where the new one begins
    have hnew' := distance_ofInt hlimit
    rcases find?_snoc hnew hu with ⟨rfl, rfl⟩ | ⟨-, hu'⟩
    · rcases find?_snoc hnew hw with ⟨rfl, rfl⟩ | ⟨-, hw'⟩
      · exact absurd rfl hne
      · have := (hs.cell w disp' hw').2.2
        omega
    · rcases find?_snoc hnew hw with ⟨rfl, rfl⟩ | ⟨-, hw'⟩
      · have := (hs.cell u disp hu').2.2
        omega
      · exact hs.apart u w disp disp' hne hu' hw'

theorem keepsSlots_snoc {slots : List (Temp × Int32)} {t : Temp} {disp : Int32}
    (hnew : find? t slots = none) : KeepsSlots slots (slots ++ [(t, disp)]) := by
  intro u disp' h
  rw [← Assoc.insert_eq_append hnew, Assoc.find?_insert_of_ne, h]
  rintro rfl
  rw [hnew] at h
  simp at h

/-- A step keeps the layout, if a reservation is large enough for a word. -/
theorem Laid.step (hs : s.Laid)
    (hroom : i.opcode = .push → ∀ n ty, i.src0 = .immediate n ty → 4 ≤ n.toInt)
    (h : step i s = .ok () s') : s'.Laid ∧ KeepsSlots s.slots s'.slots := by
  rcases step_eq_ok h with ⟨hop, hreserve⟩ | ⟨out, -, rfl⟩
  · obtain ⟨t, bytes, ty, -, hsize, -, hlimit, hnew, rfl⟩ := reserve_eq_ok hreserve
    have hn := hroom hop bytes ty hsize
    exact ⟨hs.reserve (by omega) hlimit hnew, keepsSlots_snoc hnew⟩
  · exact ⟨⟨hs.limit, hs.cell, hs.apart⟩, fun _ _ h => h⟩

theorem reserved_le_frameSize {n : Nat} (h : s.frameSize = .ok n) : s.reserved ≤ n := by
  unfold frameSize at h
  split at h
  · simp at h
  · split at h
    · simp at h
    · obtain rfl := Except.ok.inj h
      omega

theorem steps_append (code code' : List Bytecode.Instruction) :
    steps (code ++ code') = (do steps code; steps code') := by
  induction code with
  | nil => simp [steps]
  | cons i code ih => simp [steps, ih]

theorem steps_cons_eq_ok {code : List Bytecode.Instruction} (h : steps (i :: code) s = .ok () s') :
    ∃ u, step i s = .ok () u ∧ steps code u = .ok () s' := by
  rw [steps, bind_eq_ok] at h
  obtain ⟨_, u, h1, h2⟩ := h
  exact ⟨u, h1, h2⟩

end Selector

theorem steps_append_singleton (code : List Bytecode.Instruction) (i : Bytecode.Instruction) :
    Selector.steps (code ++ [i]) = (do Selector.steps code; Selector.step i) := by
  rw [Selector.steps_append]
  simp [Selector.steps]

theorem steps_append_error {code more : List Bytecode.Instruction} {s : Selector} {e : Failure}
    (h : Selector.steps code .empty = .error e s) :
    Selector.steps (code ++ more) .empty = .error e s := by
  rw [Selector.steps_append]
  simp only [bind, EStateM.bind, h]

end ArithJit.Machine
