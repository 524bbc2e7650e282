import ArithJit.Proofs.AllocationSimulation
import ArithJit.Proofs.CodeRoundTrip
import ArithJit.Proofs.Lowering
import ArithJit.Proofs.SelectionSimulation

/-!
# Proofs: the machine code of lowered expressions

The selection accepts what lowering produces. The only reasons to refuse it are a division, and slots
that need more bytes than a frame can have. The code that is selected can be given registers, and its
instructions exist.
-/

namespace ArithJit.Machine

open Assoc (find?)

/-! ## Code that is ready for allocation -/

/-- Code that computes, by instructions that exist and have all their operands. -/
structure Ready (code : List Instruction) : Prop where
  computes : Computes code
  /-- The forms of the instructions are those of their operands. -/
  regular : ∀ i ∈ code, i.Regular
  pattern : ∀ i ∈ code, (pattern? i.opcode i.form).isSome
  /-- The instructions have their operands. -/
  complete : ∀ i ∈ code, Allocator.Complete i

/-- The code mentions a temporary. -/
def Mentions (code : List Instruction) (t : Temp) : Prop :=
  ∃ i ∈ code, i.mentions t = true

/-- What can be read after the code: a constant, a temporary that the code mentions, or a cell. -/
inductive IsSource (code : List Instruction) : Operand → Prop where
  | imm (n : Int32) : IsSource code (.imm n)
  | temp {t : Temp} (mentioned : Mentions code t) : IsSource code (.temp t)
  | mem (disp : Int32) : IsSource code (.mem .rbp disp)

/-- What can be written after the code. A temporary is defined by a copy of something else; a cell is
only copied to, and not from another cell. -/
inductive IsTarget (code : List Instruction) (opcode : Opcode) (source : Operand) : Operand → Prop where
  /-- A temporary that the code mentions. -/
  | old {t : Temp} (mentioned : Mentions code t) : IsTarget code opcode source (.temp t)
  /-- A temporary that is defined. -/
  | new {t : Temp} (copy : opcode = .mov) (other : source ≠ .temp t) :
      IsTarget code opcode source (.temp t)
  | mem (disp : Int32) (copy : opcode = .mov) (other : ∀ base disp', source ≠ .mem base disp') :
      IsTarget code opcode source (.mem .rbp disp)

theorem ready_nil : Ready [] where
  computes := computes_nil
  regular := by simp
  pattern := by simp
  complete := by simp

variable {code : List Instruction} {i : Instruction} {o p : Operand} {t : Temp} {form : Form}
  {opcode : Opcode}

theorem IsSource.unallocated (h : IsSource code p) : p.Unallocated := by
  cases h with
  | imm n => exact .imm n
  | temp _ => exact .temp _
  | mem disp => exact .mem disp

theorem IsSource.mentions (h : IsSource code p) (ht : p.temp? = some t) : Mentions code t := by
  cases h with
  | imm n => simp [Operand.temp?, Operand.asRegister?] at ht
  | mem disp => simp [Operand.temp?, Operand.asRegister?] at ht
  | temp mentioned =>
    rw [Operand.temp?_temp, Option.some.injEq] at ht
    exact ht ▸ mentioned

theorem IsTarget.unallocated (h : IsTarget code opcode p o) : o.Unallocated := by
  cases h with
  | old _ => exact .temp _
  | new _ _ => exact .temp _
  | mem disp _ _ => exact .mem disp

/-- The operands are those of an instruction that exists. -/
theorem IsTarget.legal (ho : IsTarget code opcode p o) (hp : IsSource code p)
    (hop : opcode ∈ [.mov, .add, .sub, .imul]) :
    ∃ form, Form.ofOperands? o p = some form ∧ (pattern? opcode form).isSome := by
  have htemp : ∀ t, ∃ form, Form.ofOperands? (.temp t) p = some form ∧ (pattern? opcode form).isSome := by
    intro t
    simp only [List.mem_cons, List.not_mem_nil, or_false] at hop
    cases hp <;> rcases hop with rfl | rfl | rfl | rfl <;> exact ⟨_, rfl, rfl⟩
  cases ho with
  | old _ => exact htemp _
  | new _ _ => exact htemp _
  | mem disp copy other =>
    subst copy
    cases hp with
    | imm n => exact ⟨_, rfl, rfl⟩
    | temp _ => exact ⟨_, rfl, rfl⟩
    | mem disp' => exact absurd rfl (other _ disp')

/-- An instruction on a target and a source may be appended. -/
theorem Ready.snoc (h : Ready code) (opcode : Opcode) (hop : opcode ∈ [.mov, .add, .sub, .imul])
    (ho : IsTarget code opcode p o) (hp : IsSource code p) :
    ∃ form, Form.ofOperands? o p = some form ∧ Ready (code ++ [⟨opcode, o, p, form⟩]) := by
  obtain ⟨form, hlegal, hpattern⟩ := ho.legal hp hop
  have hop' : opcode ∈ [.noop, .mov, .add, .sub, .imul] := List.mem_cons_of_mem _ hop
  have hcomputes : Computes (code ++ [⟨opcode, o, p, form⟩]) := by
    refine h.computes.snoc hop' ho.unallocated hp.unallocated fun t ht => ?_
    rcases Instruction.mentions_iff.mp ht with ht | ht
    · cases ho with
      | old mentioned =>
        rw [Operand.temp?_temp, Option.some.injEq] at ht
        exact Or.inl (ht ▸ mentioned)
      | new copy other =>
        rw [Operand.temp?_temp, Option.some.injEq] at ht
        subst ht
        exact Or.inr ⟨copy, rfl, other⟩
      | mem disp _ _ => simp [Operand.temp?, Operand.asRegister?] at ht
    · exact Or.inl (hp.mentions ht)
  have hcomplete : Allocator.Complete ⟨opcode, o, p, form⟩ := by
    refine fun _ => ⟨?_, ?_, ?_⟩
    · cases ho <;> simp [Operand.temp]
    · cases ho <;> simp [Operand.temp]
    · cases hp <;> simp [Operand.temp]
  refine ⟨form, hlegal, hcomputes, fun j hj => ?_, fun j hj => ?_, fun j hj => ?_⟩
  all_goals rcases List.mem_append.mp hj with hj | hj
  · exact h.regular j hj
  · exact List.mem_singleton.mp hj ▸ hlegal
  · exact h.pattern j hj
  · exact List.mem_singleton.mp hj ▸ hpattern
  · exact h.complete j hj
  · exact List.mem_singleton.mp hj ▸ hcomplete

theorem Mentions.append_left {t : Temp} (h : Mentions code t) (more : List Instruction) :
    Mentions (code ++ more) t := by
  obtain ⟨i, hi, ht⟩ := h
  exact ⟨i, List.mem_append_left _ hi, ht⟩

theorem mentions_append {more : List Instruction} :
    Mentions (code ++ more) t ↔ Mentions code t ∨ Mentions more t := by
  simp [Mentions, or_and_right, exists_or]

theorem mentions_cons {more : List Instruction} :
    Mentions (i :: more) t ↔ i.op0.temp? = some t ∨ i.op1.temp? = some t ∨ Mentions more t := by
  simp [Mentions, Instruction.mentions_iff, or_assoc]

theorem not_mentions_nil : ¬ Mentions [] t := by
  simp [Mentions]

theorem IsSource.append (h : IsSource code p) (more : List Instruction) : IsSource (code ++ more) p := by
  cases h with
  | imm n => exact .imm n
  | temp mentioned => exact .temp (mentioned.append_left more)
  | mem disp => exact .mem disp

/-! ## Selecting lowered code -/

open Bytecode (Builder)

variable {b b' : Builder} {s : Selector} {j : Bytecode.Instruction} {out : List Instruction}
  {q : Bytecode.Operand}

/-- The selector `s` is what the selection makes of the builder `b`. -/
structure Selected (b : Builder) (s : Selector) : Prop where
  /-- The code so far is accepted. -/
  steps : Selector.steps b.instructions .empty = .ok () s
  /-- The code that is selected is ready for allocation. -/
  ready : Ready s.code.toList
  /-- The slots of the locals are reserved. -/
  slots : ∀ x t, find? x b.locals = some (.register t .slot) → ∃ disp, find? t s.slots = some disp
  /-- Slots have temporaries that were given out. -/
  given : ∀ t disp, find? t s.slots = some disp → t.index < b.temps
  /-- Each local takes four bytes. -/
  reserved : s.reserved = 4 * b.locals.length
  /-- Words that are defined are mentioned. -/
  words : ∀ i ∈ b.instructions, ∀ t, i.dest = .register t .word → Mentions s.code.toList t
  /-- What is mentioned was given out. -/
  fresh : ∀ t, Mentions s.code.toList t → t.index < b.temps
  /-- The instructions can be selected. -/
  selectable : ∀ i ∈ b.instructions, Selectable i ∧ i.opcode ≠ .arithmetic .div
  /-- An instruction becomes at most two. -/
  length : s.code.toList.length ≤ 2 * b.instructions.length

theorem selected_empty : Selected .empty .empty where
  steps := rfl
  ready := ready_nil
  slots x t h := by simp [Builder.empty] at h
  given t disp h := by simp [Selector.empty] at h
  reserved := rfl
  words i hi := by simp [Builder.empty, Builder.instructions] at hi
  fresh t h := by simp [Mentions, Selector.empty] at h
  selectable i hi := by simp [Builder.empty, Builder.instructions] at hi
  length := by simp [Selector.empty]

/-- One more instruction is selected. -/
theorem Selected.append (h : Selected b s) (hcode : b'.instructions = b.instructions ++ [j])
    (hlocals : b'.locals = b.locals) (htemps : b.temps ≤ b'.temps) (hemits : Emits s.slots j out)
    (hready : Ready (s.code.toList ++ out)) (hj : Selectable j) (hdiv : j.opcode ≠ .arithmetic .div)
    (hdest : ∀ t, j.dest = .register t .word → Mentions out t)
    (hout : ∀ t, Mentions out t → Mentions s.code.toList t ∨ t.index < b'.temps)
    (hlen : out.length ≤ 2) : Selected b' (s.append out) := by
  have hlist : (s.append out).code.toList = s.code.toList ++ out := by simp [Selector.append]
  refine ⟨?_, hlist ▸ hready, ?_, ?_, ?_, ?_, ?_, ?_, ?_⟩
  · rw [hcode, steps_append_singleton, bind_eq_ok]
    exact ⟨(), s, h.steps, Selector.step_of_emits hemits⟩
  · rw [hlocals]
    exact h.slots
  · exact fun t disp ht => Nat.lt_of_lt_of_le (h.given t disp ht) htemps
  · rw [hlocals]
    exact h.reserved
  · intro i hi t ht
    rw [hlist, mentions_append]
    rw [hcode, List.mem_append, List.mem_singleton] at hi
    rcases hi with hi | rfl
    · exact Or.inl (h.words i hi t ht)
    · exact Or.inr (hdest t ht)
  · intro t ht
    rw [hlist, mentions_append] at ht
    have hold := fun ht => Nat.lt_of_lt_of_le (h.fresh t ht) htemps
    exact ht.elim hold fun ht => (hout t ht).elim hold id
  · intro i hi
    rw [hcode, List.mem_append, List.mem_singleton] at hi
    rcases hi with hi | rfl
    · exact h.selectable i hi
    · exact ⟨hj, hdiv⟩
  · have := h.length
    rw [hlist, hcode, List.length_append, List.length_append, List.length_singleton]
    omega

/-- The operands of the code so far can be read. -/
theorem Selected.source (h : Selected b s) (hq : b.Known q) :
    ∃ p, Converts s.slots q p ∧ IsSource s.code.toList p ∧
      (q.isPointer = false → ∀ base disp, p ≠ .mem base disp) := by
  cases hq with
  | immediate n => exact ⟨_, .immediate n .word, .imm n, by simp⟩
  | word mem dest => exact ⟨_, .word _, .temp (h.words _ mem _ dest), by simp [Operand.temp]⟩
  | slot local_ =>
    obtain ⟨disp, hdisp⟩ := h.slots _ _ local_
    exact ⟨_, .slot hdisp, .mem disp, by simp [Bytecode.Operand.isPointer, Bytecode.Operand.ty?]⟩

/-- A slot is read. -/
theorem Selected.read (h : Selected b s) (hq : b.Known q) : ∃ s', Selected (b.read q).2 s' := by
  rw [Builder.read]
  split
  · next hp =>
    cases hq with
    | immediate n => simp [Bytecode.Operand.isPointer, Bytecode.Operand.ty?] at hp
    | word mem dest => simp [Bytecode.Operand.isPointer, Bytecode.Operand.ty?] at hp
    | slot local_ =>
      obtain ⟨disp, hdisp⟩ := h.slots _ _ local_
      obtain ⟨form, hlegal, hready⟩ := h.ready.snoc .mov (by simp)
        (.new (t := ⟨b.temps⟩) rfl (by simp [Operand.temp])) (.mem disp)
      refine ⟨_, h.append (b.instructions_define _) rfl (Nat.le_succ _)
        (.load rfl (.word _) (.slot hdisp) hlegal) hready ⟨by simp, by simp⟩ (by simp)
        (fun t ht => ?_) (fun t ht => ?_) (by simp)⟩
      · obtain rfl : (⟨b.temps⟩ : Temp) = t := by simpa [Builder.next] using ht
        exact mentions_cons.mpr (Or.inl rfl)
      · rcases mentions_cons.mp ht with ht | ht | ht
        · obtain rfl : (⟨b.temps⟩ : Temp) = t := Option.some.inj ht
          exact Or.inr (Nat.lt_succ_self _)
        · simp [Operand.temp?, Operand.asRegister?] at ht
        · exact absurd ht not_mentions_nil
  · exact ⟨s, h⟩

/-- A slot is written. -/
theorem Selected.write (h : Selected b s) {t : Temp} (ht : b.Known (.register t .slot))
    (hq : b.IsWord q) : ∃ s', Selected (b.write (.register t .slot) q) s' := by
  cases ht with
  | slot local_ =>
  obtain ⟨disp, hdisp⟩ := h.slots _ _ local_
  obtain ⟨p, hp, hsource, hmem⟩ := h.source hq.1
  obtain ⟨form, hlegal, hready⟩ := h.ready.snoc .mov (by simp)
    (.mem disp rfl (hmem hq.2)) hsource
  refine ⟨_, h.append (b.instructions_append _) rfl (Nat.le_refl _)
    (.store rfl (.slot hdisp) hp hlegal) hready ⟨by simp, by simp⟩ (by simp)
    (fun u hu => by simp at hu) (fun u hu => ?_) (by simp)⟩
  rcases mentions_cons.mp hu with hu | hu | hu
  · simp [Operand.temp?, Operand.asRegister?] at hu
  · exact Or.inl (hsource.mentions hu)
  · exact absurd hu not_mentions_nil

/-- Two words are combined, by an operator that has machine code. -/
theorem Selected.compute (h : Selected b s) {op : Arithmetic} (hop : op ≠ .div)
    {l r : Bytecode.Operand} (hl : b.IsWord l) (hr : b.IsWord r) :
    ∃ s', Selected (b.compute op l r).2 s' := by
  obtain ⟨opcode, hopcode, hmem⟩ : ∃ opcode, Selector.arithmeticOpcode? op = some opcode ∧
      opcode ∈ [.mov, .add, .sub, .imul] := by
    cases op
    case div => exact absurd rfl hop
    all_goals exact ⟨_, rfl, by simp⟩
  obtain ⟨p, hp, hsource, -⟩ := h.source hl.1
  obtain ⟨w, hw, hsource', -⟩ := h.source hr.1
  -- the target is a temporary that was not given out, so neither operand is it
  have hnew : ∀ {o}, IsSource s.code.toList o → o ≠ .temp ⟨b.temps⟩ := by
    rintro o ho rfl
    exact absurd (h.fresh _ (ho.mentions rfl)) (Nat.lt_irrefl _)
  obtain ⟨form, hlegal, hready⟩ := h.ready.snoc .mov (by simp) (.new rfl (hnew hsource))
    hsource
  obtain ⟨form', hlegal', hready'⟩ := hready.snoc _ hmem
    (.old (mentions_append.mpr (Or.inr (mentions_cons.mpr (Or.inl rfl))))) (hsource'.append _)
  rw [List.append_assoc] at hready'
  have hne : r ≠ b.next .word := by
    rintro rfl
    cases hw
    exact hnew hsource' rfl
  refine ⟨_, h.append (b.instructions_define _) rfl (Nat.le_succ _)
    (.arithmetic rfl hopcode (.word _) hp hw hlegal hlegal') hready'
    ⟨by simp, fun _ _ t ty ht hr => hne (hr.trans ht.symm)⟩ (by simpa using hop)
    (fun t ht => ?_) (fun t ht => ?_) (by simp)⟩
  · obtain rfl : (⟨b.temps⟩ : Temp) = t := by simpa [Builder.next] using ht
    exact mentions_cons.mpr (Or.inl rfl)
  · have htarget : (Operand.temp ⟨b.temps⟩).temp? = some t → t.index < b.temps + 1 := by
      intro ht
      obtain rfl : (⟨b.temps⟩ : Temp) = t := Option.some.inj ht
      exact Nat.lt_succ_self _
    rcases mentions_cons.mp ht with ht | ht | ht
    · exact Or.inr (htarget ht)
    · exact Or.inl (hsource.mentions ht)
    · rcases mentions_cons.mp ht with ht | ht | ht
      · exact Or.inr (htarget ht)
      · exact Or.inl (hsource'.mentions ht)
      · exact absurd ht not_mentions_nil

/-- The next temporary was not given a slot. -/
theorem Selected.find?_next (h : Selected b s) : find? ⟨b.temps⟩ s.slots = none := by
  cases hfind : find? ⟨b.temps⟩ s.slots with
  | none => rfl
  | some disp => exact absurd (h.given _ _ hfind) (Nat.lt_irrefl _)

/-- A slot takes the four bytes below those that are reserved, if there is room for them. -/
theorem Selected.steps_addSlot (h : Selected b s) (x : Symbol) :
    Selector.steps (b.addSlot x).instructions .empty =
      if stackLimit < 4 * (b.locals.length + 1) then .error (.fault (.overflow .sub)) s
      else .ok () { s with
        reserved := 4 * (b.locals.length + 1)
        slots := s.slots ++ [(⟨b.temps⟩, Int32.ofInt (-(4 * (b.locals.length + 1) : Nat)))] } := by
  have hreserve := Selector.reserve_immediate (s := s) (b.next .slot) ⟨b.temps⟩
    Bytecode.Ty.word.size .slot rfl (by decide)
  have hbytes : s.reserved + (Bytecode.Ty.word.size).toInt.toNat = 4 * (b.locals.length + 1) := by
    rw [h.reserved]
    rfl
  have hsteps : Selector.steps (b.addSlot x).instructions .empty =
      Selector.reserve (b.next .slot) (.immediate Bytecode.Ty.word.size .slot) s := by
    rw [b.instructions_addSlot, steps_append_singleton]
    simp only [bind, EStateM.bind, h.steps]
    rfl
  have hnew : ¬ find? ⟨b.temps⟩ s.slots ≠ none := not_not_intro h.find?_next
  rw [hsteps, hreserve, hbytes, if_neg hnew]

theorem Selected.addSlot (h : Selected b s) {x : Symbol} (hnone : find? x b.locals = none) {disp : Int32}
    (hsteps : Selector.steps (b.addSlot x).instructions .empty = .ok () { s with
      reserved := 4 * (b.locals.length + 1), slots := s.slots ++ [(⟨b.temps⟩, disp)] }) :
    Selected (b.addSlot x) { s with
      reserved := 4 * (b.locals.length + 1), slots := s.slots ++ [(⟨b.temps⟩, disp)] } := by
  have hnew := h.find?_next
  refine ⟨hsteps, h.ready, fun y t hy => ?_, fun t disp ht => ?_, ?_, fun i hi t ht => ?_,
    fun t ht => Nat.lt_succ_of_lt (h.fresh t ht), fun i hi => ?_, ?_⟩
  · rw [Builder.find?_addSlot] at hy
    split at hy
    · obtain rfl : (⟨b.temps⟩ : Temp) = t := by simpa [Builder.next] using hy
      exact ⟨_, by rw [← Assoc.insert_eq_append hnew, Assoc.find?_insert_self]⟩
    · obtain ⟨disp, hdisp⟩ := h.slots y t hy
      exact ⟨disp, Selector.keepsSlots_snoc hnew t disp hdisp⟩
  · rcases Selector.find?_snoc hnew ht with ⟨rfl, -⟩ | ⟨-, ht⟩
    · exact Nat.lt_succ_self _
    · exact Nat.lt_succ_of_lt (h.given t disp ht)
  · exact congrArg (4 * ·) (b.length_addSlot hnone).symm
  · rw [b.instructions_addSlot, List.mem_append, List.mem_singleton] at hi
    rcases hi with hi | rfl
    · exact h.words i hi t ht
    · simp [Builder.next] at ht
  · rw [b.instructions_addSlot, List.mem_append, List.mem_singleton] at hi
    rcases hi with hi | rfl
    · exact h.selectable i hi
    · refine ⟨⟨fun _ n ty hn => ?_, by simp⟩, by simp⟩
      obtain ⟨rfl, -⟩ : Bytecode.Ty.word.size = n ∧ Bytecode.Ty.slot = ty := by simpa using hn
      decide
  · have := h.length
    rw [b.instructions_addSlot, List.length_append, List.length_singleton]
    exact Nat.le_trans this (by omega)

/-- A name is given a slot, if there is room for it. -/
theorem Selected.slot (h : Selected b s) (x : Symbol) :
    (∃ s', Selected (b.slot x).2 s') ∨
    (stackLimit < 4 * (b.slot x).2.locals.length ∧
      ∃ s', Selector.steps (b.slot x).2.instructions .empty = .error (.fault (.overflow .sub)) s') := by
  rw [Builder.slot]
  split
  · exact Or.inl ⟨s, h⟩
  · next hnone =>
    have hsteps := h.steps_addSlot x
    by_cases hlimit : stackLimit < 4 * (b.locals.length + 1)
    · rw [if_pos hlimit] at hsteps
      exact Or.inr ⟨b.length_addSlot hnone ▸ hlimit, s, hsteps⟩
    · rw [if_neg hlimit] at hsteps
      exact Or.inl ⟨_, h.addSlot hnone hsteps⟩

/-- The selection accepts the code so far, or it meets a division, or it runs out of room. -/
def Processed (b : Builder) : Prop :=
  (∃ s, Selected b s) ∨
  ((∃ i ∈ b.instructions, i.opcode = .arithmetic .div) ∧ ∃ s, Selector.steps b.instructions .empty =
    .error (.error (.unsupportedOperation Arithmetic.div.text)) s) ∨
  (stackLimit < 4 * b.locals.length ∧
    ∃ s, Selector.steps b.instructions .empty = .error (.fault (.overflow .sub)) s)

/-- A failed selection is not mended by more code. -/
theorem Processed.grows (h : Processed b) (hg : b.Grows b') (hlocals : b.locals.length ≤ b'.locals.length)
    (hok : ∀ s, Selected b s → Processed b') : Processed b' := by
  obtain ⟨more, hmore⟩ := hg.code
  rcases h with ⟨s, hs⟩ | ⟨⟨i, hi, hdiv⟩, s, hs⟩ | ⟨hlimit, s, hs⟩
  · exact hok s hs
  · exact Or.inr (Or.inl ⟨⟨i, hg.code.subset hi, hdiv⟩, s, hmore ▸ steps_append_error hs⟩)
  · exact Or.inr (Or.inr ⟨by omega, s, hmore ▸ steps_append_error hs⟩)

theorem steps_div (h : Selected b s) {l r : Bytecode.Operand} :
    Selector.steps (b.compute .div l r).2.instructions .empty =
      .error (.error (.unsupportedOperation Arithmetic.div.text)) s := by
  rw [Builder.compute, Builder.instructions_define, steps_append_singleton]
  simp only [bind, EStateM.bind, h.steps]
  rfl

/-- Lowering is processed step by step. -/
theorem preserved_processed : Builder.Preserved Processed where
  slot {b} x _ h := by
    refine h.grows (b.grows_slot x) ?_ fun s hs => ?_
    · rw [Builder.slot]
      split
      · exact Nat.le_refl _
      · next hnone =>
        rw [b.length_addSlot hnone]
        exact Nat.le_succ _
    · exact (hs.slot x).elim Or.inl fun h => Or.inr (Or.inr h)
  read {b o} _ hk h := by
    refine h.grows (b.grows_read o) ?_ fun s hs => Or.inl (hs.read hk)
    rw [Builder.read]
    split <;> exact Nat.le_refl _
  write _ hk hw h := h.grows (Builder.grows_append _ _) (Nat.le_refl _) fun s hs => Or.inl (hs.write hk hw)
  compute {b l r} op _ hl hr h := by
    refine h.grows (Builder.grows_define _ _) (Nat.le_refl _) fun s hs => ?_
    by_cases hop : op = .div
    · subst hop
      have hdiv : ⟨.arithmetic .div, b.next .word, l, r⟩ ∈ (b.compute .div l r).2.instructions := by
        simp [Builder.compute, Builder.instructions_define]
      exact Or.inr (Or.inl ⟨⟨_, hdiv, rfl⟩, s, steps_div hs⟩)
    · exact Or.inl (hs.compute hop hl hr)

end ArithJit.Machine
