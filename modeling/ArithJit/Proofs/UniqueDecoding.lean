import ArithJit.Machine.Selection
import ArithJit.Proofs.CodeRoundTrip

/-!
# Proofs: machine code is uniquely decodable

Bytes are cut into instructions by reading one instruction after the other; each takes at least one byte,
so the reading ends. Exactly those instructions can be encoded whose operands have names and that exist,
and encoded code is read back as the code without its temporaries. So two pieces of code with the same
bytes differ in nothing but temporaries.
-/

namespace ArithJit.Machine

variable {bytes rest : List UInt8} {i : Instruction}

/-! ## Reading an instruction leaves fewer bytes -/

theorem length_readInt32 {n : Int32} (h : readInt32 bytes = some (n, rest)) :
    rest.length ≤ bytes.length := by
  unfold readInt32 at h
  split at h
  · simp only [Option.some.injEq, Prod.mk.injEq] at h
    rw [← h.2]
    simp only [List.length_cons]
    omega
  · simp at h

namespace Decoded

theorem length_fields {f : Fields} (h : fields bytes = some (f, rest)) : rest.length ≤ bytes.length := by
  cases bytes with
  | nil => simp [fields] at h
  | cons b tail =>
    have hrest : tail = rest := by
      simp only [fields] at h
      split at h
      · exact (Prod.mk.inj (Option.some.inj h)).2
      · split at h
        · exact (Prod.mk.inj (Option.some.inj h)).2
        · simp at h
    rw [← hrest]
    exact Nat.le_succ _

theorem length_baseOperand {f : Fields} {o : Operand} (h : baseOperand f bytes = some (o, rest)) :
    rest.length ≤ bytes.length := by
  unfold baseOperand at h
  split at h
  · obtain ⟨⟨disp, left⟩, hread, h⟩ := Option.map_eq_some_iff.mp h
    obtain ⟨-, rfl⟩ := Prod.mk.inj h
    exact length_readInt32 hread
  · obtain ⟨-, rfl⟩ := Prod.mk.inj (Option.some.inj h)
    exact Nat.le_refl _

theorem length_toRegister {opcode : Opcode} (h : toRegister opcode bytes = some (i, rest)) :
    rest.length ≤ bytes.length := by
  simp only [toRegister, Option.bind_eq_bind, Option.bind_eq_some_iff] at h
  obtain ⟨⟨f, left⟩, hf, ⟨o, left'⟩, ho, h⟩ := h
  obtain ⟨-, rfl⟩ := Prod.mk.inj (Option.some.inj h)
  exact Nat.le_trans (length_baseOperand ho) (length_fields hf)

theorem length_fromRegister {opcode : Opcode} (h : fromRegister opcode bytes = some (i, rest)) :
    rest.length ≤ bytes.length := by
  simp only [fromRegister, Option.bind_eq_bind, Option.bind_eq_some_iff] at h
  obtain ⟨⟨f, left⟩, hf, h⟩ := h
  split at h
  · simp only [Option.bind_eq_some_iff] at h
    obtain ⟨⟨o, left'⟩, ho, h⟩ := h
    obtain ⟨-, rfl⟩ := Prod.mk.inj (Option.some.inj h)
    exact Nat.le_trans (length_baseOperand ho) (length_fields hf)
  · simp at h

theorem length_withImmediate {opcode? : Register → Option Opcode}
    (h : withImmediate opcode? bytes = some (i, rest)) : rest.length ≤ bytes.length := by
  simp only [withImmediate, Option.bind_eq_bind, Option.bind_eq_some_iff] at h
  obtain ⟨⟨f, left⟩, hf, opcode, -, ⟨o, left'⟩, ho, ⟨n, left''⟩, hn, h⟩ := h
  obtain ⟨-, rfl⟩ := Prod.mk.inj (Option.some.inj h)
  exact Nat.le_trans (length_readInt32 hn) (Nat.le_trans (length_baseOperand ho) (length_fields hf))

theorem length_repeated (h : repeated bytes = some (i, rest)) : rest.length ≤ bytes.length := by
  simp only [repeated, Option.bind_eq_bind, Option.bind_eq_some_iff] at h
  obtain ⟨⟨f, left⟩, hf, h⟩ := h
  split at h
  · simp only [Option.bind_eq_some_iff] at h
    obtain ⟨⟨n, left'⟩, hn, h⟩ := h
    obtain ⟨-, rfl⟩ := Prod.mk.inj (Option.some.inj h)
    exact Nat.le_trans (length_readInt32 hn) (length_fields hf)
  · simp at h

theorem length_division (h : division bytes = some (i, rest)) : rest.length ≤ bytes.length := by
  simp only [division, Option.bind_eq_bind, Option.bind_eq_some_iff] at h
  obtain ⟨⟨f, left⟩, hf, h⟩ := h
  split at h
  · obtain ⟨-, rfl⟩ := Prod.mk.inj (Option.some.inj h)
    exact length_fields hf
  · simp at h

theorem length_operation (h : operation bytes = some (i, rest)) : rest.length < bytes.length := by
  unfold operation at h
  split at h
  case h_1 | h_2 =>
    obtain ⟨-, rfl⟩ := Prod.mk.inj (Option.some.inj h)
    exact Nat.lt_succ_self _
  case h_3 | h_6 | h_8 => exact Nat.lt_succ_of_le (length_fromRegister h)
  case h_4 | h_7 | h_9 => exact Nat.lt_succ_of_le (length_toRegister h)
  case h_5 | h_10 => exact Nat.lt_succ_of_le (length_withImmediate h)
  case h_11 => exact Nat.lt_succ_of_le (Nat.le_succ_of_le (length_toRegister h))
  case h_12 => exact Nat.lt_succ_of_le (length_repeated h)
  case h_13 => exact Nat.lt_succ_of_le (length_division h)
  case h_14 => simp at h

theorem of_ofWidth {wide : Bool} {d : Decoded} (h : ofWidth wide d = some (i, rest)) :
    d = some (i, rest) :=
  (Option.filter_eq_some_iff.mp h).1

end Decoded

/-- An instruction takes at least one byte. -/
theorem length_decode (h : decode bytes = some (i, rest)) : rest.length < bytes.length := by
  cases bytes with
  | nil => simp [decode] at h
  | cons b tail =>
    simp only [decode] at h
    split at h
    · exact Nat.lt_succ_of_lt (Decoded.length_operation (Decoded.of_ofWidth h))
    split at h
    · obtain ⟨-, rfl⟩ := Prod.mk.inj (Option.some.inj h)
      exact Nat.lt_succ_self _
    split at h
    · obtain ⟨-, rfl⟩ := Prod.mk.inj (Option.some.inj h)
      exact Nat.lt_succ_self _
    split at h
    · obtain ⟨⟨n, left⟩, hread, h⟩ := Option.map_eq_some_iff.mp (Decoded.of_ofWidth h)
      obtain ⟨-, rfl⟩ := Prod.mk.inj h
      exact Nat.lt_succ_of_le (length_readInt32 hread)
    · exact Decoded.length_operation (Decoded.of_ofWidth h)

/-! ## Reading all instructions -/

/-- The instructions that the bytes are made of, if they are made of instructions. -/
def decodeAll (bytes : List UInt8) : Option (List Instruction) :=
  if bytes = [] then some []
  else
    match h : decode bytes with
    | none => none
    | some (i, rest) =>
      have : rest.length < bytes.length := length_decode h
      (decodeAll rest).map (i :: ·)
termination_by bytes.length

theorem decodeAll_nil : decodeAll [] = some [] := by
  rw [decodeAll]
  rfl

theorem decodeAll_of_decode (h : decode bytes = some (i, rest)) :
    decodeAll bytes = (decodeAll rest).map (i :: ·) := by
  have hne : bytes ≠ [] := by
    rintro rfl
    simp [decode] at h
  rw [decodeAll, if_neg hne]
  split
  · next hnone => simp [hnone] at h
  · next j left hsome =>
    obtain ⟨rfl, rfl⟩ := Prod.mk.inj (Option.some.inj (hsome.symm.trans h))
    rfl

/-- Encoded code is read back as the code without its temporaries. -/
theorem decodeAll_encodeAll {code : List Instruction} (hall : ∀ i ∈ code, i.Regular)
    (h : encodeAll code = .ok bytes) : decodeAll bytes = some (code.map Instruction.erase) := by
  induction code generalizing bytes with
  | nil =>
    obtain rfl : [] = bytes := Except.ok.inj h
    exact decodeAll_nil
  | cons i code ih =>
    obtain ⟨first, others, hfirst, hothers, rfl⟩ := encodeAll_cons h
    have hread := Instruction.decode_encode (hall i (by simp)) hfirst others
    rw [decodeAll_of_decode hread, ih (fun j hj => hall j (by simp [hj])) hothers]
    rfl

/-! ## Only what has names can be encoded -/

theorem Operand.named_of_encodedRegister {o : Operand} {r : Register} (h : o.encodedRegister = .ok r) :
    o.Named := by
  cases o with
  | reg operand =>
    obtain ⟨t, q⟩ := operand
    cases q with
    | none => simp [Operand.encodedRegister] at h
    | some q => rfl
  | none => trivial
  | mem base disp => simp [Operand.encodedRegister] at h
  | imm value => trivial

theorem Operand.named_of_encodedBase {o : Operand} {r : Register} (h : o.encodedBase = .ok r) :
    o.Named := by
  cases o with
  | mem base disp => exact (Instruction.encodedBase_mem h).2
  | none => trivial
  | imm value => trivial
  | reg operand => exact Operand.named_of_encodedRegister h

namespace Instruction

theorem pattern?_isSome_of_encode (h : i.encode = .ok bytes) : (pattern? i.opcode i.form).isSome := by
  cases hp : pattern? i.opcode i.form with
  | none => simp [encode, hp] at h
  | some p => rfl

/-- The pattern tells which operands get a name; the form tells that the others need none. -/
theorem named_of_encode (hi : i.Regular) (h : i.encode = .ok bytes) : i.op0.Named ∧ i.op1.Named := by
  obtain ⟨opcode, op0, op1, form⟩ := i
  cases op0 <;> cases op1 <;>
    simp only [Regular, Form.ofOperands?, Option.some.injEq, reduceCtorEq] at hi
  all_goals
    subst hi
    cases opcode <;> simp only [encode, pattern?, reduceCtorEq] at h
  case none.none.noop | none.none.ret => exact ⟨trivial, trivial⟩
  case reg.none.push | reg.none.pop | reg.imm.imul =>
    obtain ⟨r, hr, -⟩ := except_bind_eq_ok.mp h
    exact ⟨Operand.named_of_encodedRegister hr, trivial⟩
  case reg.none.idiv | reg.imm.mov | reg.imm.add | reg.imm.sub | mem.imm.mov | mem.imm.add | mem.imm.sub =>
    obtain ⟨b, hb, -⟩ := except_bind_eq_ok.mp h
    exact ⟨Operand.named_of_encodedBase hb, trivial⟩
  case mem.reg.mov | mem.reg.add | mem.reg.sub =>
    obtain ⟨r, hr, h⟩ := except_bind_eq_ok.mp h
    obtain ⟨b, hb, -⟩ := except_bind_eq_ok.mp h
    exact ⟨Operand.named_of_encodedBase hb, Operand.named_of_encodedRegister hr⟩
  all_goals
    obtain ⟨r, hr, h⟩ := except_bind_eq_ok.mp h
    obtain ⟨b, hb, -⟩ := except_bind_eq_ok.mp h
    exact ⟨Operand.named_of_encodedRegister hr, Operand.named_of_encodedBase hb⟩

theorem exists_encode_iff (hi : i.Regular) :
    (∃ bytes, i.encode = .ok bytes) ↔ i.op0.Named ∧ i.op1.Named ∧ (pattern? i.opcode i.form).isSome := by
  constructor
  · rintro ⟨bytes, h⟩
    obtain ⟨h0, h1⟩ := named_of_encode hi h
    exact ⟨h0, h1, pattern?_isSome_of_encode h⟩
  · rintro ⟨h0, h1, hp⟩
    obtain ⟨bytes, h, -⟩ := (⟨hi, h0, h1, hp⟩ : i.Encodable).encode
    exact ⟨bytes, h⟩

/-- What is made of two operands has their form. -/
theorem regular_of_ofOperands (h : ofOperands i.opcode i.op0 i.op1 = .ok i) : i.Regular := by
  unfold ofOperands at h
  split at h
  · next form hform =>
    have hf : form = i.form := congrArg Instruction.form (Except.ok.inj h)
    rw [Regular, hform, hf]
  · simp at h

end Instruction

theorem exists_encodeAll_iff {code : List Instruction} (hall : ∀ i ∈ code, i.Regular) :
    (∃ bytes, encodeAll code = .ok bytes) ↔
      ∀ i ∈ code, i.op0.Named ∧ i.op1.Named ∧ (pattern? i.opcode i.form).isSome := by
  constructor
  · rintro ⟨bytes, h⟩
    induction code generalizing bytes with
    | nil => simp
    | cons i code ih =>
      obtain ⟨first, others, hfirst, hothers, rfl⟩ := encodeAll_cons h
      have hi := (Instruction.exists_encode_iff (hall i (by simp))).mp ⟨first, hfirst⟩
      have hrest := ih (fun j hj => hall j (by simp [hj])) others hothers
      intro j hj
      rcases List.mem_cons.mp hj with rfl | hj
      · exact hi
      · exact hrest j hj
  · intro h
    have hencodable : ∀ i ∈ code, i.Encodable :=
      fun i hi => ⟨hall i hi, (h i hi).1, (h i hi).2.1, (h i hi).2.2⟩
    obtain ⟨bytes, hbytes, -⟩ := exists_encodeAll hencodable
    exact ⟨bytes, hbytes⟩

theorem Code.ofInstructions_eq_ok {code : List Instruction} {c : Code} :
    Code.ofInstructions code = .ok c ↔ encodeAll code = .ok c.bytes := by
  unfold Code.ofInstructions
  rw [except_bind_eq_ok]
  constructor
  · rintro ⟨bytes, hbytes, h⟩
    obtain rfl : (⟨bytes⟩ : Code) = c := Except.ok.inj h
    exact hbytes
  · intro h
    exact ⟨c.bytes, h, rfl⟩

/-- Code made of instructions with legal operands can be encoded exactly if all registers are known, no
memory is addressed by the stack pointer and all instructions exist; its bytes are read back as the code
without its temporaries, and no other code has them. -/
theorem code_uniquely_decodable {code : List Instruction}
    (hcode : ∀ i ∈ code, Instruction.ofOperands i.opcode i.op0 i.op1 = .ok i) :
    ((∃ c, Code.ofInstructions code = .ok c) ↔
      ∀ i ∈ code, i.op0.Named ∧ i.op1.Named ∧ (pattern? i.opcode i.form).isSome) ∧
    ∀ c, Code.ofInstructions code = .ok c →
      decodeAll c.bytes = some (code.map Instruction.erase) ∧
      ∀ other : List Instruction, (∀ i ∈ other, Instruction.ofOperands i.opcode i.op0 i.op1 = .ok i) →
        Code.ofInstructions other = .ok c → other.map Instruction.erase = code.map Instruction.erase := by
  have hregular : ∀ {code : List Instruction},
      (∀ i ∈ code, Instruction.ofOperands i.opcode i.op0 i.op1 = .ok i) → ∀ i ∈ code, i.Regular :=
    fun h i hi => Instruction.regular_of_ofOperands (h i hi)
  refine ⟨?_, fun c hc => ?_⟩
  · rw [← exists_encodeAll_iff (hregular hcode)]
    constructor
    · rintro ⟨c, hc⟩
      exact ⟨c.bytes, Code.ofInstructions_eq_ok.mp hc⟩
    · rintro ⟨bytes, hbytes⟩
      exact ⟨⟨bytes⟩, Code.ofInstructions_eq_ok.mpr hbytes⟩
  · have hread := decodeAll_encodeAll (hregular hcode) (Code.ofInstructions_eq_ok.mp hc)
    refine ⟨hread, fun other hother hc' => ?_⟩
    have hread' := decodeAll_encodeAll (hregular hother) (Code.ofInstructions_eq_ok.mp hc')
    exact Option.some.inj (hread'.symm.trans hread)

/-- Code with and without the prefix, a temporary and all kinds of operands. -/
def mixedCode : List Instruction :=
  [.unary .push .rbp, ⟨.mov, .fixed .rbp, .fixed .rsp, .rr⟩, ⟨.sub, .fixed .rsp, .imm 16, .ri⟩,
   ⟨.mov, .reg ⟨some ⟨3⟩, some .rdi⟩, .mem .rbp (-4), .rm⟩, ⟨.imul, .fixed .rdi, .imm (-7), .ri⟩,
   ⟨.add, .mem .rbp (-8), .fixed .rdi, .mr⟩, ⟨.sub, .mem .rbp (-8), .imm 1, .mi⟩,
   .unary .idiv .rsi, .unary .pop .rbp, .nullary .noop, .nullary .ret]

theorem code_uniquely_decodable_mixed :
    (∀ i ∈ mixedCode, Instruction.ofOperands i.opcode i.op0 i.op1 = .ok i) ∧
    ∃ c, Code.ofInstructions mixedCode = .ok c ∧
      decodeAll c.bytes = some (mixedCode.map Instruction.erase) := by
  have hcode : ∀ i ∈ mixedCode, Instruction.ofOperands i.opcode i.op0 i.op1 = .ok i := by
    intro i hi
    simp only [mixedCode, List.mem_cons, List.not_mem_nil, or_false] at hi
    rcases hi with rfl | rfl | rfl | rfl | rfl | rfl | rfl | rfl | rfl | rfl | rfl <;> rfl
  refine ⟨hcode, _, rfl, ?_⟩
  exact ((code_uniquely_decodable hcode).2 _ rfl).1

end ArithJit.Machine
