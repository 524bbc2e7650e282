import ArithJit.Proofs.Execution
import Mathlib.Tactic.Common

/-!
# Proofs: the processor reads back what the encoder writes

Decoding the bytes of an instruction gives the instruction itself, apart from the temporaries that its
operands stood for, and leaves the bytes after it untouched. So a piece of encoded code is read back
instruction by instruction, whatever follows it.
-/

namespace ArithJit.Machine

/-! ## Constants and operand bytes -/

theorem toNat_byte (n : Nat) : (byte n).toNat = n % 256 := rfl

theorem ofNat_toUInt32 (n : Int32) : Int32.ofNat n.toUInt32.toNat = n := by
  rw [← UInt32.toInt32_ofNat']
  simp

@[simp]
theorem readInt32_littleEndian (n : Int32) (rest : List UInt8) :
    readInt32 (littleEndian n ++ rest) = some (n, rest) := by
  have hw : n.toUInt32.toNat < 2 ^ 32 := n.toUInt32.toNat_lt
  have hsum : n.toUInt32.toNat % 256 + 0x100 * (n.toUInt32.toNat / 0x100 % 256)
      + 0x10000 * (n.toUInt32.toNat / 0x10000 % 256) + 0x1000000 * (n.toUInt32.toNat / 0x1000000 % 256)
      = n.toUInt32.toNat := by omega
  simp only [littleEndian, readInt32, List.cons_append, List.nil_append, toNat_byte, hsum,
    ofNat_toUInt32]

/-- The operand `o` as the processor knows it, without the temporary. -/
def Operand.erase : Operand → Operand
  | .reg ⟨_, r⟩ => .reg ⟨.none, r⟩
  | o => o

/-- The instruction `i` as the processor knows it, without temporaries. -/
def Instruction.erase (i : Instruction) : Instruction :=
  { i with op0 := i.op0.erase, op1 := i.op1.erase }

@[simp]
theorem Operand.register?_erase (o : Operand) : o.erase.register? = o.register? := by
  cases o <;> rfl

@[simp]
theorem Instruction.isWide_erase (i : Instruction) : i.erase.isWide = i.isWide := by
  simp [isWide, erase]

/-- The form of the instruction is that of its operands. -/
def Instruction.Regular (i : Instruction) : Prop :=
  Form.ofOperands? i.op0 i.op1 = some i.form

namespace Decoded

theorem registerOf_eq {n : Nat} {r : Fin 8} (h : n % 8 = r.val) : registerOf n = .ofNumber r := by
  rw [registerOf]
  congr 1
  exact Fin.ext h

theorem registerOf_register (mode : Nat) (register base : Register) :
    registerOf ((mode * 64 + register.number.val * 8 + base.number.val) / 8) = register := by
  have hr := register.number.isLt
  have hb := base.number.isLt
  rw [registerOf_eq (r := register.number) (by omega), Register.ofNumber_number]

theorem registerOf_base (mode : Nat) (register base : Register) :
    registerOf (mode * 64 + register.number.val * 8 + base.number.val) = base := by
  have hb := base.number.isLt
  rw [registerOf_eq (r := base.number) (by omega), Register.ofNumber_number]

/-- The fields of an operand byte are those that it was made of. -/
theorem fields_operandByte (form : Form) (register base : Register)
    (h : form.hasMemory = true → base ≠ .rsp) (rest : List UInt8) :
    fields (Instruction.operandByte form register.number base.number :: rest) =
      some (⟨form.hasMemory, register, base⟩, rest) := by
  have hr := register.number.isLt
  have hb := base.number.isLt
  cases hm : form.hasMemory with
  | true =>
    have hn : (Instruction.operandByte form register.number base.number).toNat =
        2 * 64 + register.number.val * 8 + base.number.val := by
      simp only [Instruction.operandByte, hm, if_true, toNat_byte]
      omega
    have hmode : (2 * 64 + register.number.val * 8 + base.number.val) / 64 = 2 := by omega
    simp only [fields, hn, registerOf_register, registerOf_base, hmode]
    simp [h hm]
  | false =>
    have hn : (Instruction.operandByte form register.number base.number).toNat =
        3 * 64 + register.number.val * 8 + base.number.val := by
      simp only [Instruction.operandByte, hm, Bool.false_eq_true, if_false, toNat_byte]
      omega
    have hmode : (3 * 64 + register.number.val * 8 + base.number.val) / 64 = 3 := by omega
    simp only [fields, hn, registerOf_register, registerOf_base, hmode, if_true]

theorem toRegister_rr (opcode : Opcode) (q r : Register) (rest : List UInt8) :
    toRegister opcode (Instruction.operandByte .rr q.number r.number :: rest) =
      some (⟨opcode, .fixed q, .fixed r, .rr⟩, rest) := by
  simp [toRegister, fields_operandByte .rr _ _ (by simp [Form.hasMemory]), baseOperand,
    Form.hasMemory]

theorem toRegister_rm (opcode : Opcode) (q : Register) {base : Register} (hb : base ≠ .rsp)
    (disp : Int32) (rest : List UInt8) :
    toRegister opcode
        (Instruction.operandByte .rm q.number base.number :: (littleEndian disp ++ rest)) =
      some (⟨opcode, .fixed q, .mem base disp, .rm⟩, rest) := by
  simp [toRegister, fields_operandByte .rm _ _ (fun _ => hb), baseOperand, Form.hasMemory]

theorem fromRegister_mr (opcode : Opcode) (q : Register) {base : Register} (hb : base ≠ .rsp)
    (disp : Int32) (rest : List UInt8) :
    fromRegister opcode
        (Instruction.operandByte .mr q.number base.number :: (littleEndian disp ++ rest)) =
      some (⟨opcode, .mem base disp, .fixed q, .mr⟩, rest) := by
  simp [fromRegister, fields_operandByte .mr _ _ (fun _ => hb), baseOperand, Form.hasMemory]

theorem withImmediate_ri {opcode? : Register → Option Opcode} {opcode : Opcode} {e : Fin 8}
    (he : opcode? (.ofNumber e) = some opcode) (r : Register) (value : Int32) (rest : List UInt8) :
    withImmediate opcode?
        (Instruction.operandByte .ri e r.number :: (littleEndian value ++ rest)) =
      some (⟨opcode, .fixed r, .imm value, .ri⟩, rest) := by
  have hf := fields_operandByte .ri (.ofNumber e) r
    (by simp [Form.hasMemory]) (littleEndian value ++ rest)
  rw [Register.number_ofNumber] at hf
  simp [withImmediate, hf, baseOperand, Form.hasMemory, he]

theorem withImmediate_mi {opcode? : Register → Option Opcode} {opcode : Opcode} {e : Fin 8}
    (he : opcode? (.ofNumber e) = some opcode) {base : Register} (hb : base ≠ .rsp)
    (disp value : Int32) (rest : List UInt8) :
    withImmediate opcode? (Instruction.operandByte .mi e base.number ::
        (littleEndian disp ++ (littleEndian value ++ rest))) =
      some (⟨opcode, .mem base disp, .imm value, .mi⟩, rest) := by
  have hf := fields_operandByte .mi (.ofNumber e) base
    (fun _ => hb) (littleEndian disp ++ (littleEndian value ++ rest))
  rw [Register.number_ofNumber] at hf
  simp [withImmediate, hf, baseOperand, Form.hasMemory, he]

theorem repeated_ri (r : Register) (value : Int32) (rest : List UInt8) :
    repeated (Instruction.operandByte .ri r.number r.number :: (littleEndian value ++ rest)) =
      some (⟨.imul, .fixed r, .imm value, .ri⟩, rest) := by
  simp [repeated, fields_operandByte .ri _ _ (by simp [Form.hasMemory]), Form.hasMemory]

theorem division_r (r : Register) (rest : List UInt8) :
    division (Instruction.operandByte .r 7 r.number :: rest) = some (.unary .idiv r, rest) := by
  have hf := fields_operandByte .r .rdi r
    (by simp [Form.hasMemory]) rest
  rw [show Register.rdi.number = 7 from rfl] at hf
  simp [division, hf, Form.hasMemory]

/-- The bytes that an opcode without a register in it may start with. -/
def leads : List UInt8 :=
  [0x90, 0xC3, 0x89, 0x8B, 0xC7, 0x01, 0x03, 0x29, 0x2B, 0x81, 0x0F, 0x69, 0xF7]

/-- The prefix tells whether the operation works on 64 bits. -/
theorem decode_prefix {b : UInt8} (hb : b ∈ leads) (wide : Bool) (rest : List UInt8) :
    decode ((if wide then [widePrefix] else []) ++ b :: rest) = (operation (b :: rest)).ofWidth wide := by
  have hlead : ∀ b ∈ leads, b ≠ widePrefix ∧ b.toNat / 8 ≠ 0x50 / 8 ∧ b.toNat / 8 ≠ 0x58 / 8 ∧
      b.toNat / 8 ≠ 0xB8 / 8 := by decide +kernel
  obtain ⟨h0, h1, h2, h3⟩ := hlead b hb
  cases wide with
  | true => simp [decode]
  | false => simp only [decode, List.nil_append, h0, h1, h2, h3, if_false, Bool.false_eq_true]

theorem ofWidth_some {i : Instruction} {rest : List UInt8} {wide : Bool} (h : i.isWide = wide) :
    ofWidth wide (some (i, rest)) = some (i, rest) := by
  simp [ofWidth, h]

end Decoded

/-! ## Instructions, form by form -/

namespace Instruction

variable {i : Instruction} {opcode : Opcode} {x y : RegisterOperand} {base : Register}
  {disp value : Int32} {bytes rest : List UInt8}

-- the cases of the patterns are told apart once, and not anew for each form
attribute [local simp] pattern?

/-- It is enough to read the instruction without its prefix. -/
theorem decode_encodedPrefix {b : UInt8} {body : List UInt8} (hb : b ∈ Decoded.leads)
    (h : Decoded.operation (b :: body) = some (i.erase, rest)) :
    decode (i.encodedPrefix ++ b :: body) = some (i.erase, rest) := by
  rw [encodedPrefix, Decoded.decode_prefix hb, h, Decoded.ofWidth_some i.isWide_erase]

theorem decode_encode_bare (h : encode ⟨opcode, .none, .none, .bare⟩ = .ok bytes) :
    decode (bytes ++ rest) = some (erase ⟨opcode, .none, .none, .bare⟩, rest) := by
  cases opcode <;> simp only [encode, pattern?, reduceCtorEq] at h
  all_goals
    simp only [pure, Except.pure, Except.ok.injEq] at h
    subst h
    rw [List.append_assoc]
    exact decode_encodedPrefix (by decide) rfl

theorem decode_push (r : Register) (rest : List UInt8) :
    decode ((0x50 + byte r.number) :: rest) = some (.unary .push r, rest) := by
  cases r <;> rfl

theorem decode_pop (r : Register) (rest : List UInt8) :
    decode ((0x58 + byte r.number) :: rest) = some (.unary .pop r, rest) := by
  cases r <;> rfl

theorem decode_encode_r (h : encode ⟨opcode, .reg x, .none, .r⟩ = .ok bytes) :
    decode (bytes ++ rest) = some (erase ⟨opcode, .reg x, .none, .r⟩, rest) := by
  obtain ⟨t, q⟩ := x
  cases q with
  | none => cases opcode <;> simp [encode, pattern?, Operand.encodedRegister, Operand.encodedBase,
      bind, Except.bind] at h
  | some q =>
    cases opcode <;> simp only [encode, pattern?, reduceCtorEq] at h
    all_goals
      simp only [Operand.encodedRegister, Operand.encodedBase, encodedWith, encodedTrailer,
        Form.hasImmediate, bind, Except.bind, pure, Except.pure, Bool.false_eq_true, if_false,
        Except.ok.injEq] at h
      subst h
    · simp only [List.append_assoc, List.cons_append, List.nil_append]
      refine decode_encodedPrefix (by decide) ?_
      rw [Decoded.operation]
      exact Decoded.division_r q rest
    · exact decode_push q rest
    · exact decode_pop q rest

-- In the forms below a register or a base that has no name lets the encoder fail, so that only operands
-- with names are left; what remains is the operand byte, read back.

theorem decode_encode_rr (h : encode ⟨opcode, .reg x, .reg y, .rr⟩ = .ok bytes) :
    decode (bytes ++ rest) = some (erase ⟨opcode, .reg x, .reg y, .rr⟩, rest) := by
  obtain ⟨t, q⟩ := x
  obtain ⟨u, r⟩ := y
  cases opcode <;> simp only [encode, pattern?, reduceCtorEq] at h
  all_goals
    cases q with
    | none => simp [Operand.encodedRegister, bind, Except.bind] at h
    | some q =>
      cases r with
      | none => simp [Operand.encodedRegister, Operand.encodedBase, bind, Except.bind] at h
      | some r =>
        simp only [Operand.encodedRegister, Operand.encodedBase, encodedWith, encodedTrailer,
          Form.hasImmediate, bind, Except.bind, pure, Except.pure, Bool.false_eq_true, if_false,
          Except.ok.injEq] at h
        subst h
        simp only [List.append_assoc, List.cons_append, List.nil_append]
        refine decode_encodedPrefix (by decide) ?_
        rw [Decoded.operation]
        exact Decoded.toRegister_rr _ q r rest

theorem encodedBase_mem {r : Register} (h : (Operand.mem base disp).encodedBase = .ok r) :
    r = base ∧ base ≠ .rsp := by
  cases base <;> simp only [Operand.encodedBase, Except.ok.injEq, reduceCtorEq] at h
  all_goals exact ⟨h.symm, by decide⟩

theorem decode_encode_rm (h : encode ⟨opcode, .reg x, .mem base disp, .rm⟩ = .ok bytes) :
    decode (bytes ++ rest) = some (erase ⟨opcode, .reg x, .mem base disp, .rm⟩, rest) := by
  obtain ⟨t, q⟩ := x
  cases opcode <;> simp only [encode, pattern?, reduceCtorEq] at h
  all_goals
    cases q with
    | none => simp [Operand.encodedRegister, bind, Except.bind] at h
    | some q =>
      cases hbase : (Operand.mem base disp).encodedBase with
      | error f => simp [hbase, Operand.encodedRegister, bind, Except.bind] at h
      | ok b =>
        obtain ⟨rfl, hb⟩ := encodedBase_mem hbase
        simp only [hbase, Operand.encodedRegister, Operand.encodedDisplacement, encodedWith,
          encodedTrailer, Form.hasImmediate, bind, Except.bind, pure, Except.pure,
          Bool.false_eq_true, if_false, Except.ok.injEq, List.append_nil] at h
        subst h
        simp only [List.append_assoc, List.cons_append, List.nil_append]
        refine decode_encodedPrefix (by decide) ?_
        rw [Decoded.operation]
        exact Decoded.toRegister_rm _ q hb disp rest

theorem decode_encode_mr (h : encode ⟨opcode, .mem base disp, .reg x, .mr⟩ = .ok bytes) :
    decode (bytes ++ rest) = some (erase ⟨opcode, .mem base disp, .reg x, .mr⟩, rest) := by
  obtain ⟨t, q⟩ := x
  cases opcode <;> simp only [encode, pattern?, reduceCtorEq] at h
  all_goals
    cases q with
    | none => simp [Operand.encodedRegister, bind, Except.bind] at h
    | some q =>
      cases hbase : (Operand.mem base disp).encodedBase with
      | error f => simp [hbase, Operand.encodedRegister, bind, Except.bind] at h
      | ok b =>
        obtain ⟨rfl, hb⟩ := encodedBase_mem hbase
        simp only [hbase, Operand.encodedRegister, Operand.encodedDisplacement, encodedWith,
          encodedTrailer, Form.hasImmediate, bind, Except.bind, pure, Except.pure,
          Bool.false_eq_true, if_false, Except.ok.injEq, List.append_nil] at h
        subst h
        simp only [List.append_assoc, List.cons_append, List.nil_append]
        refine decode_encodedPrefix (by decide) ?_
        rw [Decoded.operation]
        exact Decoded.fromRegister_mr _ q hb disp rest

theorem decode_encode_ri (h : encode ⟨opcode, .reg x, .imm value, .ri⟩ = .ok bytes) :
    decode (bytes ++ rest) = some (erase ⟨opcode, .reg x, .imm value, .ri⟩, rest) := by
  obtain ⟨t, q⟩ := x
  cases q with
  | none => cases opcode <;> simp [encode, pattern?, Operand.encodedRegister, Operand.encodedBase,
      bind, Except.bind] at h
  | some q =>
    cases opcode <;> simp only [encode, pattern?, reduceCtorEq] at h
    all_goals
      simp only [Operand.encodedRegister, Operand.encodedBase, Operand.encodedImmediate, encodedWith,
        encodedTrailer, Form.hasImmediate, bind, Except.bind, pure, Except.pure, if_true,
        Except.ok.injEq, List.nil_append] at h
      subst h
      simp only [List.append_assoc, List.cons_append, List.nil_append]
      refine decode_encodedPrefix (by decide) ?_
      rw [Decoded.operation]
    · exact Decoded.withImmediate_ri rfl q value rest
    · exact Decoded.withImmediate_ri rfl q value rest
    · exact Decoded.withImmediate_ri rfl q value rest
    · exact Decoded.repeated_ri q value rest

theorem decode_encode_mi (h : encode ⟨opcode, .mem base disp, .imm value, .mi⟩ = .ok bytes) :
    decode (bytes ++ rest) = some (erase ⟨opcode, .mem base disp, .imm value, .mi⟩, rest) := by
  cases opcode <;> simp only [encode, pattern?, reduceCtorEq] at h
  all_goals
    cases hbase : (Operand.mem base disp).encodedBase with
    | error f => simp [hbase, bind, Except.bind] at h
    | ok b =>
      obtain ⟨rfl, hb⟩ := encodedBase_mem hbase
      simp only [hbase, Operand.encodedDisplacement, Operand.encodedImmediate, encodedWith,
        encodedTrailer, Form.hasImmediate, bind, Except.bind, pure, Except.pure, if_true,
        Except.ok.injEq] at h
      subst h
      simp only [List.append_assoc, List.cons_append, List.nil_append]
      refine decode_encodedPrefix (by decide) ?_
      rw [Decoded.operation]
      exact Decoded.withImmediate_mi rfl hb disp value rest

/-- The bytes of an instruction are read back as the instruction. -/
theorem decode_encode (hi : i.Regular) (h : i.encode = .ok bytes) (rest : List UInt8) :
    decode (bytes ++ rest) = some (i.erase, rest) := by
  obtain ⟨opcode, op0, op1, form⟩ := i
  cases op0 <;> cases op1 <;>
    simp only [Regular, Form.ofOperands?, Option.some.injEq, reduceCtorEq] at hi
  all_goals subst hi
  · exact decode_encode_bare h
  · exact decode_encode_r h
  · exact decode_encode_rr h
  · exact decode_encode_rm h
  · exact decode_encode_ri h
  · exact decode_encode_mr h
  · exact decode_encode_mi h

/-- An instruction takes at least one byte. -/
theorem encode_length_pos (hi : i.Regular) (h : i.encode = .ok bytes) : 0 < bytes.length := by
  rw [List.length_pos_iff]
  rintro rfl
  have hd := decode_encode hi h []
  simp [decode] at hd

end Instruction

/-! ## What can be encoded -/

/-- The operand has a name in an operand byte: its register is known, or its base is not the stack
pointer. -/
def Operand.Named : Operand → Prop
  | .reg ⟨_, r⟩ => r.isSome
  | .mem base _ => base ≠ .rsp
  | _ => True

/-- The operands have names, and there is an instruction with this opcode and such operands. -/
structure Instruction.Encodable (i : Instruction) : Prop where
  /-- The form is that of the operands. -/
  regular : i.Regular
  first : i.op0.Named
  second : i.op1.Named
  /-- There is such an instruction. -/
  pattern : (pattern? i.opcode i.form).isSome

namespace Operand

theorem Named.encodedRegister {x : RegisterOperand} (h : (Operand.reg x).Named) :
    ∃ r, (Operand.reg x).encodedRegister = .ok r := by
  obtain ⟨t, r⟩ := x
  obtain ⟨r, rfl⟩ := Option.isSome_iff_exists.mp h
  exact ⟨r, rfl⟩

theorem Named.encodedBase_reg {x : RegisterOperand} (h : (Operand.reg x).Named) :
    ∃ r, (Operand.reg x).encodedBase = .ok r :=
  h.encodedRegister

theorem Named.encodedBase_mem {base : Register} {disp : Int32} (h : (Operand.mem base disp).Named) :
    (Operand.mem base disp).encodedBase = .ok base := by
  cases base
  case rsp => exact absurd rfl h
  all_goals rfl

end Operand

namespace Instruction

variable {i : Instruction}

theorem Regular.encodedTrailer (h : i.Regular) :
    ∃ bytes, i.encodedTrailer = .ok bytes ∧ bytes.length ≤ 8 := by
  obtain ⟨opcode, op0, op1, form⟩ := i
  cases op0 <;> cases op1 <;>
    simp only [Regular, Form.ofOperands?, Option.some.injEq, reduceCtorEq] at h
  all_goals
    subst h
    exact ⟨_, rfl, by simp [littleEndian]⟩

/-- At most twelve bytes: a prefix, an opcode of two bytes, the operand byte, a displacement and a
constant. -/
theorem Regular.encodedWith (h : i.Regular) (opcode : List UInt8) (hop : opcode.length ≤ 2)
    (register base : Fin 8) :
    ∃ bytes, i.encodedWith opcode register base = .ok bytes ∧ bytes.length ≤ 12 := by
  obtain ⟨trailer, ht, hlen⟩ := h.encodedTrailer
  have hprefix : i.encodedPrefix.length ≤ 1 := by
    rw [encodedPrefix]
    split <;> simp
  refine ⟨i.encodedPrefix ++ opcode ++ operandByte i.form register base :: trailer, ?_, ?_⟩
  · simp [Instruction.encodedWith, ht, bind, Except.bind, pure, Except.pure]
  · simp only [List.length_append, List.length_cons]
    omega

theorem Encodable.encode (h : i.Encodable) : ∃ bytes, i.encode = .ok bytes ∧ bytes.length ≤ 12 := by
  have hwith := h.regular.encodedWith
  obtain ⟨opcode, op0, op1, form⟩ := i
  obtain ⟨hi, h0, h1, hpat⟩ := h
  -- the form tells which operands the pattern names
  cases op0 <;> cases op1 <;>
    simp only [Regular, Form.ofOperands?, Option.some.injEq, reduceCtorEq] at hi
  all_goals
    subst hi
    cases opcode <;> simp only [pattern?, Option.isSome_none, Bool.false_eq_true] at hpat
  case none.none.noop | none.none.ret =>
    exact ⟨_, rfl, by simp [encodedPrefix, isWide, Operand.register?, Operand.asRegister?]⟩
  case reg.none.push | reg.none.pop =>
    obtain ⟨r, hr⟩ := h0.encodedRegister
    simp only [Instruction.encode, pattern?, hr, bind, Except.bind, pure, Except.pure]
    exact ⟨_, rfl, by simp⟩
  case reg.none.idiv | reg.imm.mov | reg.imm.add | reg.imm.sub =>
    obtain ⟨b, hb⟩ := h0.encodedBase_reg
    simp only [Instruction.encode, pattern?, hb, bind, Except.bind]
    exact hwith _ (by simp) _ _
  case reg.imm.imul =>
    obtain ⟨r, hr⟩ := h0.encodedRegister
    simp only [Instruction.encode, pattern?, hr, bind, Except.bind]
    exact hwith _ (by simp) _ _
  case reg.reg.mov | reg.reg.add | reg.reg.sub | reg.reg.imul =>
    obtain ⟨r, hr⟩ := h0.encodedRegister
    obtain ⟨b, hb⟩ := h1.encodedBase_reg
    simp only [Instruction.encode, pattern?, hr, hb, bind, Except.bind]
    exact hwith _ (by simp) _ _
  case reg.mem.mov | reg.mem.add | reg.mem.sub | reg.mem.imul =>
    obtain ⟨r, hr⟩ := h0.encodedRegister
    simp only [Instruction.encode, pattern?, hr, h1.encodedBase_mem, bind, Except.bind]
    exact hwith _ (by simp) _ _
  case mem.reg.mov | mem.reg.add | mem.reg.sub =>
    obtain ⟨r, hr⟩ := h1.encodedRegister
    simp only [Instruction.encode, pattern?, hr, h0.encodedBase_mem, bind, Except.bind]
    exact hwith _ (by simp) _ _
  case mem.imm.mov | mem.imm.add | mem.imm.sub =>
    simp only [Instruction.encode, pattern?, h0.encodedBase_mem, bind, Except.bind]
    exact hwith _ (by simp) _ _

end Instruction

/-! ## Whole pieces of code -/

/-- A piece of encodable code can be encoded. -/
theorem exists_encodeAll {code : List Instruction} (h : ∀ i ∈ code, i.Encodable) :
    ∃ bytes, encodeAll code = .ok bytes ∧ bytes.length ≤ 12 * code.length := by
  induction code with
  | nil => exact ⟨[], rfl, by simp⟩
  | cons i code ih =>
    obtain ⟨first, hfirst, hlen⟩ := (h i (by simp)).encode
    obtain ⟨others, hothers, hlen'⟩ := ih fun j hj => h j (by simp [hj])
    refine ⟨first ++ others, ?_, ?_⟩
    · simp [encodeAll, hfirst, hothers, bind, Except.bind, pure, Except.pure]
    · simp only [List.length_append, List.length_cons]
      omega

section Code

variable {i : Instruction} {code before after : List Instruction} {bytes rest : List UInt8}

theorem encodeAll_cons (h : encodeAll (i :: code) = .ok bytes) :
    ∃ first others, i.encode = .ok first ∧ encodeAll code = .ok others ∧ bytes = first ++ others := by
  rw [encodeAll] at h
  obtain ⟨first, hi, h⟩ := except_bind_eq_ok.mp h
  obtain ⟨others, hc, h⟩ := except_bind_eq_ok.mp h
  exact ⟨first, others, hi, hc, (Except.ok.inj h).symm⟩

theorem encodeAll_append (h : encodeAll (before ++ after) = .ok bytes) :
    ∃ x y, encodeAll before = .ok x ∧ encodeAll after = .ok y ∧ bytes = x ++ y := by
  induction before generalizing bytes with
  | nil => exact ⟨[], bytes, rfl, h, rfl⟩
  | cons i before ih =>
    obtain ⟨first, others, hi, hrest, rfl⟩ := encodeAll_cons h
    obtain ⟨x, y, hx, hy, rfl⟩ := ih hrest
    refine ⟨first ++ x, y, ?_, hy, by rw [List.append_assoc]⟩
    simp [encodeAll, hi, hx, bind, Except.bind, pure, Except.pure]

theorem length_le_of_encodeAll (hall : ∀ i ∈ code, i.Regular) (h : encodeAll code = .ok bytes) :
    code.length ≤ bytes.length := by
  induction code generalizing bytes with
  | nil => simp
  | cons i code ih =>
    obtain ⟨first, others, hi, hrest, rfl⟩ := encodeAll_cons h
    have hpos := Instruction.encode_length_pos (hall i (by simp)) hi
    have hle := ih (fun j hj => hall j (by simp [hj])) hrest
    simp only [List.length_cons, List.length_append]
    omega

namespace State

variable {s t : State}

@[simp]
theorem value?_erase (s : State) (wide : Bool) (o : Operand) :
    s.value? wide o.erase = s.value? wide o := by
  cases o <;> rfl

@[simp]
theorem write?_erase (s : State) (wide : Bool) (v : Word) (o : Operand) :
    s.write? wide v o.erase = s.write? wide v o := by
  rcases o with _ | ⟨_, _ | r⟩ | _ | _ <;> rfl

/-- The processor does not know what temporary an operand stood for. -/
theorem step?_erase (s : State) (i : Instruction) : s.step? i.erase = s.step? i := by
  have h0 : i.erase.op0 = i.op0.erase := rfl
  have h1 : i.erase.op1 = i.op1.erase := rfl
  have hop : i.erase.opcode = i.opcode := rfl
  simp only [step?, combine?, h0, h1, hop, Instruction.isWide_erase, value?_erase, write?_erase]

/-- The processor comes from the first bytes to the last ones without returning. -/
inductive Reaches : State → List UInt8 → State → List UInt8 → Prop where
  /-- Nothing is executed. -/
  | refl (s : State) (bytes : List UInt8) : Reaches s bytes s bytes
  /-- The first instruction is executed. -/
  | step {s s' t : State} {bytes rest left : List UInt8} {i : Instruction}
      (read : decode bytes = some (i, rest)) (stays : i.opcode ≠ .ret)
      (executed : s.step? i = some s') (more : Reaches s' rest t left) : Reaches s bytes t left

/-- Encoded code that does not return is executed to its end. -/
theorem reaches_encodeAll (hall : ∀ i ∈ code, i.Regular) (hret : ∀ i ∈ code, i.opcode ≠ .ret)
    (h : encodeAll code = .ok bytes) (hx : exec? code s = some t) (rest : List UInt8) :
    Reaches s (bytes ++ rest) t rest := by
  induction code generalizing bytes s with
  | nil =>
    simp only [encodeAll, Except.ok.injEq] at h
    simp only [exec?, Option.some.injEq] at hx
    subst h hx
    exact .refl s rest
  | cons i code ih =>
    obtain ⟨first, others, hi, hrest, rfl⟩ := encodeAll_cons h
    have hi' : i.opcode ≠ .ret := hret i (by simp)
    simp only [exec?, hi', if_false, Option.bind_eq_some_iff] at hx
    obtain ⟨s', hs', hx⟩ := hx
    rw [List.append_assoc]
    refine .step (Instruction.decode_encode (hall i (by simp)) hi _) hi' (step?_erase s i ▸ hs') ?_
    exact ih (fun j hj => hall j (by simp [hj])) (fun j hj => hret j (by simp [hj])) hrest hx

/-- Running encoded code that returns is executing its instructions. -/
theorem runTo_encodeAll {count : Nat} (hall : ∀ i ∈ code, i.Regular)
    (hret : ∃ i ∈ code, i.opcode = .ret) (h : encodeAll code = .ok bytes)
    (hcount : code.length ≤ count) : runTo count bytes s = exec? code s := by
  induction code generalizing bytes s count with
  | nil => simp at hret
  | cons i code ih =>
    obtain ⟨first, others, hi, hrest, rfl⟩ := encodeAll_cons h
    cases count with
    | zero => simp at hcount
    | succ count =>
      rw [runTo, Instruction.decode_encode (hall i (by simp)) hi]
      simp only [exec?, step?_erase]
      by_cases hi' : i.opcode = .ret
      · simp [hi', Instruction.erase]
      · have hret' : ∃ j ∈ code, j.opcode = .ret := by
          obtain ⟨j, hj, hjret⟩ := hret
          rcases List.mem_cons.mp hj with rfl | hj
          · exact absurd hjret hi'
          · exact ⟨j, hj, hjret⟩
        have hi'' : i.erase.opcode ≠ .ret := hi'
        simp only [hi', hi'', if_false]
        cases s.step? i with
        | none => rfl
        | some s' =>
          exact ih (fun j hj => hall j (by simp [hj])) hret' hrest (by simpa using hcount)

/-- Running the bytes of a piece of code that returns is executing its instructions. -/
theorem run?_encodeAll (hall : ∀ i ∈ code, i.Regular) (hret : ∃ i ∈ code, i.opcode = .ret)
    (h : encodeAll code = .ok bytes) : s.run? bytes = exec? code s :=
  runTo_encodeAll hall hret h (length_le_of_encodeAll hall h)

end State

end Code

end ArithJit.Machine
