import ArithJit.Machine.Encoding

/-!
# Decoding instructions

The processor's view of machine code: the instruction at the start of some bytes, and the bytes after
it. All encodings that `Instruction.encode` writes are understood, and the short form of a copy of a
constant to a register. Registers are named without temporaries.
-/

namespace ArithJit.Machine

/-- An instruction and the bytes after it. -/
abbrev Decoded := Option (Instruction × List UInt8)

namespace Decoded

/-- The fields of an operand byte. -/
structure Fields where
  /-- Whether the second field names memory. -/
  inMemory : Bool
  /-- The register field. -/
  register : Register
  /-- The other field. -/
  base : Register
deriving DecidableEq, Repr

/-- The register in the lowest three bits of a number. -/
def registerOf (n : Nat) : Register :=
  .ofNumber (octalDigit n)

/-- Reads an operand byte. Memory has a 32-bit displacement and a base other than the stack pointer. -/
def fields : List UInt8 → Option (Fields × List UInt8)
  | [] => none
  | b :: rest =>
    let register := registerOf (b.toNat / 8)
    let base := registerOf b.toNat
    if b.toNat / 64 = 3 then some (⟨false, register, base⟩, rest)
    else if b.toNat / 64 = 2 && base ≠ .rsp then some (⟨true, register, base⟩, rest)
    else none

/-- Reads the operand that the second field of an operand byte names. -/
def baseOperand (f : Fields) (bytes : List UInt8) : Option (Operand × List UInt8) :=
  if f.inMemory then
    (readInt32 bytes).map fun (disp, rest) => (.mem f.base disp, rest)
  else
    some (.fixed f.base, bytes)

/-- Reads an instruction from the operand byte on, with a register as first operand. -/
def toRegister (opcode : Opcode) (bytes : List UInt8) : Decoded := do
  let (f, bytes) ← fields bytes
  let (operand, rest) ← baseOperand f bytes
  return (⟨opcode, .fixed f.register, operand, if f.inMemory then .rm else .rr⟩, rest)

/-- Reads an instruction from the operand byte on, with memory as first operand. -/
def fromRegister (opcode : Opcode) (bytes : List UInt8) : Decoded := do
  let (f, bytes) ← fields bytes
  if f.inMemory then
    let (operand, rest) ← baseOperand f bytes
    return (⟨opcode, operand, .fixed f.register, .mr⟩, rest)
  else
    none

/-- Reads an instruction from the operand byte on, with a constant as second operand; the register field
chooses the opcode. -/
def withImmediate (opcode? : Register → Option Opcode) (bytes : List UInt8) : Decoded := do
  let (f, bytes) ← fields bytes
  let opcode ← opcode? f.register
  let (operand, bytes) ← baseOperand f bytes
  let (value, rest) ← readInt32 bytes
  return (⟨opcode, operand, .imm value, if f.inMemory then .mi else .ri⟩, rest)

/-- Reads a multiplication by a constant from the operand byte on. -/
def repeated (bytes : List UInt8) : Decoded := do
  let (f, bytes) ← fields bytes
  if !f.inMemory && f.register = f.base then
    let (value, rest) ← readInt32 bytes
    return (⟨.imul, .fixed f.base, .imm value, .ri⟩, rest)
  else
    none

/-- Reads a division from the operand byte on. -/
def division (bytes : List UInt8) : Decoded := do
  let (f, rest) ← fields bytes
  if !f.inMemory && f.register = .rdi then
    return (.unary .idiv f.base, rest)
  else
    none

/-- The opcode that the register field chooses where zero means a copy. -/
def copyExtension? : Register → Option Opcode
  | .rax => some .mov
  | _ => none

/-- The opcode that the register field chooses where zero means an addition and five a subtraction. -/
def sumExtension? : Register → Option Opcode
  | .rax => some .add
  | .rbp => some .sub
  | _ => none

/-- Reads an instruction without prefix that does not name a register in its opcode. -/
def operation : List UInt8 → Decoded
  | 0x90 :: rest => some (.nullary .noop, rest)
  | 0xC3 :: rest => some (.nullary .ret, rest)
  | 0x89 :: rest => fromRegister .mov rest
  | 0x8B :: rest => toRegister .mov rest
  | 0xC7 :: rest => withImmediate copyExtension? rest
  | 0x01 :: rest => fromRegister .add rest
  | 0x03 :: rest => toRegister .add rest
  | 0x29 :: rest => fromRegister .sub rest
  | 0x2B :: rest => toRegister .sub rest
  | 0x81 :: rest => withImmediate sumExtension? rest
  | 0x0F :: 0xAF :: rest => toRegister .imul rest
  | 0x69 :: rest => repeated rest
  | 0xF7 :: rest => division rest
  | _ => none

/-- Keeps an instruction that works on 64 bits, or one that does not. -/
def ofWidth (wide : Bool) (d : Decoded) : Decoded :=
  d.filter fun (i, _) => i.isWide = wide

end Decoded

/-- The instruction at the start of some bytes. -/
def decode : List UInt8 → Decoded
  | [] => none
  | b :: rest =>
    if b = widePrefix then
      (Decoded.operation rest).ofWidth true
    else if b.toNat / 8 = 0x50 / 8 then
      some (.unary .push (Decoded.registerOf b.toNat), rest)
    else if b.toNat / 8 = 0x58 / 8 then
      some (.unary .pop (Decoded.registerOf b.toNat), rest)
    else if b.toNat / 8 = 0xB8 / 8 then
      Decoded.ofWidth false ((readInt32 rest).map fun (value, rest) =>
        (⟨.mov, .fixed (Decoded.registerOf b.toNat), .imm value, .ri⟩, rest))
    else
      (Decoded.operation (b :: rest)).ofWidth false

end ArithJit.Machine
