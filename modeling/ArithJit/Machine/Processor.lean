import ArithJit.Machine.Decoding

/-!
# The processor

What machine code computes. A state has eight 64-bit registers and byte-addressed memory. Instructions
compute modulo `2 ^ 64` and write back all bits, or, where no frame register is an operand, the lowest
32 bits; a register then loses its upper half. Running ends at the first return.
-/

namespace ArithJit.Machine

/-- A 64-bit word. -/
abbrev Word := BitVec 64

/-- Byte-addressed memory. -/
structure Memory where
  /-- The byte at each address. -/
  byteAt : Word → BitVec 8

namespace Memory

/-- The number in `count` bytes from an address on, the lowest byte first. -/
def load (m : Memory) (address : Word) : (count : Nat) → Nat
  | 0 => 0
  | count + 1 => (m.byteAt address).toNat + 256 * load m (address + 1) count

/-- Changes the byte at an address. -/
def set (m : Memory) (address : Word) (value : BitVec 8) : Memory where
  byteAt a := if a = address then value else m.byteAt a

/-- Writes the lowest `count` bytes of a word from an address on, the lowest byte first. -/
def store (m : Memory) (address : Word) : (count : Nat) → Word → Memory
  | 0, _ => m
  | count + 1, value => store (m.set address (value.setWidth 8)) (address + 1) count (value >>> 8)

end Memory

/-- The registers and the memory. -/
structure State where
  /-- The registers, by number. -/
  registers : Vector Word 8
  /-- The memory. -/
  memory : Memory

namespace State

/-- The content of a register. -/
def get (s : State) (r : Register) : Word :=
  s.registers[r.number]

/-- Changes the content of a register. -/
def set (s : State) (r : Register) (value : Word) : State :=
  { s with registers := s.registers.set r.number value }

/-- The number of bytes that an instruction works on. -/
def operandBytes (wide : Bool) : Nat :=
  if wide then 8 else 4

/-- The address of a memory operand. -/
def address (s : State) (base : Register) (disp : Int32) : Word :=
  s.get base + disp.toBitVec.signExtend 64

/-- The value of an operand; a constant is extended with its sign. -/
def value? (s : State) (wide : Bool) : Operand → Option Word
  | .none => none
  | .reg ⟨_, r⟩ => r.map s.get
  | .mem base disp => some (BitVec.ofNat 64 (s.memory.load (s.address base disp) (operandBytes wide)))
  | .imm value => some (value.toBitVec.signExtend 64)

/-- Writes a value to an operand. -/
def write? (s : State) (wide : Bool) (value : Word) : Operand → Option State
  | .reg ⟨_, some r⟩ => some (s.set r (if wide then value else (value.setWidth 32).setWidth 64))
  | .mem base disp =>
    some { s with memory := s.memory.store (s.address base disp) (operandBytes wide) value }
  | _ => none

/-- Puts a word on the stack. -/
def push (s : State) (value : Word) : State :=
  let top := s.get .rsp - 8
  { s.set .rsp top with memory := s.memory.store top 8 value }

/-- Takes a word from the stack. -/
def pop (s : State) : Word × State :=
  let top := s.get .rsp
  (BitVec.ofNat 64 (s.memory.load top 8), s.set .rsp (top + 8))

/-- Combines the values of two operands and writes the result to the first one. -/
def combine? (s : State) (i : Instruction) (f : Word → Word → Word) : Option State := do
  let a ← s.value? i.isWide i.op0
  let b ← s.value? i.isWide i.op1
  s.write? i.isWide (f a b) i.op0

/-- Executes one instruction that is not a return. -/
def step? (s : State) (i : Instruction) : Option State :=
  match i.opcode with
  | .noop => some s
  | .mov => do s.write? i.isWide (← s.value? i.isWide i.op1) i.op0
  | .add => s.combine? i (· + ·)
  | .sub => s.combine? i (· - ·)
  | .imul => s.combine? i (· * ·)
  | .push => do return s.push (← s.value? true i.op0)
  | .pop =>
    let (value, s) := s.pop
    s.write? true value i.op0
  | .idiv => none
  | .ret => none

/-- Runs machine code until it returns, at most `count` instructions. -/
def runTo : (count : Nat) → List UInt8 → State → Option State
  | 0, _, _ => none
  | count + 1, bytes, s =>
    match decode bytes with
    | none => none
    | some (i, rest) =>
      if i.opcode = .ret then some s
      else
        match s.step? i with
        | none => none
        | some s => runTo count rest s

/-- Runs machine code until it returns. There are no jumps, so no more instructions are executed than
there are bytes. -/
def run? (s : State) (bytes : List UInt8) : Option State :=
  runTo bytes.length bytes s

/-- The value that a function returns. -/
def result (s : State) : Int32 :=
  Int32.ofBitVec ((s.get .rax).setWidth 32)

/-- A state in which a function may be called: an empty stack high in memory, and zero everywhere else. -/
def entry : State where
  registers := (Vector.replicate 8 0).set 4 0x7FFFFFFF0000
  memory := ⟨fun _ => 0⟩

end State

end ArithJit.Machine
