/-!
# Processor registers

The eight registers that the generated code uses. Two of them hold the stack frame and are used with
all 64 bits; the others hold 32-bit words.
-/

namespace ArithJit.Machine

/-- The last octal digit of a number; such a digit stands for a register or selects an operation in a byte. -/
def octalDigit (n : Nat) : Fin 8 :=
  ⟨n % 8, Nat.mod_lt n (by decide)⟩

/-- A general purpose register. -/
inductive Register where
  /-- The accumulator; a function returns its value here. -/
  | rax
  /-- The counter. -/
  | rcx
  /-- The data register. -/
  | rdx
  /-- The base register. -/
  | rbx
  /-- The stack pointer. -/
  | rsp
  /-- The frame pointer. -/
  | rbp
  /-- The source index. -/
  | rsi
  /-- The destination index. -/
  | rdi
deriving DecidableEq, Repr

namespace Register

/-- All registers, in the order of their numbers. -/
def all : List Register :=
  [rax, rcx, rdx, rbx, rsp, rbp, rsi, rdi]

/-- The number that stands for the register in an instruction. -/
def number : Register → Fin 8
  | rax => octalDigit 0
  | rcx => octalDigit 1
  | rdx => octalDigit 2
  | rbx => octalDigit 3
  | rsp => octalDigit 4
  | rbp => octalDigit 5
  | rsi => octalDigit 6
  | rdi => octalDigit 7

/-- The register with a given number. -/
def ofNumber (n : Fin 8) : Register :=
  match n.val with
  | 0 => rax
  | 1 => rcx
  | 2 => rdx
  | 3 => rbx
  | 4 => rsp
  | 5 => rbp
  | 6 => rsi
  | _ => rdi

@[simp]
theorem ofNumber_number (r : Register) : ofNumber r.number = r := by
  cases r <;> rfl

@[simp]
theorem number_ofNumber (n : Fin 8) : (ofNumber n).number = n := by
  revert n
  decide

/-- The register as it is listed: by its 32-bit name, the frame registers by their 64-bit name. -/
def text : Register → String
  | rax => "eax"
  | rcx => "ecx"
  | rdx => "edx"
  | rbx => "ebx"
  | rsp => "rsp"
  | rbp => "rbp"
  | rsi => "esi"
  | rdi => "edi"

/-- The 64-bit name in capitals, as fault messages show the register. -/
def debugText : Register → String
  | rax => "RAX"
  | rcx => "RCX"
  | rdx => "RDX"
  | rbx => "RBX"
  | rsp => "RSP"
  | rbp => "RBP"
  | rsi => "RSI"
  | rdi => "RDI"

/-- Whether a function has to restore the register before it returns. -/
def isCalleeSaved : Register → Bool
  | rbx | rsi | rdi => true
  | _ => false

/-- Whether the register holds the frame, and so is used with all its bits. -/
def isFrame : Register → Bool
  | rsp | rbp => true
  | _ => false

end Register

end ArithJit.Machine
