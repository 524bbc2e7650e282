import ArithJit.Machine.Instruction

/-!
# The frame of a function

Code is put between a prologue, which saves registers and opens a stack frame, and an epilogue before
each return, which undoes the prologue.
-/

namespace ArithJit.Machine

/-- The instructions that save registers and open a frame of `size` bytes. -/
def prologue (size : Int32) (saved : List Register) : List Instruction :=
  saved.map (.unary .push ·)
    ++ [.unary .push .rbp, ⟨.mov, .fixed .rbp, .fixed .rsp, .rr⟩]
    ++ if 0 < size then [⟨.sub, .fixed .rsp, .imm size, .ri⟩] else []

/-- The instructions that close the frame and restore the registers. -/
def epilogue (saved : List Register) : List Instruction :=
  [⟨.mov, .fixed .rsp, .fixed .rbp, .rr⟩, .unary .pop .rbp] ++ saved.reverse.map (.unary .pop ·)

/-- Puts a piece of code into a frame. -/
def insertFrame (body : List Instruction) (size : Int32) (saved : List Register) : List Instruction :=
  prologue size saved
    ++ body.flatMap fun i => if i.opcode = .ret then epilogue saved ++ [i] else [i]

end ArithJit.Machine
