import ArithJit.Fault
import ArithJit.Native.SystemMessage

/-!
# Memory for machine code

The operating system hands out memory in pages. A region starts out writable and filled with zeros;
code is written to its start, and then the region is made executable.
-/

namespace ArithJit.Native

/-- Why code could not be loaded. -/
inductive LoadError where
  /-- There is no code. -/
  | emptyCode
  /-- The code is longer than the region. -/
  | codeTooLarge (length capacity : Nat)
  /-- A call of the operating system failed. -/
  | system (call : String) (errno : Int)
  /-- The processor is another one. -/
  | unsupportedHost
deriving DecidableEq, Repr

namespace LoadError

/-- The error number of a memory request that cannot be met. -/
def outOfMemory : Int := 12

/-- The wording of a load error. -/
def message : LoadError → String
  | emptyCode => "cannot execute an empty code buffer"
  | codeTooLarge length capacity =>
    s!"{length} bytes of code do not fit in a {capacity} byte region"
  | system call errno => s!"{call} failed: {systemMessage errno} (os error {errno})"
  | unsupportedHost => "native execution is only supported on x86-64 hosts"

/-- The load error as an error of the run. -/
def toError (e : LoadError) : Error :=
  match e with
  | system call errno => .loading e.message (some call) (some errno)
  | _ => .loading e.message none none

/-- The load error as a failure. -/
def toFailure (e : LoadError) : Failure :=
  .error e.toError

end LoadError

/-- A region of memory. -/
structure Region where
  /-- The size in bytes. -/
  size : Nat
  /-- The bytes up to the last one that was written; all others are zero. -/
  written : List UInt8 := []
deriving DecidableEq, Repr

namespace Region

/-- The size of a page in bytes. -/
def pageSize : Nat := 4096

/-- The end of the addresses that a program has. -/
def addressLimit : Nat := 0x800000000000

/-- The smallest number of whole pages that hold a number of bytes, and at least one. -/
def pagesFor (size : Nat) : Nat :=
  (max size 1 + (pageSize - 1)) / pageSize

/-- A writable region of whole pages for a number of bytes. -/
def allocate (size : Nat) : Except Failure Region :=
  let length := pagesFor size * pageSize
  if wordCount ≤ length then .error (.fault (.overflow .mul))
  else if addressLimit ≤ length then .error (LoadError.system "mmap" LoadError.outOfMemory).toFailure
  else .ok ⟨length, []⟩

/-- Writes code to the start of a region. -/
def write (r : Region) (code : List UInt8) : Except LoadError Region :=
  if r.size < code.length then .error (.codeTooLarge code.length r.size)
  else .ok { r with written := code ++ r.written.drop code.length }

/-- The bytes at a place of the region. The place has to end within the addresses of the machine, to
start within the region or right after it, and to end there too; the first of these that fails is the
fault. -/
def read (r : Region) (start count : Nat) : Except Fault (List UInt8) :=
  let stop := start + count
  if wordCount ≤ stop then .error (.overflow .add)
  else if r.size < start then .error (.rangeStartOutOfBounds r.size start)
  else if r.size < stop then .error (.rangeEndOutOfBounds r.size stop)
  else
    let written := (r.written.drop start).take count
    .ok (written ++ List.replicate (count - written.length) 0)

end Region

end ArithJit.Native
