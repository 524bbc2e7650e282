import ArithJit.Machine.Processor
import ArithJit.Native.Region

/-!
# Loading and calling machine code

Code is copied to a writable region, the region is made executable, and its start is called as a
function without arguments that returns a 32-bit integer. The machine that this happens on is a `Host`.
It may refuse, and its memory holds whatever was written there before: what one call of code leaves on
the stack, the next one finds.
-/

namespace ArithJit.Native

/-- The machine that code is loaded and called on. -/
structure Host where
  /-- Whether the processor has the instructions that code is made of. -/
  supported : Bool := true
  /-- Hands out a writable region. -/
  allocate : Nat → Except Failure Region
  /-- Makes a region executable. -/
  protect : Region → Except Failure Region
  /-- The registers and the memory that code finds when it is called. -/
  entry : Machine.State := .entry

/-- The host that meets all requests it can, before any code was called on it. -/
def Host.system : Host where
  allocate := Region.allocate
  protect := .ok

/-- A request to the host. -/
inductive Request where
  /-- A writable region for a number of bytes. -/
  | allocate (size : Nat)
  /-- The right to execute a region of a size. -/
  | protect (size : Nat)
deriving DecidableEq, Repr

/-- Calls the start of a region, from a state of the processor. -/
def Region.call (r : Region) (entry : Machine.State := .entry) : Except Failure Int32 :=
  match entry.run? r.written with
  | some s => .ok s.result
  | none => .error (.fault .illegalInstruction)

namespace Host

/-- Copies code to a writable region. -/
def place (h : Host) (code : List UInt8) : Except Failure Region := do
  if code.isEmpty then
    throw LoadError.emptyCode.toFailure
  if !h.supported then
    throw LoadError.unsupportedHost.toFailure
  let region ← h.allocate code.length
  (region.write code).mapError LoadError.toFailure

/-- Copies code to a region that is executable. -/
def load (h : Host) (code : List UInt8) : Except Failure Region := do
  h.protect (← h.place code)

/-- The value that machine code returns. -/
def execute (h : Host) (code : List UInt8) : Except Failure Int32 := do
  (← h.load code).call h.entry

/-- The host after machine code was called on it. What the code has written to memory stays there; the
registers are the caller's again. -/
def after (h : Host) (code : List UInt8) : Host :=
  match h.load code with
  | .error _ => h
  | .ok region =>
    match h.entry.run? region.written with
    | none => h
    | some s => { h with entry := { h.entry with memory := s.memory } }

/-- The requests that are made when code is loaded. -/
def requests (h : Host) (code : List UInt8) : List Request :=
  if code.isEmpty || !h.supported then []
  else
    .allocate code.length ::
      match h.place code with
      | .ok region => [.protect region.size]
      | .error _ => []

end Host

end ArithJit.Native
