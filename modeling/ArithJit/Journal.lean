import ArithJit.Session

/-!
# The journal

What the passes report while they work, for debugging the compiler itself. The journal of a pass is a
function of what the pass was given: it lists the events up to the end of the pass, or up to the point
where it failed.
-/

namespace ArithJit

/-- How detailed an event is. -/
inductive Level where
  /-- One event for a pass. -/
  | debug
  /-- One event for each thing that a pass does. -/
  | trace
deriving DecidableEq, Repr

/-- Something that a pass reports. -/
inductive Event where
  /-- A text was split into tokens. -/
  | tokenized (tokens : Nat)
  /-- A name was given a value. -/
  | assigned (assignment : Assignment)
  /-- A bytecode instruction was built. -/
  | built (instruction : Bytecode.Instruction)
  /-- All bytecode was built. -/
  | bytecode (instructions locals : Nat)
  /-- A machine instruction was selected. -/
  | selected (instruction : Machine.Instruction)
  /-- All machine instructions were selected. -/
  | selection (bytecode instructions stackBytes : Nat)
  /-- The temporaries were given registers. -/
  | allocation (temps maxPressure : Nat)
  /-- The instructions were encoded. -/
  | encoding (instructions bytes : Nat)
  /-- A program was compiled. -/
  | compilation (instructions frameSize bytes : Nat)
  /-- Machine code is called. -/
  | calling (bytes mapped : Nat)
  /-- Machine code has returned. -/
  | returned (value : Int32)
deriving Repr

namespace Event

/-- How detailed the event is. -/
def level : Event → Level
  | assigned _ => .trace
  | built _ => .trace
  | selected _ => .trace
  | _ => .debug

/-- The wording of the event. -/
def message : Event → String
  | tokenized tokens => s!"parser: {tokens} tokens"
  | assigned a => s!"interp: {a.symbol.text} = {a.value.text} (scope {a.scope})"
  | built i => s!"bytecode: {i.text}"
  | bytecode instructions locals => s!"bytecode: {instructions} instructions, {locals} locals"
  | selected i => s!"x64: {i.text}"
  | selection count instructions stackBytes =>
    s!"x64 selector: {count} bytecode -> {instructions} instructions, {stackBytes} stack bytes"
  | allocation temps maxPressure =>
    s!"regalloc: {temps} virtual registers, max pressure {maxPressure}"
  | encoding instructions bytes => s!"encoder: {instructions} instructions -> {bytes} bytes"
  | compilation instructions frameSize bytes =>
    s!"compile: {instructions} x64 instructions, frame {frameSize} bytes, {bytes} bytes of code"
  | calling bytes mapped => s!"jit: calling {bytes} bytes ({mapped} mapped)"
  | returned value => s!"jit: returned {value.toInt}"

/-- The line of the event in a log. -/
def line (e : Event) : String :=
  match e.level with
  | .debug => s!"DEBUG {e.message}"
  | .trace => s!"TRACE {e.message}"

end Event

namespace Journal

/-- The events that are logged at a level; the detailed level includes the other one. -/
def atLevel (level : Level) (events : List Event) : List Event :=
  events.filter fun e => level = .trace || e.level = .debug

/-- The events of reading a program. -/
def parse (source : String) : List Event :=
  match tokenize source with
  | .ok tokens => [.tokenized tokens.length]
  | .error _ => []

/-- The assignments that led from one environment to another. -/
def assignments (before after : Environment) : List Event :=
  (after.assignments.toList.drop before.assignments.size).map .assigned

/-- The instructions that led from one builder to another. -/
def built (before after : Bytecode.Builder) : List Event :=
  (after.instructions.drop before.code.size).map .built

/-- The instructions that led from one selector to another. -/
def selected (before after : Machine.Selector) : List Event :=
  (after.code.toList.drop before.code.size).map .selected

/-- The events of an evaluation. -/
def interpret (s : Session) (root : NodeId) : List Event :=
  match s.evaluate root with
  | .ok _ e => assignments .empty e
  | .error _ e => assignments .empty e

/-- The events of building bytecode. -/
def bytecode (s : Session) (root : NodeId) : List Event :=
  match s.build root with
  | .ok _ b => built .empty b ++ [.bytecode b.code.size b.locals.length]
  | .error _ b => built .empty b

/-- The event of an allocation. -/
def allocation (a : Machine.Allocation) : List Event :=
  [.allocation a.assignments.length a.maxPressure]

/-- The events of giving selected code registers. -/
def ofSelector (s : Machine.Selector) : List Event :=
  match s.frameSize, Machine.Allocator.fresh.allocate s.code.toList with
  | .ok _, .ok (_, _, a) => allocation a
  | _, _ => []

/-- The event at the end of a selection. It shows the reserved bytes as a 32-bit integer, and there is
none if they are too many for that. -/
def selection (bytecode : List Bytecode.Instruction) (s : Machine.Selector) : List Event :=
  if s.reserved < Machine.stackLimit then
    [.selection bytecode.length s.code.size s.reserved]
  else
    []

/-- The events of making a function of bytecode. -/
def function (bytecode : List Bytecode.Instruction) : List Event :=
  match (Machine.Selector.steps bytecode).run .empty with
  | .error _ s => selected .empty s
  | .ok _ s => selected .empty s ++ selection bytecode s ++ ofSelector s

/-- The event of encoding instructions. -/
def encoding (code : List Machine.Instruction) : List Event :=
  match Machine.Code.ofInstructions code with
  | .ok c => [.encoding code.length c.size]
  | .error _ => []

/-- The events of compiling bytecode. -/
def lowering (bytecode : List Bytecode.Instruction) : List Event :=
  function bytecode ++
    match Machine.Function.ofBytecode bytecode with
    | .error _ => []
    | .ok f =>
      encoding f.code ++
        match f.encode with
        | .error _ => []
        | .ok code => [.compilation f.code.length f.frameSize code.size]

/-- The events of compiling a program. -/
def compile (s : Session) (root : NodeId) : List Event :=
  bytecode s root ++
    match s.bytecode root with
    | .error _ => []
    | .ok b => if Session.returns b.instructions then lowering b.instructions else []

/-- The events of calling machine code. -/
def execute (h : Native.Host) (code : List UInt8) : List Event :=
  match h.load code with
  | .error _ => []
  | .ok region =>
    .calling code.length region.size ::
      match region.call h.entry with
      | .ok value => [.returned value]
      | .error _ => []

/-- The events of evaluating and calling a compiled program. -/
def finish (s : Session) (root : NodeId) (compiled : Compiled) : List Event :=
  let evaluation := if s.options.crossCheck then interpret s root else []
  let evaluated := !s.options.crossCheck || (s.interpret root).isOk
  evaluation ++
    if evaluated && s.options.execute then execute s.host compiled.code.bytes else []

/-- The events of a run. -/
def run (s : Session) (source : String) : List Event :=
  parse source ++
    match s.parse source with
    | (.error _, _) => []
    | (.ok root, s) =>
      compile s root ++
        match s.compile root with
        | .error _ => []
        | .ok compiled => finish s root compiled

end Journal

end ArithJit
