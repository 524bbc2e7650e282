import ArithJit.Bytecode.Builder
import ArithJit.Evaluation.Evaluate
import ArithJit.Machine.Function
import ArithJit.Native.Loader
import ArithJit.Options
import ArithJit.Syntax.Parser

/-!
# Sessions

A session holds the forest and the names of all programs that were read in it, and initial values for
names. A program is parsed, compiled to machine code, evaluated and executed; the two results have to
agree. The initial values are stored ahead of the program. The machine code is called on the host of the
session, and what it leaves in memory is there when the next program is called.
-/

namespace ArithJit

/-- A compiled program. -/
structure Compiled where
  /-- The bytecode. -/
  bytecode : List Bytecode.Instruction
  /-- The machine instructions, with their frame. -/
  function : Machine.Function
  /-- The machine code. -/
  code : Machine.Code
deriving DecidableEq, Repr

/-- What a run found out. -/
structure Report where
  /-- The compiled program. -/
  compiled : Compiled
  /-- The value of the program, if it was evaluated. -/
  interpreted : Option Value
  /-- The value that the machine code returned, if it was called. -/
  executed : Option Int32
deriving DecidableEq, Repr

/-- The result of a run: that of the machine code if it was called, else that of the evaluation. -/
def Report.result? (r : Report) : Option Int32 :=
  r.executed.or (r.interpreted.bind Value.asInteger?)

/-- What the options ask to print of a compiled program. -/
def Options.dumps (o : Options) (c : Compiled) : String :=
  (if o.dumpBytecode then s!"-- bytecode --\n{Bytecode.listing c.bytecode}\n" else "")
    ++ (if o.dumpInstructions then s!"-- x64 --\n{Machine.listing c.function.code}\n" else "")
    ++ (if o.dumpCode then
          s!"-- machine code ({c.code.size} bytes) --\n{c.code.listing}\n" else "")

/-- Programs that were read, and what they may use. -/
structure Session where
  /-- The options of its runs. -/
  options : Options := {}
  /-- The initial values, in the order in which they were given. -/
  bindings : List (Symbol × Value) := []
  /-- The names. -/
  symbols : SymbolTable := .empty
  /-- The nodes. -/
  forest : Forest := .empty
  /-- The machine that programs are called on. -/
  host : Native.Host := .system

namespace Session

/-- The session in which nothing was read. -/
def new (options : Options) (host : Native.Host := .system) : Session where
  options := options
  host := host

/-- Gives a name an initial value. -/
def bind (s : Session) (name : String) (value : Value) : Session :=
  let (symbol, symbols) := s.symbols.intern name
  { s with symbols, bindings := s.bindings ++ [(symbol, value)] }

/-- Takes over what a parser has built. -/
def keep (s : Session) (p : Parser) : Session :=
  { s with forest := p.forest, symbols := p.symbols }

/-- Reads a program; the result is the block of its expressions. -/
def parse (s : Session) (source : String) : Except Failure NodeId × Session :=
  match tokenize source with
  | .error e => (.error (.error e), s)
  | .ok tokens =>
    match Parser.program.run (.ofTokens tokens s.forest s.symbols) with
    | .ok root p => (.ok root, s.keep p)
    | .error e p => (.error e, s.keep p)

/-- Evaluates a node, with the environment at the end. -/
def evaluate (s : Session) (root : NodeId) : EStateM.Result Failure Environment Value :=
  (s.forest.evaluate s.symbols root).run (.ofBindings s.bindings)

/-- The value of a node. -/
def interpret (s : Session) (root : NodeId) : Except Failure Value :=
  match s.evaluate root with
  | .ok value _ => .ok value
  | .error e _ => .error e

/-- Builds initial values, which have to be integers. -/
def buildBindings (names : SymbolTable) :
    List (Symbol × Value) → EStateM Failure Bytecode.Builder Unit
  | [] => return ()
  | (symbol, value) :: rest => do
    match value.asInteger? with
    | none => throw (.error (.nonIntegerBinding (names.nameOf symbol)))
    | some n =>
      let _ ← EStateM.adaptExcept Failure.fault (Bytecode.Builder.bind symbol n)
      buildBindings names rest

/-- Builds the initial values and a node, with the builder at the end. -/
def build (s : Session) (root : NodeId) :
    EStateM.Result Failure Bytecode.Builder Bytecode.Operand :=
  (do
    buildBindings s.symbols s.bindings
    EStateM.adaptExcept Failure.fault (Bytecode.Builder.node s.forest root)).run .empty

/-- The bytecode of a node. -/
def bytecode (s : Session) (root : NodeId) : Except Failure Bytecode.Builder :=
  match s.build root with
  | .ok _ b => .ok b
  | .error e _ => .error e

/-- Whether a piece of bytecode returns at all. -/
def returns (code : List Bytecode.Instruction) : Bool :=
  code.any (·.opcode = .ret)

/-- Compiles a node. -/
def compile (s : Session) (root : NodeId) : Except Failure Compiled := do
  let bytecode := (← s.bytecode root).instructions
  if !returns bytecode then
    throw (.error .emptyProgram)
  let function ← Machine.Function.ofBytecode bytecode
  let code ← Failure.ofFault function.encode
  return ⟨bytecode, function, code⟩

/-- Whether the two results of a run differ. -/
def mismatch? : Option Value → Option Int32 → Option Error
  | some (.integer interpreted), some executed =>
    if interpreted ≠ executed then some (.resultMismatch interpreted executed) else none
  | _, _ => none

/-- Evaluates and calls a compiled program, as the options ask. -/
def finish (s : Session) (root : NodeId) (compiled : Compiled) : Except Failure Report := do
  let interpreted ← if s.options.crossCheck then some <$> s.interpret root else pure none
  let executed ←
    if s.options.execute then some <$> s.host.execute compiled.code.bytes else pure none
  match mismatch? interpreted executed with
  | some e => throw (.error e)
  | none => return ⟨compiled, interpreted, executed⟩

/-- Compiles a node, evaluates it and calls it. -/
def runNode (s : Session) (root : NodeId) : Except Failure Report := do
  s.finish root (← s.compile root)

/-- The session after a node was run: if its code was called, then the host has been changed by it. -/
def afterRun (s : Session) (root : NodeId) : Session :=
  match s.compile root with
  | .error _ => s
  | .ok compiled =>
    if s.options.execute && (!s.options.crossCheck || (s.interpret root).isOk) then
      { s with host := s.host.after compiled.code.bytes }
    else s

/-- Reads a program and runs it. -/
def run (s : Session) (source : String) : Except Failure Report × Session :=
  match s.parse source with
  | (.error e, s) => (.error e, s)
  | (.ok root, s) => (s.runNode root, s.afterRun root)

/-- What a run prints: the dumps, also if it fails after compiling. -/
def printed (s : Session) (source : String) : String :=
  match s.parse source with
  | (.error _, _) => ""
  | (.ok root, s) =>
    match s.compile root with
    | .error _ => ""
    | .ok compiled => s.options.dumps compiled

end Session

/-- Runs a program on its own, with the default options. -/
def runSource (source : String) : Except Failure Report :=
  ((Session.new {}).run source).1

end ArithJit
