import ArithJit.Assoc
import ArithJit.Bytecode.Builder
import ArithJit.Bytecode.Instruction
import ArithJit.Command
import ArithJit.Decimal.Shortest
import ArithJit.Diagnostic
import ArithJit.Error
import ArithJit.Evaluation.Environment
import ArithJit.Evaluation.Evaluate
import ArithJit.Fault
import ArithJit.Journal
import ArithJit.Machine.Allocation
import ArithJit.Machine.Code
import ArithJit.Machine.Decoding
import ArithJit.Machine.Encoding
import ArithJit.Machine.Frame
import ArithJit.Machine.Function
import ArithJit.Machine.Instruction
import ArithJit.Machine.Pool
import ArithJit.Machine.Processor
import ArithJit.Machine.Register
import ArithJit.Machine.Selection
import ArithJit.Main
import ArithJit.Native.Loader
import ArithJit.Native.Region
import ArithJit.Native.SystemMessage
import ArithJit.Operator
import ArithJit.Options
import ArithJit.Proofs.Acceptance
import ArithJit.Proofs.AllocatedCode
import ArithJit.Proofs.AllocationSimulation
import ArithJit.Proofs.AssignmentTargets
import ArithJit.Proofs.Association
import ArithJit.Proofs.Balance
import ArithJit.Proofs.Blame
import ArithJit.Proofs.BlockReturns
import ArithJit.Proofs.BytecodeMachine
import ArithJit.Proofs.CallerState
import ArithJit.Proofs.CodeRoundTrip
import ArithJit.Proofs.CodeSize
import ArithJit.Proofs.Compilation
import ArithJit.Proofs.DefiniteAssignment
import ArithJit.Proofs.EndToEnd
import ArithJit.Proofs.Evaluation
import ArithJit.Proofs.ExactSpans
import ArithJit.Proofs.Execution
import ArithJit.Proofs.Expression
import ArithJit.Proofs.FirstBlock
import ArithJit.Proofs.Flattening
import ArithJit.Proofs.ForestGrowth
import ArithJit.Proofs.Framing
import ArithJit.Proofs.Grammar
import ArithJit.Proofs.History
import ArithJit.Proofs.Hosts
import ArithJit.Proofs.Interning
import ArithJit.Proofs.Literals
import ArithJit.Proofs.LiveRanges
import ArithJit.Proofs.Lowering
import ArithJit.Proofs.LoweringMeaning
import ArithJit.Proofs.MemoryCells
import ArithJit.Proofs.NodeSpans
import ArithJit.Proofs.Outcomes
import ArithJit.Proofs.Overlap
import ArithJit.Proofs.ParserCalls
import ArithJit.Proofs.ParserMoves
import ArithJit.Proofs.Parsing
import ArithJit.Proofs.ParsingTwice
import ArithJit.Proofs.Places
import ArithJit.Proofs.Pressure
import ArithJit.Proofs.Printing
import ArithJit.Proofs.ProgramPressure
import ArithJit.Proofs.Programs
import ArithJit.Proofs.Renaming
import ArithJit.Proofs.Results
import ArithJit.Proofs.Reuse
import ArithJit.Proofs.SavedRegisters
import ArithJit.Proofs.Scopes
import ArithJit.Proofs.Segmentation
import ArithJit.Proofs.SelectedCode
import ArithJit.Proofs.SelectionProgress
import ArithJit.Proofs.SelectionSimulation
import ArithJit.Proofs.SelectionSteps
import ArithJit.Proofs.Sessions
import ArithJit.Proofs.SingleAssignment
import ArithJit.Proofs.SpacedText
import ArithJit.Proofs.StackLayout
import ArithJit.Proofs.Stores
import ArithJit.Proofs.Stuck
import ArithJit.Proofs.Tokens
import ArithJit.Proofs.Trees
import ArithJit.Proofs.Underline
import ArithJit.Proofs.UniqueDecoding
import ArithJit.Proofs.UsedRegisters
import ArithJit.Proofs.WholeNumbers
import ArithJit.Session
import ArithJit.Single
import ArithJit.Source.Lines
import ArithJit.Source.Span
import ArithJit.Symbol
import ArithJit.Syntax.Forest
import ArithJit.Syntax.Lexer
import ArithJit.Syntax.Parser
import ArithJit.Syntax.Token
import ArithJit.Value
