import FormCompiler.Code.Arith
import FormCompiler.Code.Builder
import FormCompiler.Code.Func
import FormCompiler.Code.Instruction
import FormCompiler.Code.Printer
import FormCompiler.Code.Type
import FormCompiler.Code.Verify
import FormCompiler.CommandLine
import FormCompiler.Cursor
import FormCompiler.Decimal.Shortest
import FormCompiler.Decimal.Text
import FormCompiler.Declaration.Parser
import FormCompiler.Engine
import FormCompiler.Expr
import FormCompiler.Expr.Parser
import FormCompiler.Files
import FormCompiler.Form
import FormCompiler.Generator
import FormCompiler.Lowering.Basic
import FormCompiler.Lowering.Coercion
import FormCompiler.Lowering.Error
import FormCompiler.Lowering.Registry
import FormCompiler.Machine.Basic
import FormCompiler.Machine.Fault
import FormCompiler.Machine.Frame
import FormCompiler.Machine.Host
import FormCompiler.Main
import FormCompiler.Note
import FormCompiler.ParseError
import FormCompiler.Parser
import FormCompiler.Pass.Basic
import FormCompiler.Pass.ConstantFolding
import FormCompiler.Pass.ControlFlow
import FormCompiler.Pass.DeadCode
import FormCompiler.Pass.Pipeline
import FormCompiler.Session
import FormCompiler.Settings
import FormCompiler.Source
import FormCompiler.Source.Reader
import FormCompiler.Span
import FormCompiler.SymbolTable
import FormCompiler.Table
import FormCompiler.Text.Blank
import FormCompiler.Text.Invisible
import FormCompiler.Text.Quoted
import FormCompiler.Text.Terminal
import FormCompiler.Token
import FormCompiler.Token.Lexer
import FormCompiler.Token.Queue
import FormCompiler.Token.Stream
import FormCompiler.Token.Tokenizer
import FormCompiler.Toml.Layout
import FormCompiler.Toml.Moment
import FormCompiler.Toml.Number
import FormCompiler.Toml.Quoted
import FormCompiler.Toml.Reader
import FormCompiler.Toml.Value
import FormCompiler.Ty
import FormCompiler.Proofs.Machine.Action
import FormCompiler.Proofs.Lowering.Derivation
import FormCompiler.Proofs.Lowering.Growth
import FormCompiler.Proofs.Lowering.Correct
import FormCompiler.Proofs.Lowering.Calls
import FormCompiler.Proofs.Generator
import FormCompiler.Proofs.Workshop
import FormCompiler.Proofs.Code.Sound
import FormCompiler.Proofs.Code.Verified
import FormCompiler.Proofs.Lowering.Laid
import FormCompiler.Proofs.Lowering.Sound
import FormCompiler.Proofs.Machine.Moves
import FormCompiler.Proofs.Machine.Mirror
import FormCompiler.Proofs.Machine.Simulation
import FormCompiler.Proofs.Pass.Prune
import FormCompiler.Proofs.Machine.Travel
import FormCompiler.Proofs.Pass.Replay
import FormCompiler.Proofs.Pass.Improve
import FormCompiler.Proofs.Pass.Folding
import FormCompiler.Proofs.Pass.Collapse
import FormCompiler.Proofs.Pass.Trim
import FormCompiler.Proofs.Pass.Branches
import FormCompiler.Proofs.Pass.Join
import FormCompiler.Proofs.Pass.Levels
import FormCompiler.Proofs.Machine.Typed
import FormCompiler.Proofs.Machine.Halting
import FormCompiler.Proofs.Machine.Safety
import FormCompiler.Proofs.Produced
import FormCompiler.Proofs.Session.Accept
import FormCompiler.Proofs.Session.Levels
import FormCompiler.Proofs.Lowering.Accepted
import FormCompiler.Proofs.Lowering.Careful
import FormCompiler.Proofs.Lowering.Redeclared
import FormCompiler.Proofs.Session.Steps
import FormCompiler.Proofs.Verification
import FormCompiler.Proofs.Parser.DeclarationReader
import FormCompiler.Proofs.Parser.Kept
import FormCompiler.Proofs.Parser.Next
import FormCompiler.Proofs.Machine.Faults
import FormCompiler.Proofs.Termination
import FormCompiler.Proofs.Parser.Words
import FormCompiler.Proofs.Session.Visits
import FormCompiler.Proofs.Session.Callers
import FormCompiler.Proofs.Lowering.Named
import FormCompiler.Proofs.Machine.Named
import FormCompiler.Proofs.Session.Alike
import FormCompiler.Proofs.Session.Failed
import FormCompiler.Proofs.Machine.BigStep
import FormCompiler.Proofs.Machine.Recursion
import FormCompiler.Proofs.Machine.Depth
import FormCompiler.Proofs.Machine.Limits
import FormCompiler.Proofs.Session.Sources
import FormCompiler.Proofs.Lowering.Parts
import FormCompiler.Proofs.Parser.Resolved
import FormCompiler.Proofs.Parser.Snapshots
import FormCompiler.Proofs.Lowering.Types
import FormCompiler.Proofs.Session.Types
import FormCompiler.Proofs.Lowering.Abreast
import FormCompiler.Proofs.Parser.Doubts
import FormCompiler.Proofs.Parser.Abreast
import FormCompiler.Proofs.Parser.Renaming
import FormCompiler.Proofs.Session.Abreast
import FormCompiler.Proofs.Session.Renamed
import FormCompiler.Proofs.Parser.Discipline
import FormCompiler.Proofs.Parser.Grammar
import FormCompiler.Proofs.Parser.Derived
import FormCompiler.Proofs.Parser.Trees
import FormCompiler.Proofs.Decimal.Exact
import FormCompiler.Proofs.Decimal.Numerals
import FormCompiler.Proofs.Parser.Rendering
import FormCompiler.Proofs.Parser.Written
import FormCompiler.Proofs.Parser.RoundTrip
import FormCompiler.Proofs.Lowering.Placed
import FormCompiler.Proofs.Placement
import FormCompiler.Proofs.Rotation
import FormCompiler.Proofs.Rollback
import FormCompiler.Proofs.Token.Tokenizer
import FormCompiler.Proofs.Token.Lexer
import FormCompiler.Proofs.Parser.Spans
import FormCompiler.Proofs.Parser.Located
import FormCompiler.Proofs.Token.Queue
import FormCompiler.Proofs.Token.Agree
import FormCompiler.Proofs.Parser.Ending
import FormCompiler.Proofs.Session.Ending
import FormCompiler.Proofs.Source
import FormCompiler.Proofs.Token.Prefix
import FormCompiler.Proofs.Token.Spelling
import FormCompiler.Proofs.Arithmetic.Spelling
import FormCompiler.Proofs.Arithmetic.Printed
import FormCompiler.Proofs.Arithmetic.Reading
import FormCompiler.Proofs.Arithmetic.Running
import FormCompiler.Proofs.Code.Built
import FormCompiler.Proofs.Machine.Checked
import FormCompiler.Proofs.Pass.Exact
import FormCompiler.Proofs.Pass.Settle
import FormCompiler.Proofs.Pass.DeadCode
import FormCompiler.Proofs.Pass.Weight
import FormCompiler.Proofs.Pass.Sweep
import FormCompiler.Proofs.Pass.Simplify
import FormCompiler.Proofs.Parser.Foresight
import FormCompiler.Proofs.Decimal.Figures
import FormCompiler.Proofs.Session.Ledger
import FormCompiler.Proofs.Pass.Reports
import FormCompiler.Proofs.Pass.Arrangement
import FormCompiler.Proofs.Code.Requests
