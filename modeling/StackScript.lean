import StackScript.Boundary
import StackScript.Bytecode.Chunk
import StackScript.Bytecode.Listing
import StackScript.Bytecode.Opcode
import StackScript.CommandLine.Options
import StackScript.CommandLine.Session
import StackScript.Compile.Body
import StackScript.Compile.Emit
import StackScript.Compile.Expression
import StackScript.Compile.Precedence
import StackScript.Compile.Problem
import StackScript.Compile.Program
import StackScript.Compile.State
import StackScript.Compile.Statement
import StackScript.Compile.Variable
import StackScript.Diagnostic.Basic
import StackScript.Diagnostic.Json
import StackScript.Diagnostic.Pretty
import StackScript.Library.Standard
import StackScript.Machine.Fault
import StackScript.Machine.Log
import StackScript.Machine.Native
import StackScript.Machine.Run
import StackScript.Machine.Sink
import StackScript.Machine.State
import StackScript.Machine.Step
import StackScript.Main
import StackScript.Number.Decimal
import StackScript.Number.Literal
import StackScript.Number.Magnitude
import StackScript.Number.Text
import StackScript.Proofs.Code.Assembly
import StackScript.Proofs.Code.Cells
import StackScript.Proofs.Code.Checks
import StackScript.Proofs.Code.Constants
import StackScript.Proofs.Code.Emission
import StackScript.Proofs.Code.Listed
import StackScript.Proofs.Code.Live
import StackScript.Proofs.Code.Parts
import StackScript.Proofs.Code.Postfix
import StackScript.Proofs.Code.Scopes
import StackScript.Proofs.Code.Statement
import StackScript.Proofs.Code.Targets
import StackScript.Proofs.Code.Writing
import StackScript.Proofs.Diagnostic.Place
import StackScript.Proofs.Machine.Boundaries
import StackScript.Proofs.Machine.Calls
import StackScript.Proofs.Machine.Checked
import StackScript.Proofs.Machine.Compiled
import StackScript.Proofs.Machine.Instructions
import StackScript.Proofs.Machine.Limits
import StackScript.Proofs.Machine.Listed
import StackScript.Proofs.Machine.Marks
import StackScript.Proofs.Machine.Memory
import StackScript.Proofs.Machine.Names
import StackScript.Proofs.Machine.Moves
import StackScript.Proofs.Machine.Reactions
import StackScript.Proofs.Machine.Scenes
import StackScript.Proofs.Machine.Histories
import StackScript.Proofs.Machine.Steps
import StackScript.Proofs.Machine.Strings
import StackScript.Proofs.Machine.Trace
import StackScript.Proofs.Machine.Turns
import StackScript.Proofs.Number.Literal
import StackScript.Proofs.Parsing.Declaration
import StackScript.Proofs.Parsing.Ending
import StackScript.Proofs.Parsing.Errors
import StackScript.Proofs.Parsing.Expression
import StackScript.Proofs.Parsing.Function
import StackScript.Proofs.Parsing.Located
import StackScript.Proofs.Parsing.Loop
import StackScript.Proofs.Parsing.Ready
import StackScript.Proofs.Parsing.Stages
import StackScript.Proofs.Parsing.Statement
import StackScript.Proofs.Parsing.Steps
import StackScript.Proofs.Parsing.Stream
import StackScript.Proofs.Parsing.Alike
import StackScript.Proofs.Parsing.Words
import StackScript.Proofs.Value.Outline
import StackScript.Proofs.Value.Texts
import StackScript.Proofs.Recognition.Expression
import StackScript.Proofs.Recognition.Names
import StackScript.Proofs.Recognition.Parts
import StackScript.Proofs.Recognition.Program
import StackScript.Proofs.Recognition.Reading
import StackScript.Proofs.Recognition.Statement
import StackScript.Proofs.Semantics.Expression
import StackScript.Proofs.Semantics.Frame
import StackScript.Proofs.Semantics.Room
import StackScript.Proofs.Semantics.Statement
import StackScript.Proofs.Shape.Expression
import StackScript.Proofs.Shape.Flow
import StackScript.Proofs.Shape.Lawful
import StackScript.Proofs.Shape.Notes
import StackScript.Proofs.Shape.Occurrences
import StackScript.Proofs.Shape.Part
import StackScript.Proofs.Shape.Statement
import StackScript.Proofs.Shape.View
import StackScript.Proofs.Simulation.Compiled
import StackScript.Proofs.Simulation.Expression
import StackScript.Proofs.Simulation.Loop
import StackScript.Proofs.Simulation.Statement
import StackScript.Proofs.Simulation.Structured
import StackScript.Proofs.Source.LineTable
import StackScript.Proofs.Syntax.Expression
import StackScript.Proofs.Syntax.Grammar
import StackScript.Proofs.Syntax.Named
import StackScript.Proofs.Syntax.Statement
import StackScript.Proofs.Token.Front
import StackScript.Proofs.Token.Munch
import StackScript.Proofs.Token.Pattern
import StackScript.Proofs.Token.Places
import StackScript.Proofs.Token.Reading
import StackScript.Proofs.Token.Rescan
import StackScript.Proofs.Token.Scan
import StackScript.Proofs.Token.Tiling
import StackScript.Source.LineTable
import StackScript.Source.Span
import StackScript.Token.Kind
import StackScript.Token.Scan
import StackScript.Value.Basic
import StackScript.Value.Display
import StackScript.Value.Text
import StackScript.Proofs.Code.Parallel
import StackScript.Proofs.CommandLine.Excerpt
import StackScript.Proofs.Machine.Modules
import StackScript.Proofs.Machine.Raised
import StackScript.Proofs.Parsing.Balance
import StackScript.Proofs.Parsing.Sturdy
import StackScript.Proofs.Recognition.Lines
import StackScript.Proofs.Shape.Bottom
import StackScript.Proofs.Machine.Backtrace
import StackScript.Proofs.Code.Moved
import StackScript.Proofs.Code.Sequence
import StackScript.Proofs.Machine.Abreast
import StackScript.Proofs.Machine.Alone
import StackScript.Proofs.Machine.Faults
import StackScript.Proofs.Machine.Pieces
import StackScript.Proofs.Machine.Truncation
import StackScript.Proofs.Parsing.Pace
import StackScript.Proofs.Parsing.Recovery
import StackScript.Proofs.Parsing.Termination
import StackScript.Proofs.Parsing.Upkeep
import StackScript.Proofs.Machine.Whole
import StackScript.Proofs.Text.Run
import StackScript.Proofs.Number.Exact
import StackScript.Proofs.Number.Numeral
import StackScript.Proofs.Number.Pointed
import StackScript.Proofs.Number.Rounding
import StackScript.Proofs.Number.Text
import StackScript.Proofs.Json.Reader
import StackScript.Proofs.Json.Written
import StackScript.Proofs.Diagnostic.Json
import StackScript.Proofs.Code.Needs
import StackScript.Proofs.Code.Distinct
import StackScript.Proofs.Code.Nested
import StackScript.Proofs.Machine.Constants
import StackScript.Proofs.Machine.Sections
import StackScript.Proofs.Recognition.Functions
import StackScript.Proofs.Boundary
import StackScript.Proofs.Code.Runs
import StackScript.Proofs.Source.Bytes
import StackScript.Proofs.Source.LineText
import StackScript.Proofs.Diagnostic.Color
import StackScript.Proofs.Diagnostic.Carets
import StackScript.Proofs.Machine.Operands
