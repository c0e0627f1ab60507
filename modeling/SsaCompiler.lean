import SsaCompiler.CommandLine.Arguments
import SsaCompiler.CommandLine.Files
import SsaCompiler.CommandLine.Path
import SsaCompiler.CommandLine.Run
import SsaCompiler.Ir.Body
import SsaCompiler.Ir.Constant
import SsaCompiler.Ir.Function
import SsaCompiler.Ir.Id
import SsaCompiler.Ir.Inst
import SsaCompiler.Ir.Listing
import SsaCompiler.Ir.Module
import SsaCompiler.Ir.Opcode
import SsaCompiler.Ir.Script
import SsaCompiler.Ir.Signature
import SsaCompiler.Ir.Ty
import SsaCompiler.Ir.Typing
import SsaCompiler.Ir.Violation
import SsaCompiler.Journal
import SsaCompiler.Lang.Error
import SsaCompiler.Lang.Prim
import SsaCompiler.Lang.Program
import SsaCompiler.Lang.Program.Cursor
import SsaCompiler.Lang.Program.Expression
import SsaCompiler.Lang.Program.Outline
import SsaCompiler.Lang.Program.Reading
import SsaCompiler.Lang.Token
import SsaCompiler.Lang.Token.Listing
import SsaCompiler.Lang.Token.Scan
import SsaCompiler.Lowering.Coercion
import SsaCompiler.Lowering.Declarations
import SsaCompiler.Lowering.Expression
import SsaCompiler.Lowering.Program
import SsaCompiler.Lowering.Statement
import SsaCompiler.Main
import SsaCompiler.Numeral.Binary
import SsaCompiler.Numeral.FloatText
import SsaCompiler.Numeral.Power
import SsaCompiler.Numeral.Reading
import SsaCompiler.Numeral.Shortest
import SsaCompiler.Numeral.Width
import SsaCompiler.Pipeline
import SsaCompiler.Proofs.Ir.Alike
import SsaCompiler.Proofs.Ir.Edits
import SsaCompiler.Proofs.Ir.Faults
import SsaCompiler.Proofs.Ir.Growing
import SsaCompiler.Proofs.Ir.ResultTypes
import SsaCompiler.Proofs.Ir.Rules
import SsaCompiler.Proofs.Ir.Ssa
import SsaCompiler.Proofs.Ir.StraightLine
import SsaCompiler.Proofs.Ir.Structure
import SsaCompiler.Proofs.Ir.Validity
import SsaCompiler.Proofs.Ir.WellTyped
import SsaCompiler.Proofs.Ir.Within
import SsaCompiler.Proofs.Lang.Program.Adjacency
import SsaCompiler.Proofs.Lang.Program.Completeness
import SsaCompiler.Proofs.Lang.Program.ExpressionCompleteness
import SsaCompiler.Proofs.Lang.Program.ExpressionSoundness
import SsaCompiler.Proofs.Lang.Program.Grammar
import SsaCompiler.Proofs.Lang.Program.Runs
import SsaCompiler.Proofs.Lang.Program.Soundness
import SsaCompiler.Proofs.Lang.Program.Stacks
import SsaCompiler.Proofs.Lang.Token.Lexical
import SsaCompiler.Proofs.Lang.Token.Scanning
import SsaCompiler.Proofs.Lang.Token.Spelling
import SsaCompiler.Proofs.Lang.Token.Trivia
import SsaCompiler.Proofs.Lang.WellFormed
import SsaCompiler.Proofs.Lowering.Body
import SsaCompiler.Proofs.Lowering.Conversions
import SsaCompiler.Proofs.Lowering.Declaring
import SsaCompiler.Proofs.Lowering.Emission
import SsaCompiler.Proofs.Lowering.Expression
import SsaCompiler.Proofs.Lowering.Guarantees
import SsaCompiler.Proofs.Lowering.Independence
import SsaCompiler.Proofs.Lowering.Linkage
import SsaCompiler.Proofs.Lowering.Program
import SsaCompiler.Proofs.Lowering.Reports
import SsaCompiler.Proofs.Lowering.Statement
import SsaCompiler.Proofs.Lowering.Steps
import SsaCompiler.Proofs.Lowering.SymbolTables
import SsaCompiler.Proofs.Lowering.Typing
import SsaCompiler.Proofs.Parsing
import SsaCompiler.Proofs.Reporting
import SsaCompiler.Proofs.Running
import SsaCompiler.Proofs.Semantics.Body
import SsaCompiler.Proofs.Semantics.Expression
import SsaCompiler.Proofs.Semantics.Machine
import SsaCompiler.Proofs.Semantics.Operations
import SsaCompiler.Proofs.Semantics.Preservation
import SsaCompiler.Proofs.Semantics.Source
import SsaCompiler.Proofs.Semantics.World
import SsaCompiler.Text.Blank
import SsaCompiler.Text.Escape
import SsaCompiler.Text.Lines
import SsaCompiler.Proofs.Lang.Later
import SsaCompiler.Proofs.Lang.Token.Joining
import SsaCompiler.Proofs.Lang.Program.Joining
import SsaCompiler.Proofs.Joining
import SsaCompiler.Proofs.Ir.Legible
import SsaCompiler.Proofs.Ir.Recovery
import SsaCompiler.Proofs.Lang.Program.Spelled
import SsaCompiler.Proofs.Lowering.Legible
import SsaCompiler.Proofs.Printing
import SsaCompiler.Proofs.Ir.Constants
import SsaCompiler.Proofs.Ir.Interning
import SsaCompiler.Proofs.Ir.Asked
import SsaCompiler.Proofs.Lowering.Literals
import SsaCompiler.Proofs.Lowering.Texts
import SsaCompiler.Proofs.Semantics.Patterns
import SsaCompiler.Proofs.Semantics.Stretches
import SsaCompiler.Proofs.Semantics.Coercions
import SsaCompiler.Proofs.Semantics.Initializers
import SsaCompiler.Proofs.Interning
import SsaCompiler.Proofs.Ir.Terminators
import SsaCompiler.Proofs.Lang.Token.Misspelling
import SsaCompiler.Proofs.Lang.Token.Calls
import SsaCompiler.Proofs.CommandLine.Disk
import SsaCompiler.Proofs.CommandLine.Run
import SsaCompiler.Proofs.Lang.Program.Walk
import SsaCompiler.Proofs.Lang.Program.Following
import SsaCompiler.Proofs.Lang.Program.FollowingExpression
import SsaCompiler.Proofs.Lang.Program.FollowingProgram
import SsaCompiler.Proofs.ByPosition
import SsaCompiler.Proofs.Ir.Current
import SsaCompiler.Proofs.Lang.Token.Escaping
import SsaCompiler.Proofs.Lang.Program.Accounts
import SsaCompiler.Proofs.Lang.Program.Iterations
import SsaCompiler.Proofs.Lowering.Coercing
