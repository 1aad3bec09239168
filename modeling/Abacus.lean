import Abacus.Arena
import Abacus.Arena.Evaluate
import Abacus.Arena.Simplify
import Abacus.Arena.Text
import Abacus.Command.Arguments
import Abacus.Command.Binding
import Abacus.Command.Error
import Abacus.Command.Input
import Abacus.Command.Session
import Abacus.Diagnostic
import Abacus.ExecutionError
import Abacus.Expression
import Abacus.Failure
import Abacus.Failure.Description
import Abacus.Failure.Notice
import Abacus.Main
import Abacus.Opcode
import Abacus.Operator
import Abacus.ParseError
import Abacus.Position
import Abacus.Program
import Abacus.Program.Compile
import Abacus.Program.Listing
import Abacus.Program.Run
import Abacus.Proofs.Agreement
import Abacus.Proofs.Beginnings
import Abacus.Proofs.Binding
import Abacus.Proofs.BindingForm
import Abacus.Proofs.Carets
import Abacus.Proofs.DepthLimit
import Abacus.Proofs.Division
import Abacus.Proofs.Evaluation
import Abacus.Proofs.Excerpt
import Abacus.Proofs.Extension
import Abacus.Proofs.Folding
import Abacus.Proofs.Grammar
import Abacus.Proofs.Language
import Abacus.Proofs.Layout
import Abacus.Proofs.Lines
import Abacus.Proofs.Listing
import Abacus.Proofs.Machine
import Abacus.Proofs.Meaning
import Abacus.Proofs.ParameterNames
import Abacus.Proofs.Placement
import Abacus.Proofs.Planting
import Abacus.Proofs.Positions
import Abacus.Proofs.Printing
import Abacus.Proofs.Ranges
import Abacus.Proofs.Reachability
import Abacus.Proofs.Reading
import Abacus.Proofs.Regrouping
import Abacus.Proofs.Renaming
import Abacus.Proofs.Reports
import Abacus.Proofs.Scanning
import Abacus.Proofs.Shape
import Abacus.Proofs.SignedNumerals
import Abacus.Proofs.Simplify.Cost
import Abacus.Proofs.Simplify.Edits
import Abacus.Proofs.Simplify.Invariants
import Abacus.Proofs.Simplify.Loop
import Abacus.Proofs.Simplify.Normal
import Abacus.Proofs.Simplify.Origins
import Abacus.Proofs.Simplify.Places
import Abacus.Proofs.Simplify.Renaming
import Abacus.Proofs.Simplify.Rules
import Abacus.Proofs.Simplify.Settle
import Abacus.Proofs.Simplify.Termination
import Abacus.Proofs.Simplify.Value
import Abacus.Proofs.Spelling
import Abacus.Proofs.StackBound
import Abacus.Proofs.StackUse
import Abacus.Proofs.Step
import Abacus.Proofs.Strategies
import Abacus.Proofs.Traversal
import Abacus.Proofs.ViablePrefix
import Abacus.Proofs.WrittenForm
import Abacus.Report
import Abacus.Scope
import Abacus.Span
import Abacus.Text.Blank
import Abacus.Text.Decimal
import Abacus.Text.DefaultIgnorable
import Abacus.Text.GraphemeExtend
import Abacus.Text.Offset
import Abacus.Text.Printable
import Abacus.Text.Quoted
import Abacus.Token
import Abacus.Token.Scan
import Abacus.Tree
import Abacus.Tree.Parse
import Abacus.Tree.Simplify
import Abacus.Tree.Text
