import Reflow.Command.Arguments
import Reflow.Command.Dump
import Reflow.Command.FileName
import Reflow.Command.Folder
import Reflow.Command.Host
import Reflow.Command.Timing
import Reflow.Diagnostic
import Reflow.Doc.Basic
import Reflow.Doc.Break
import Reflow.Doc.Dump
import Reflow.Doc.Fragment
import Reflow.Doc.Layout
import Reflow.Format
import Reflow.Main
import Reflow.Node.Basic
import Reflow.Node.Field
import Reflow.Node.Operator
import Reflow.Node.Shown
import Reflow.Number.Basic
import Reflow.Number.Binary64
import Reflow.Number.Shortest
import Reflow.Options
import Reflow.Parsed
import Reflow.Print.Error
import Reflow.Print.Pairing
import Reflow.Print.Path
import Reflow.Print.Rules
import Reflow.Session
import Reflow.Source.Expression
import Reflow.Source.Fault
import Reflow.Source.Grammar
import Reflow.Source.Literal
import Reflow.Source.Lower
import Reflow.Source.Parameter
import Reflow.Source.Pattern
import Reflow.Source.Read
import Reflow.Source.Reader
import Reflow.Source.Scan
import Reflow.Source.Statement
import Reflow.Source.Token
import Reflow.Source.Tree
import Reflow.Text.Blank
import Reflow.Text.CodePoint
import Reflow.Text.Lines
import Reflow.Text.Printable
import Reflow.Text.Quoted
import Reflow.Text.Shown
import Reflow.Text.Utf8
import Reflow.Proofs.Pairing
import Reflow.Proofs.Subtrees
import Reflow.Proofs.SourceOrder
import Reflow.Proofs.DirectPrinting
import Reflow.Proofs.ParameterList
import Reflow.Proofs.Erasure
import Reflow.Proofs.Outcome
import Reflow.Proofs.Supported
import Reflow.Proofs.PageWidth
import Reflow.Proofs.ForcedBreaks
import Reflow.Proofs.Locality
import Reflow.Proofs.RuleDocuments
import Reflow.Proofs.Whitespace
import Reflow.Proofs.TopLevel
import Reflow.Proofs.Nesting
import Reflow.Proofs.Expressions
import Reflow.Proofs.StatementLines
import Reflow.Proofs.ReaderRules
import Reflow.Proofs.ReadParameters
import Reflow.Proofs.ReadExpressions
import Reflow.Proofs.ReadStatements
import Reflow.Proofs.ReadTexts
import Reflow.Proofs.Reformatting
import Reflow.Proofs.Indentation
import Reflow.Proofs.KeptTrees
import Reflow.Proofs.Raising
import Reflow.Proofs.Unbroken
import Reflow.Proofs.OneLine
import Reflow.Proofs.Readability
import Reflow.Proofs.FlatText
import Reflow.Proofs.LineWidth
import Reflow.Proofs.StructuralLayout
import Reflow.Proofs.Rewriting
import Reflow.Proofs.Inline
import Reflow.Proofs.Blocks
import Reflow.Proofs.FunctionHeader
import Reflow.Proofs.Marking
import Reflow.Proofs.AnyOrder
import Reflow.Proofs.TextLines
import Reflow.Proofs.ByteOffsets
import Reflow.Proofs.Trimming
import Reflow.Proofs.LineEnds
import Reflow.Proofs.Quotation
import Reflow.Proofs.Dumps
