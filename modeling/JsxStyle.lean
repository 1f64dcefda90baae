import JsxStyle.Text.Ascii
import JsxStyle.Text.Basic
import JsxStyle.Text.Blank
import JsxStyle.Text.Position
import JsxStyle.Text.Escape
import JsxStyle.Text.Decimal
import JsxStyle.Text.Utf8
import JsxStyle.Text.Span
import JsxStyle.Scan.Literal
import JsxStyle.Scan.Group
import JsxStyle.Scan.Template
import JsxStyle.Scan.Split
import JsxStyle.Scan.Context
import JsxStyle.Scan.Mention
import JsxStyle.Tree.Kind
import JsxStyle.Tree.Ast
import JsxStyle.Tree.Store
import JsxStyle.Tree.Walk
import JsxStyle.Tree.Edit
import JsxStyle.Read.Error
import JsxStyle.Read.Reading
import JsxStyle.Read.Import
import JsxStyle.Read.Markup
import JsxStyle.Read.Operand
import JsxStyle.Read.Code
import JsxStyle.Read.Module
import JsxStyle.Print
import JsxStyle.Style.Error
import JsxStyle.Style.Vocabulary
import JsxStyle.Style.Generator
import JsxStyle.Style.Template
import JsxStyle.Style.Annotation
import JsxStyle.Style.Restyle
import JsxStyle.Settings.Basic
import JsxStyle.Style.Import
import JsxStyle.Compile
import JsxStyle.Settings.Value
import JsxStyle.Settings.Decode
import JsxStyle.Toml.Reader
import JsxStyle.Toml.Lexical
import JsxStyle.Toml.Scalar
import JsxStyle.Toml.Table
import JsxStyle.Toml.Document
import JsxStyle.Cli.Path
import JsxStyle.Cli.Arguments
import JsxStyle.Cli.Host
import JsxStyle.Cli.Run
import JsxStyle.Cli.Directory
import JsxStyle.Main
import JsxStyle.Proofs.Links
import JsxStyle.Proofs.Edits
import JsxStyle.Proofs.Graft
import JsxStyle.Proofs.Scans
import JsxStyle.Proofs.Traces
import JsxStyle.Proofs.Shape
import JsxStyle.Proofs.Handlers
import JsxStyle.Proofs.Forest
import JsxStyle.Proofs.Marks
import JsxStyle.Proofs.Restyled
import JsxStyle.Proofs.Cascade
import JsxStyle.Proofs.Printing
import JsxStyle.Proofs.Passing
import JsxStyle.Proofs.Reread
import JsxStyle.Proofs.Enclosed
import JsxStyle.Proofs.Locality
import JsxStyle.Proofs.Tally
import JsxStyle.Proofs.Account
import JsxStyle.Proofs.Policies
import JsxStyle.Proofs.Comments
import JsxStyle.Proofs.Places
import JsxStyle.Proofs.Outputs
import JsxStyle.Proofs.Alike
import JsxStyle.Proofs.InStep
import JsxStyle.Proofs.Inscribed
import JsxStyle.Proofs.Silent
import JsxStyle.Proofs.Erased
import JsxStyle.Proofs.Unannotated
import JsxStyle.Proofs.Seams
import JsxStyle.Proofs.Scanners
import JsxStyle.Proofs.Faults
import JsxStyle.Proofs.Descent
import JsxStyle.Proofs.Nesting
import JsxStyle.Proofs.Order
import JsxStyle.Proofs.Mappings
import JsxStyle.Proofs.Lasting
import JsxStyle.Proofs.Replaced
import JsxStyle.Proofs.Access
import JsxStyle.Proofs.CheckedScan
import JsxStyle.Proofs.CheckedText
import JsxStyle.Proofs.CheckedRead
import JsxStyle.Proofs.CheckedCode
import JsxStyle.Proofs.CheckedMarkup
import JsxStyle.Proofs.CheckedModule
import JsxStyle.Proofs.CheckedTree
import JsxStyle.Proofs.CheckedStyle
import JsxStyle.Proofs.Verbatim
import JsxStyle.Proofs.Fitted
import JsxStyle.Proofs.CheckedCompile
import JsxStyle.Proofs.Failures
import JsxStyle.Proofs.Trimming
import JsxStyle.Proofs.Tokens
import JsxStyle.Proofs.Mentions
import JsxStyle.Proofs.Commas
import JsxStyle.Proofs.Balanced
import JsxStyle.Proofs.Attributes
import JsxStyle.Proofs.Chunks
import JsxStyle.Proofs.Cooked
import JsxStyle.Proofs.Evaluated
import JsxStyle.Proofs.Clauses
import JsxStyle.Proofs.Statements
import JsxStyle.Proofs.Exchange
import JsxStyle.Proofs.Labels
import JsxStyle.Proofs.Bystanders
import JsxStyle.Proofs.Listing
import JsxStyle.Proofs.Notes
import JsxStyle.Proofs.Positions
import JsxStyle.Proofs.Braced
