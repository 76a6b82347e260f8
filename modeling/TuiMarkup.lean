import TuiMarkup.Binding
import TuiMarkup.Catalog.Basic
import TuiMarkup.Catalog.Schema
import TuiMarkup.Catalog.TerminalGui
import TuiMarkup.Code.ClassFile
import TuiMarkup.Code.Fields
import TuiMarkup.Code.Initializer
import TuiMarkup.Code.Literal
import TuiMarkup.Code.Page
import TuiMarkup.Code.Wiring
import TuiMarkup.Command.Arguments
import TuiMarkup.Command.Batch
import TuiMarkup.Command.Configuration
import TuiMarkup.Command.Run
import TuiMarkup.Compilation
import TuiMarkup.Diagnostic.Basic
import TuiMarkup.Diagnostic.Reader
import TuiMarkup.Diagnostic.Report
import TuiMarkup.Files.FileSystem
import TuiMarkup.Files.Glob
import TuiMarkup.Files.Path
import TuiMarkup.Files.Wildcard
import TuiMarkup.Json.Reader
import TuiMarkup.Json.Token
import TuiMarkup.Json.Value
import TuiMarkup.Json.Writer
import TuiMarkup.Main
import TuiMarkup.Markup.Document
import TuiMarkup.Markup.Element
import TuiMarkup.Markup.Fault
import TuiMarkup.Markup.Location
import TuiMarkup.Markup.Name
import TuiMarkup.Markup.Piece
import TuiMarkup.Markup.Reference
import TuiMarkup.Markup.Scan
import TuiMarkup.Markup.Token
import TuiMarkup.Markup.Tree
import TuiMarkup.Project
import TuiMarkup.Proofs.Acceptance
import TuiMarkup.Proofs.Accounting
import TuiMarkup.Proofs.BatchAlignment
import TuiMarkup.Proofs.BindingGrammar
import TuiMarkup.Proofs.BindingWiring
import TuiMarkup.Proofs.Building
import TuiMarkup.Proofs.CheckRun
import TuiMarkup.Proofs.ClassLayout
import TuiMarkup.Proofs.ClassText
import TuiMarkup.Proofs.Concatenation
import TuiMarkup.Proofs.ControlTree
import TuiMarkup.Proofs.DataContext
import TuiMarkup.Proofs.Decimals
import TuiMarkup.Proofs.Declarations
import TuiMarkup.Proofs.Discovery
import TuiMarkup.Proofs.Dispatch
import TuiMarkup.Proofs.DocumentOrder
import TuiMarkup.Proofs.Emission
import TuiMarkup.Proofs.EmptyContext
import TuiMarkup.Proofs.FieldNames
import TuiMarkup.Proofs.FloatLiteral
import TuiMarkup.Proofs.Generation
import TuiMarkup.Proofs.GenerationReport
import TuiMarkup.Proofs.GlobSearch
import TuiMarkup.Proofs.HandlerNames
import TuiMarkup.Proofs.IndentedText
import TuiMarkup.Proofs.InputOrder
import TuiMarkup.Proofs.JsonText
import TuiMarkup.Proofs.Layout
import TuiMarkup.Proofs.LineBreaks
import TuiMarkup.Proofs.LineFeeds
import TuiMarkup.Proofs.Nesting
import TuiMarkup.Proofs.OneLine
import TuiMarkup.Proofs.PathOrder
import TuiMarkup.Proofs.PathSegments
import TuiMarkup.Proofs.PathSpelling
import TuiMarkup.Proofs.Placeless
import TuiMarkup.Proofs.Places
import TuiMarkup.Proofs.Plan
import TuiMarkup.Proofs.Policy
import TuiMarkup.Proofs.Precedence
import TuiMarkup.Proofs.Printing
import TuiMarkup.Proofs.QuotedText
import TuiMarkup.Proofs.Reading
import TuiMarkup.Proofs.Relocation
import TuiMarkup.Proofs.Rendering
import TuiMarkup.Proofs.ReportLines
import TuiMarkup.Proofs.ReportText
import TuiMarkup.Proofs.RoundTrip
import TuiMarkup.Proofs.RunAccount
import TuiMarkup.Proofs.Scanning
import TuiMarkup.Proofs.SchemaGrammar
import TuiMarkup.Proofs.SchemaText
import TuiMarkup.Proofs.Slots
import TuiMarkup.Proofs.Spelling
import TuiMarkup.Proofs.Splitting
import TuiMarkup.Proofs.StructureOnly
import TuiMarkup.Proofs.Targets
import TuiMarkup.Proofs.TerminalGui
import TuiMarkup.Proofs.TokenGrammar
import TuiMarkup.Proofs.TokenPlaces
import TuiMarkup.Proofs.TokenStructure
import TuiMarkup.Proofs.TreePlaces
import TuiMarkup.Proofs.Trimming
import TuiMarkup.Proofs.ValidationReport
import TuiMarkup.Proofs.Validity
import TuiMarkup.Text.Blank
import TuiMarkup.Text.Decimal
import TuiMarkup.Text.LineBreak
import TuiMarkup.Text.Split
import TuiMarkup.Text.Table
import TuiMarkup.Validation
import TuiMarkup.Version
