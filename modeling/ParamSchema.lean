import ParamSchema.CommandLine.Arguments
import ParamSchema.CommandLine.Help
import ParamSchema.CommandLine.Run
import ParamSchema.Declaration.Cache
import ParamSchema.Declaration.Extract
import ParamSchema.Declaration.Scan
import ParamSchema.Defaults
import ParamSchema.Documentation.Comment
import ParamSchema.Documentation.Lead
import ParamSchema.Documentation.TypeTag
import ParamSchema.Double.Arithmetic
import ParamSchema.Double.Basic
import ParamSchema.Double.Decimal
import ParamSchema.Double.Printed
import ParamSchema.FileSystem
import ParamSchema.Json.Basic
import ParamSchema.Main
import ParamSchema.Modules.Graph
import ParamSchema.Modules.Specifier
import ParamSchema.Numeral
import ParamSchema.Parse.Comments
import ParamSchema.Parse.Expressions
import ParamSchema.Parse.File
import ParamSchema.Parse.Functions
import ParamSchema.Parse.Literal
import ParamSchema.Parse.Markup
import ParamSchema.Parse.Pattern
import ParamSchema.Parse.Reader
import ParamSchema.Parse.Rules
import ParamSchema.Parse.Statements
import ParamSchema.Parse.Types
import ParamSchema.Path
import ParamSchema.Payload.Base64
import ParamSchema.Payload.Merge
import ParamSchema.Payload.Written
import ParamSchema.Program.Constants
import ParamSchema.Program.Load
import ParamSchema.Program.Lookup
import ParamSchema.Program.Resolve
import ParamSchema.Program.Symbols
import ParamSchema.Report.Banner
import ParamSchema.Report.Table
import ParamSchema.Resolver
import ParamSchema.Row
import ParamSchema.Search
import ParamSchema.Service
import ParamSchema.Shape.Basic
import ParamSchema.Shape.Describe
import ParamSchema.Shape.Leaves
import ParamSchema.Shape.Members
import ParamSchema.Shape.Written
import ParamSchema.Source.Escape
import ParamSchema.Source.File
import ParamSchema.Table
import ParamSchema.Text.Basic
import ParamSchema.Text.Blank
import ParamSchema.Text.Digit
import ParamSchema.Text.Search
import ParamSchema.Text.Utf8
import ParamSchema.Text.Word
import ParamSchema.Tree.Kind
import ParamSchema.Tree.Node
import ParamSchema.Tree.Place
import ParamSchema.Proofs.ModuleGraph
import ParamSchema.Proofs.CacheHistory
import ParamSchema.Proofs.Json.Reading
import ParamSchema.Proofs.Layout.Basic
import ParamSchema.Proofs.Layout.Expressions
import ParamSchema.Proofs.Layout.File
import ParamSchema.Proofs.Outcome
import ParamSchema.Proofs.Payload.Bytes
import ParamSchema.Proofs.Payload.Decoding
import ParamSchema.Proofs.Places
import ParamSchema.Proofs.Precedence
import ParamSchema.Proofs.Rows
import ParamSchema.Proofs.Shape.Classification
import ParamSchema.Proofs.Shape.Grouping
import ParamSchema.Proofs.Shape.Leaves
import ParamSchema.Proofs.Shape.Literals
import ParamSchema.Proofs.Specifiers
import ParamSchema.Proofs.Textual
import ParamSchema.Proofs.Program.Symbols
import ParamSchema.Proofs.Program.Load
import ParamSchema.Proofs.Program.Exports
import ParamSchema.Proofs.Extraction.Calls
import ParamSchema.Proofs.Extraction.Frame
import ParamSchema.Proofs.Layout.Order
import ParamSchema.Proofs.ServiceHistory
import ParamSchema.Proofs.Declarations
import ParamSchema.Proofs.Double.Exact
import ParamSchema.Proofs.Double.Decimals
import ParamSchema.Proofs.Layout.Slices
import ParamSchema.Proofs.Numerals.Decimals
import ParamSchema.Proofs.Numerals.Literals
import ParamSchema.Proofs.Defaults.Evaluation
import ParamSchema.Proofs.Defaults.Folding
import ParamSchema.Proofs.Double.Printing
import ParamSchema.Proofs.Defaults.Constants
import ParamSchema.Proofs.Defaults.Parameters
import ParamSchema.Proofs.Numerals.Reading
import ParamSchema.Proofs.Numerals.Agreement
import ParamSchema.Proofs.Defaults.Depth
import ParamSchema.Proofs.Documentation.Cutting
import ParamSchema.Proofs.Documentation.TypeTags
import ParamSchema.Proofs.Payload.Merging
import ParamSchema.Proofs.Shape.Values
import ParamSchema.Proofs.Shape.Enumerations
import ParamSchema.Proofs.Relocation
import ParamSchema.Proofs.Text.Pieces
import ParamSchema.Proofs.Report.Table
import ParamSchema.Proofs.Double.RoundTrip
import ParamSchema.Proofs.Layout.Trivia
import ParamSchema.Proofs.Layout.Segments
import ParamSchema.Proofs.Layout.Weaving
import ParamSchema.Proofs.Documentation.Leads
import ParamSchema.Proofs.Documentation.Finding
import ParamSchema.Proofs.Numerals.Spellings
import ParamSchema.Proofs.Strings.Spelling
import ParamSchema.Proofs.Strings.Splitting
import ParamSchema.Proofs.Strings.Values
