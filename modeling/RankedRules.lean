import RankedRules.Config
import RankedRules.Context.Basic
import RankedRules.Context.Take
import RankedRules.Entries
import RankedRules.Failure
import RankedRules.Files.Basic
import RankedRules.Files.PathName
import RankedRules.Loading.Model
import RankedRules.Loading.RuleFile
import RankedRules.Loading.XmlModel
import RankedRules.Lookup
import RankedRules.Main
import RankedRules.Model
import RankedRules.Number.Basic
import RankedRules.Number.Decimal
import RankedRules.Number.Double
import RankedRules.Number.Shortest
import RankedRules.Operator
import RankedRules.ParseError
import RankedRules.PropertyList.Parser
import RankedRules.PropertyList.Printer
import RankedRules.Qualifier.Basic
import RankedRules.Qualifier.Parser
import RankedRules.Query.Command
import RankedRules.Query.Override
import RankedRules.Query.Source
import RankedRules.Rule.Basic
import RankedRules.Rule.Parser
import RankedRules.Rule.Priority
import RankedRules.Rule.RightSide
import RankedRules.Text.Alphanumeric
import RankedRules.Text.Blank
import RankedRules.Text.CaseFold
import RankedRules.Text.Hexadecimal
import RankedRules.Text.Pieces
import RankedRules.Text.Reader
import RankedRules.Text.Scan
import RankedRules.Text.Size
import RankedRules.Toml.Basic
import RankedRules.Toml.Dated
import RankedRules.Toml.Document
import RankedRules.Toml.Quoted
import RankedRules.Toml.Scalar
import RankedRules.Toml.Statement
import RankedRules.Toml.Writer
import RankedRules.Value.Basic
import RankedRules.Value.Json
import RankedRules.Value.KeyPath
import RankedRules.Wildcard
import RankedRules.Wildcard.Size
import RankedRules.Xml.Markup
import RankedRules.Xml.Name
import RankedRules.Xml.Reference
import RankedRules.Xml.Tree
import RankedRules.Proofs.Inference.Reads
import RankedRules.Proofs.Inference.Run
import RankedRules.Proofs.Inference.Materialise
import RankedRules.Proofs.Inference.Cycle
import RankedRules.Proofs.Inference.Locality
import RankedRules.Proofs.Inference.Selection
import RankedRules.Proofs.Inference.Agreement
import RankedRules.Proofs.Qualifier.Reading
import RankedRules.Proofs.Rule.ReadBack
import RankedRules.Proofs.Inference.Failing
import RankedRules.Proofs.Value.KeyPath
import RankedRules.Proofs.Loading.Kept
import RankedRules.Proofs.Loading.Sound
import RankedRules.Proofs.Query.Supplied
import RankedRules.Proofs.Context.Changes
import RankedRules.Proofs.PropertyList.Layout
import RankedRules.Proofs.Rule.Heading
import RankedRules.Proofs.Rule.Literal
import RankedRules.Proofs.Rule.Cursor
import RankedRules.Proofs.Rule.Equality
import RankedRules.Proofs.Context.Removal
import RankedRules.Proofs.Query.Overrides
import RankedRules.Proofs.Context.Successive
import RankedRules.Proofs.Inference.Rearranged
import RankedRules.Proofs.Qualifier.Prepared
import RankedRules.Proofs.Operator.Order
import RankedRules.Proofs.Operator.Integers
import RankedRules.Proofs.Qualifier.Numbers
import RankedRules.Proofs.Query.BothSides
import RankedRules.Proofs.Loading.Conjunction
import RankedRules.Proofs.Qualifier.Rewriting
import RankedRules.Proofs.Context.Lookups
import RankedRules.Proofs.Loading.Explicit
import RankedRules.Proofs.Loading.Composed
import RankedRules.Proofs.Text.FirstOpen
