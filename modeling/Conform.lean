import Conform.Codec
import Conform.CommandLine.Run
import Conform.File.Tree
import Conform.Main
import Conform.Proofs.Conversion.Verdict
import Conform.Proofs.FieldMap
import Conform.Proofs.Shape.Parts
import Conform.Resource
import Conform.Table.Dump
import Conform.Proofs.Conversion.Asked
import Conform.Proofs.Table.References
import Conform.Proofs.Conversion.Budget
import Conform.Proofs.Table.Productive
import Conform.Proofs.Conversion.Termination
import Conform.Proofs.Cache
import Conform.Proofs.Codec
import Conform.Proofs.Conversion.Object
import Conform.Proofs.Conversion.Converted
import Conform.Proofs.Conversion.Back
import Conform.Proofs.Conversion.Choice
import Conform.Proofs.Conversion.Words
import Conform.Proofs.Conversion.Location
import Conform.Proofs.Conversion.RoundTrip
import Conform.Proofs.Shape.Rearranged
import Conform.Proofs.Table.Related
import Conform.Proofs.Conversion.Acceptance
import Conform.Proofs.Conversion.Resolution
import Conform.Proofs.Conversion.Order
import Conform.Proofs.Conversion.Symmetry
import Conform.Proofs.Number.Digits
import Conform.Proofs.Number.Rounding
import Conform.Proofs.Number.Shortest
import Conform.Proofs.Json.Numeral
import Conform.Proofs.Json.Quoted
import Conform.Proofs.Json.RoundTrip
import Conform.Proofs.Shape.Unlabelled
import Conform.Proofs.Table.Document
import Conform.Proofs.Table.Reading
import Conform.Proofs.Resource
import Conform.Proofs.Yaml.Scanned
import Conform.Proofs.Yaml.Tokens
import Conform.Proofs.Yaml.Nodes
import Conform.Proofs.Yaml.Graph
import Conform.Proofs.Yaml.Values
import Conform.Proofs.Documents
import Conform.Proofs.Table.WellFormed
import Conform.Proofs.Conversion.FirstFault
import Conform.Proofs.Warming
import Conform.Proofs.Conversion.Rendering
import Conform.Proofs.CommandLine.Request
import Conform.Proofs.CommandLine.Check
import Conform.Proofs.Text.Lowercase
import Conform.Proofs.Shape.TypedName
import Conform.Proofs.Text.Pattern
import Conform.Proofs.Text.Run
import Conform.Proofs.Calendar.Iso
import Conform.Proofs.Conversion.Dates
import Conform.Proofs.Conversion.Rendered
import Conform.Proofs.Portable.Lexemes
import Conform.Proofs.Portable.Words
import Conform.Proofs.Portable.Scalars
import Conform.Proofs.Portable.Tokens
import Conform.Proofs.Portable.Notation
import Conform.Proofs.Portable.Nodes
import Conform.Proofs.Portable.Values
import Conform.Proofs.Portable.Table
import Conform.Proofs.Path
import Conform.Proofs.Shape.Built
import Conform.Proofs.FieldMap.Inverse
