import CircuitQir.Assembly.Grammar
import CircuitQir.Assembly.Parser
import CircuitQir.Assembly.Printer
import CircuitQir.Assembly.Rule
import CircuitQir.Bitcode.Body
import CircuitQir.Bitcode.ConstantTable
import CircuitQir.Bitcode.Decoding
import CircuitQir.Bitcode.Encoding
import CircuitQir.Bitcode.Error
import CircuitQir.Bitcode.Format
import CircuitQir.Bitcode.Layout
import CircuitQir.Bitcode.Metadata
import CircuitQir.Bitcode.Tables
import CircuitQir.Bits
import CircuitQir.Bitstream.Abbreviation
import CircuitQir.Bitstream.Cursor
import CircuitQir.Bitstream.Decoding
import CircuitQir.Bitstream.Entry
import CircuitQir.Bitstream.Error
import CircuitQir.Bitstream.Field
import CircuitQir.Bitstream.Item
import CircuitQir.Bitstream.Packer
import CircuitQir.Bitstream.Reading
import CircuitQir.Bitstream.Record
import CircuitQir.Bitstream.Vbr
import CircuitQir.Bitstream.Writer
import CircuitQir.Circuit.Basic
import CircuitQir.Circuit.Builder
import CircuitQir.Circuit.Display
import CircuitQir.Circuit.Json
import CircuitQir.Double.Basic
import CircuitQir.Double.Decimal
import CircuitQir.Double.Product
import CircuitQir.Double.Rounding
import CircuitQir.Double.Stepwise
import CircuitQir.Double.Text
import CircuitQir.Files.Access
import CircuitQir.Files.Path
import CircuitQir.Files.Tree
import CircuitQir.Ir.Agreement
import CircuitQir.Ir.Basic
import CircuitQir.Json.Decoding
import CircuitQir.Json.Escape
import CircuitQir.Json.Number
import CircuitQir.Json.Problem
import CircuitQir.Json.Token
import CircuitQir.Json.Tree
import CircuitQir.Json.Value
import CircuitQir.Lowering.ArtifactDirectory
import CircuitQir.Lowering.Artifacts
import CircuitQir.Lowering.AttributeSet
import CircuitQir.Lowering.Catalog
import CircuitQir.Lowering.Duration
import CircuitQir.Lowering.Emission
import CircuitQir.Lowering.EntryBlock
import CircuitQir.Lowering.EntryPointName
import CircuitQir.Lowering.Error
import CircuitQir.Lowering.Options
import CircuitQir.Lowering.Profile
import CircuitQir.Lowering.Program
import CircuitQir.Lowering.Resources
import CircuitQir.Lowering.Verification
import CircuitQir.Text.Blank
import CircuitQir.Text.Hidden
import CircuitQir.Text.Lines
import CircuitQir.Text.Numeral
import CircuitQir.Text.Quoted
import CircuitQir.Text.Utf8
import CircuitQir.Proofs.Checked
import CircuitQir.Proofs.Lists
import CircuitQir.Proofs.Scans
import CircuitQir.Proofs.Text.Runs
import CircuitQir.Proofs.Bitstream.Packing
import CircuitQir.Proofs.Bitstream.Contents
import CircuitQir.Proofs.Bitstream.Alignment
import CircuitQir.Proofs.Bitstream.Overflow
import CircuitQir.Proofs.Bitstream.Blobs
import CircuitQir.Proofs.Bitstream.Walk
import CircuitQir.Proofs.Bitstream.Size
import CircuitQir.Proofs.Bitstream.RoundTrip
import CircuitQir.Proofs.Bitstream.Writing
import CircuitQir.Proofs.Bitstream.Truncation
import CircuitQir.Proofs.Bitstream.Machine
import CircuitQir.Proofs.Bitstream.Accumulator
import CircuitQir.Proofs.Bitstream.VariableWidth
import CircuitQir.Proofs.Bitstream.Triples
import CircuitQir.Proofs.Bitstream.Safety
import CircuitQir.Proofs.Bitstream.Abbreviations
import CircuitQir.Proofs.Bitstream.Commands
import CircuitQir.Proofs.Bitcode.Numbering
import CircuitQir.Proofs.Bitcode.Declared
import CircuitQir.Proofs.Bitcode.Constants
import CircuitQir.Proofs.Bitcode.Flags
import CircuitQir.Proofs.Bitcode.Calls
import CircuitQir.Proofs.Bitcode.Bodies
import CircuitQir.Proofs.Bitcode.Modules
import CircuitQir.Proofs.Bitcode.Sizes
import CircuitQir.Proofs.Bitcode.Filling
import CircuitQir.Proofs.Bitcode.RoundTrip
import CircuitQir.Proofs.Bitcode.Stability
import CircuitQir.Proofs.Bitcode.Truncation
import CircuitQir.Proofs.Bitcode.Steps
import CircuitQir.Proofs.Bitcode.Closed
import CircuitQir.Proofs.Bitcode.Outline
import CircuitQir.Proofs.Bitcode.NormalForm
import CircuitQir.Proofs.Bitcode.Safety
import CircuitQir.Proofs.Bitcode.Lookups
import CircuitQir.Proofs.Bitcode.References
import CircuitQir.Proofs.Double.Rounding
import CircuitQir.Proofs.Double.Shortest
import CircuitQir.Proofs.Double.Digits
import CircuitQir.Proofs.Double.Nearest
import CircuitQir.Proofs.Double.Fewest
import CircuitQir.Proofs.Double.Stepwise
import CircuitQir.Proofs.Double.Accuracy
import CircuitQir.Proofs.Double.Literal
import CircuitQir.Proofs.Assembly.Rules
import CircuitQir.Proofs.Assembly.Literals
import CircuitQir.Proofs.Assembly.Grammar
import CircuitQir.Proofs.Assembly.Lines
import CircuitQir.Proofs.Assembly.Spelling
import CircuitQir.Proofs.Assembly.RoundTrip
import CircuitQir.Proofs.Assembly.Stability
import CircuitQir.Proofs.Assembly.Shown
import CircuitQir.Proofs.Assembly.Languages
import CircuitQir.Proofs.Assembly.Numbers
import CircuitQir.Proofs.Assembly.Derivations
import CircuitQir.Proofs.Assembly.Rejections
import CircuitQir.Proofs.Assembly.Relayout
import CircuitQir.Proofs.Ir.CallTypes
import CircuitQir.Proofs.Lowering.Catalog
import CircuitQir.Proofs.Lowering.EntryBlock
import CircuitQir.Proofs.Lowering.Names
import CircuitQir.Proofs.Lowering.EntryPointName
import CircuitQir.Proofs.Lowering.Finished
import CircuitQir.Proofs.Lowering.Parity
import CircuitQir.Proofs.Lowering.RoundTrip
import CircuitQir.Proofs.Lowering.Accounting
import CircuitQir.Proofs.Lowering.Acceptance
import CircuitQir.Proofs.Lowering.Contents
import CircuitQir.Proofs.Lowering.ResourceUse
import CircuitQir.Proofs.Lowering.Injectivity
import CircuitQir.Proofs.Lowering.Drift
import CircuitQir.Proofs.Json.Scalars
import CircuitQir.Proofs.Json.Documents
import CircuitQir.Proofs.Json.Structures
import CircuitQir.Proofs.Circuit.Documents
import CircuitQir.Proofs.Lowering.Offences
import CircuitQir.Proofs.Circuit.Builder
import CircuitQir.Proofs.Lowering.Calls
import CircuitQir.Proofs.Lowering.Verification
import CircuitQir.Proofs.Lowering.Emission
import CircuitQir.Proofs.Lowering.Modules
import CircuitQir.Proofs.Lowering.Options
import CircuitQir.Proofs.Lowering.Renaming
import CircuitQir.Proofs.Lowering.Artifacts
