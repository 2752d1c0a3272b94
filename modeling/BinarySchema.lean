/-
# Binary schemas
-/
import BinarySchema.Bytes
import BinarySchema.Catalog
import BinarySchema.Catalog.Compile
import BinarySchema.Catalog.Dependencies
import BinarySchema.Catalog.Error
import BinarySchema.Json
import BinarySchema.Json.Lexeme
import BinarySchema.Json.Number
import BinarySchema.Json.Printer
import BinarySchema.Json.Reader
import BinarySchema.Layout
import BinarySchema.Layout.Decode
import BinarySchema.Layout.Encode
import BinarySchema.Layout.Key
import BinarySchema.Layout.Search
import BinarySchema.Layout.Size
import BinarySchema.Layout.Slots
import BinarySchema.Layout.Span
import BinarySchema.Number.Binary
import BinarySchema.Number.Format
import BinarySchema.Number.Notation
import BinarySchema.Number.Numeral
import BinarySchema.Number.Shortest
import BinarySchema.Primitive
import BinarySchema.Proofs.Access
import BinarySchema.Proofs.Amending
import BinarySchema.Proofs.Bytes
import BinarySchema.Proofs.Catalog
import BinarySchema.Proofs.CheckedRead
import BinarySchema.Proofs.CheckedSlots
import BinarySchema.Proofs.CheckedWrite
import BinarySchema.Proofs.Compile
import BinarySchema.Proofs.CompileSteps
import BinarySchema.Proofs.Counts
import BinarySchema.Proofs.CutText
import BinarySchema.Proofs.Cycles
import BinarySchema.Proofs.Decode
import BinarySchema.Proofs.DecodeImage
import BinarySchema.Proofs.Defaults
import BinarySchema.Proofs.Degradation
import BinarySchema.Proofs.Delimited
import BinarySchema.Proofs.Dependencies
import BinarySchema.Proofs.Dispatch
import BinarySchema.Proofs.Document
import BinarySchema.Proofs.Edit
import BinarySchema.Proofs.Faults
import BinarySchema.Proofs.Holes
import BinarySchema.Proofs.Idempotence
import BinarySchema.Proofs.Image
import BinarySchema.Proofs.Inlining
import BinarySchema.Proofs.Leaves
import BinarySchema.Proofs.Legible
import BinarySchema.Proofs.Locality
import BinarySchema.Proofs.LongestText
import BinarySchema.Proofs.Lookup
import BinarySchema.Proofs.Lossless
import BinarySchema.Proofs.MapAmending
import BinarySchema.Proofs.Names
import BinarySchema.Proofs.NeverFaults
import BinarySchema.Proofs.Numeral
import BinarySchema.Proofs.Order
import BinarySchema.Proofs.Overwrite
import BinarySchema.Proofs.Packed
import BinarySchema.Proofs.Parts
import BinarySchema.Proofs.Placing
import BinarySchema.Proofs.Primitive
import BinarySchema.Proofs.ReadSchema
import BinarySchema.Proofs.Record
import BinarySchema.Proofs.Regular
import BinarySchema.Proofs.Resolution
import BinarySchema.Proofs.RoundTrip
import BinarySchema.Proofs.Search
import BinarySchema.Proofs.Settled
import BinarySchema.Proofs.Sizing
import BinarySchema.Proofs.SlotReading
import BinarySchema.Proofs.Sound
import BinarySchema.Proofs.Splice
import BinarySchema.Proofs.Submission
import BinarySchema.Proofs.Table
import BinarySchema.Proofs.Tag
import BinarySchema.Proofs.Template
import BinarySchema.Proofs.Text
import BinarySchema.Proofs.Trailing
import BinarySchema.Proofs.Truncation
import BinarySchema.Proofs.WellFormed
import BinarySchema.Proofs.Word
import BinarySchema.Proofs.WordSizes
import BinarySchema.Proofs.Workspace
import BinarySchema.Proofs.Wrapping
import BinarySchema.Proofs.Write
import BinarySchema.Proofs.WriteSchema
import BinarySchema.Schema
import BinarySchema.Schema.Member
import BinarySchema.Schema.Printer
import BinarySchema.Schema.Reader
import BinarySchema.Settings
import BinarySchema.Table
import BinarySchema.Text.Hidden
import BinarySchema.Text.Quoted
import BinarySchema.Text.Utf8
import BinarySchema.Value
import BinarySchema.Value.Notation
import BinarySchema.Value.OfJson
import BinarySchema.Value.Plain
import BinarySchema.Window
import BinarySchema.Word
import BinarySchema.Workspace
