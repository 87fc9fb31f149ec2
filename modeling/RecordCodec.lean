import RecordCodec.AddressSpace
import RecordCodec.Codec
import RecordCodec.FieldType.Printer
import RecordCodec.Json.Conversion
import RecordCodec.Json.Definition
import RecordCodec.Proofs.Outcome
import RecordCodec.Proofs.Bytes.Slice
import RecordCodec.Proofs.Input.Read
import RecordCodec.Proofs.Word.Bits
import RecordCodec.Proofs.Word.Sign
import RecordCodec.Proofs.Word.Operations
import RecordCodec.Proofs.Word.Range
import RecordCodec.Proofs.Reading.Shape
import RecordCodec.Proofs.Reading.Extent
import RecordCodec.Proofs.Reading.Field
import RecordCodec.Proofs.Program.Compilation
import RecordCodec.Proofs.Program.Shape
import RecordCodec.Proofs.Codec.Decoding
import RecordCodec.Proofs.Encoding.ReadBack
import RecordCodec.Proofs.Codec.RoundTrip
import RecordCodec.Proofs.Encoding.Canonical
import RecordCodec.Proofs.Codec.Canonical
import RecordCodec.Proofs.Codec.Locality
import RecordCodec.Proofs.Program.Alignment
import RecordCodec.Proofs.Codec.Runs
import RecordCodec.Proofs.Program.Placement
import RecordCodec.Proofs.Program.Positions
import RecordCodec.Proofs.Program.Elements
import RecordCodec.Proofs.Layout.Dimensions
import RecordCodec.Proofs.Layout.Unrolling
import RecordCodec.Proofs.Layout.Accounting
import RecordCodec.Proofs.Program.Scopes
import RecordCodec.Proofs.Reading.Wire
import RecordCodec.Proofs.Program.Moves
import RecordCodec.Proofs.Program.Walk
import RecordCodec.Proofs.Codec.Errors
import RecordCodec.Proofs.Json.Integer
import RecordCodec.Proofs.Declaration.Order
import RecordCodec.Proofs.Program.Structure
import RecordCodec.Proofs.Program.Names
import RecordCodec.Proofs.Codec.Windows
import RecordCodec.Proofs.Encoding.Conformance
import RecordCodec.Proofs.FieldType.Grammar
import RecordCodec.Proofs.Schema.Validity
import RecordCodec.Proofs.Declaration.Visits
import RecordCodec.Proofs.Declaration.References
import RecordCodec.Proofs.Declaration.Root
import RecordCodec.Proofs.Json.Number
import RecordCodec.Proofs.Json.Spelling
import RecordCodec.Proofs.Json.Agreement
import RecordCodec.Proofs.Codec.Room
import RecordCodec.Proofs.Json.Parser
import RecordCodec.Proofs.Json.Definition
