import RecordCodec.Declaration
import RecordCodec.Encoding
import RecordCodec.Program.Compilation
import RecordCodec.Program.Run

/-!
# Codecs

A codec is a schema made ready for use: its shape, by which values are packed,
and the program of that shape, by which they are unpacked, with the record
declarations for those who render programs.

Decoding reads a value from the front of the input. Parsing is decoding that
leaves nothing over.
-/

namespace RecordCodec

structure Options where
  dedup : Dedup := .byName
  deriving DecidableEq, Repr

structure Codec where
  name : String
  shape : Shape
  declarations : List Declaration
  program : Program

namespace Codec

def compile [AddressSpace] (schema : Schema) (options : Options) : Except SchemaError Codec := do
  let shape ← schema.resolve
  let declarations ← schema.declarations options.dedup
  return ⟨schema.name, shape, declarations, shape.program schema.name⟩

def encode (codec : Codec) (value : Value) : Except EncodeError Bytes :=
  codec.shape.encode (.ofName codec.name) value

def decode [AddressSpace] (codec : Codec) (data : Bytes) : Except ReadError Decoded :=
  codec.program.run data

def parse [AddressSpace] (codec : Codec) (data : Bytes) : Except ReadError Value := do
  let decoded ← codec.decode data
  if decoded.consumed = data.length then .ok decoded.value
  else .error (.trailingBytes decoded.consumed data.length)

end Codec

end RecordCodec
