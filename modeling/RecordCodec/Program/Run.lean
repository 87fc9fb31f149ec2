import RecordCodec.Program.Basic
import RecordCodec.Program.Input
import RecordCodec.Value

/-!
# Running programs

Running an operation takes the cursor to a value and the cursor behind it, and
stops at the first error. Any program can be run, not only compiled ones.

A header is checked against the rest of the input before anything it counts is
read. For a loop this takes every element to be at least one byte long.
-/

namespace RecordCodec

namespace Primitive

/-- The value of a field that was read as a right-aligned number. -/
def value (type : Primitive) (field : Word) : Value :=
  match type with
  | .bool => .bool (field != 0)
  | .address => .address (field.setWidth 160)
  | type => if type.isSigned then .int (field.extendSign type.bitSize) else .uint field

end Primitive

namespace ElementKind

variable [AddressSpace]

/-- Reads an element `offset` bytes behind the cursor. -/
def read (data : Bytes) (cursor offset shift bits : Nat) : ElementKind → Except ReadError Value
  | primitive type => do
    let field ← Input.readNumber data cursor offset shift bits
    return type.value field
  | fixedBytes size => do
    let field ← Input.readBytes data cursor offset shift bits
    return .fixedBytes (field.toBytes.take size)

end ElementKind

namespace ElementRead

variable [AddressSpace]

/-- Reads `count` elements from `offset` bytes behind the cursor on. -/
def readFrom (element : ElementRead) (data : Bytes) (cursor : Nat) :
    (count offset : Nat) → Except ReadError (List Value)
  | 0, _ => .ok []
  | count + 1, offset => do
    let first ← element.leaf.read data cursor offset element.shift element.bits
    let rest ← element.readFrom data cursor count (offset + element.stride)
    return first :: rest

end ElementRead

namespace Payload

/-- The bytes that `count` units occupy. -/
def size (count : Nat) : Payload → Nat
  | elements element => count * element.stride
  | _ => count

variable [AddressSpace]

/-- Reads `count` units at the cursor. -/
def read (data : Bytes) (name : String) (count cursor : Nat) : Payload → Except ReadError Value
  | bytes => .ok (.bytes (Input.copy data cursor count))
  | text =>
    match Text.ofUtf8? (Input.copy data cursor count) with
    | some content => .ok (.string content)
    | none => .error (.invalidUtf8 name)
  | elements element => do
    let items ← element.readFrom data cursor count 0
    return .array items

/-- Reads `count` units and moves behind them. -/
def run (data : Bytes) (name : String) (count cursor : Nat) (payload : Payload) :
    Except ReadError (Value × Nat) :=
  if payload.size count ≤ Input.remaining data cursor then do
    let value ← payload.read data name count cursor
    let cursor ← Input.move data cursor (payload.size count)
    return (value, cursor)
  else .error (.lengthOverflow name count)

end Payload

namespace Op

/-- Runs a body `count` times and joins the values. -/
def repeatRun (body : Nat → Except ReadError (List Value × Nat)) :
    (count cursor : Nat) → Except ReadError (List Value × Nat)
  | 0, cursor => .ok ([], cursor)
  | count + 1, cursor => do
    let (first, cursor) ← body cursor
    let (rest, cursor) ← repeatRun body count cursor
    return (first ++ rest, cursor)

variable [AddressSpace]

mutual

def run (data : Bytes) : Op → (cursor : Nat) → Except ReadError (Value × Nat)
  | .primitive type read, cursor => do
    let field ← Input.readNumber data cursor read.offset read.shift read.bits
    return (type.value field, cursor)
  | .fixedBytes read, cursor => do
    let field ← Input.readBytes data cursor read.offset read.shift read.bits
    return (.fixedBytes (field.toBytes.take (read.bits / 8)), cursor)
  | .lengthPrefixed entry payload, cursor => do
    let cursor ← Input.move data cursor entry.skip
    let (count, cursor) ← Input.readHeader data cursor
    payload.run data entry.name count cursor
  | .nested entry .tuple ⟨ops, tail⟩, cursor => do
    let cursor ← Input.move data cursor entry.skip
    let (values, cursor) ← runAll data ops tail cursor
    return (.tuple values, cursor)
  | .nested entry (.fixedArray _) ⟨ops, tail⟩, cursor => do
    let cursor ← Input.move data cursor entry.skip
    let (values, cursor) ← runAll data ops tail cursor
    return (.array values, cursor)
  | .nested entry .dynamicArray ⟨ops, tail⟩, cursor => do
    let cursor ← Input.move data cursor entry.skip
    let (count, cursor) ← Input.readHeader data cursor
    if count ≤ Input.remaining data cursor then
      let (values, cursor) ← repeatRun (runAll data ops tail) count cursor
      return (.array values, cursor)
    else .error (.lengthOverflow entry.name count)

/-- Runs operations in order and moves by `tail` behind them. -/
def runAll (data : Bytes) :
    List Op → (tail cursor : Nat) → Except ReadError (List Value × Nat)
  | [], tail, cursor => do
    let cursor ← Input.move data cursor tail
    return ([], cursor)
  | op :: ops, tail, cursor => do
    let (value, cursor) ← op.run data cursor
    let (values, cursor) ← runAll data ops tail cursor
    return (value :: values, cursor)

end

end Op

namespace Block

def run [AddressSpace] (data : Bytes) (block : Block Op) (cursor : Nat) :
    Except ReadError (List Value × Nat) :=
  Op.runAll data block.ops block.tail cursor

end Block

/-- A value and the number of bytes it was read from. -/
structure Decoded where
  value : Value
  consumed : Nat

namespace RootShape

/-- The value of a program from those of its operations. -/
def assemble : RootShape → List Value → Value
  | single, [value] => value
  | _, values => .tuple values

end RootShape

namespace Program

def run [AddressSpace] (program : Program) (data : Bytes) : Except ReadError Decoded := do
  let (values, consumed) ← program.body.run data 0
  return ⟨program.root.assemble values, consumed⟩

end Program

end RecordCodec
