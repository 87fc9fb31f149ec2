import RecordCodec.Path
import RecordCodec.Schema.Shape
import RecordCodec.Value

/-!
# Packed encoding

Leaves of a fixed width are written back to back without padding: numbers
big-endian at their exact width, byte strings as they are. Byte strings and text
of any length, and arrays of a dynamic dimension, start with a header that
counts their bytes or elements. Tuples and fixed dimensions add nothing.

Encoding is strict: every part of the value must be of the kind and length the
shape asks for, and every number must fit its width. The first violation in
reading order is reported with its path, a part before what it contains.
-/

namespace RecordCodec

inductive EncodeError where
  | typeMismatch (path : Path) (expected found : Kind)
  | valueOutOfRange (path : Path) (bits : Nat)
  | lengthMismatch (path : Path) (expected found : Nat)
  | tooLong (path : Path) (length : Nat)
  deriving DecidableEq, Repr

namespace EncodeError

def message : EncodeError → String
  | typeMismatch path expected found =>
    "field `" ++ path.text ++ "`: expected " ++ expected.name ++ ", found " ++ found.name
  | valueOutOfRange path bits =>
    "field `" ++ path.text ++ "`: value does not fit in " ++ toString bits ++ " bits"
  | lengthMismatch path expected found =>
    "field `" ++ path.text ++ "`: expected " ++ toString expected ++ " items, got " ++
      toString found
  | tooLong path length =>
    "field `" ++ path.text ++ "`: length " ++ toString length ++ " exceeds the 32-bit header"

end EncodeError

namespace Header

/-- The bytes of a header. -/
def size : Nat := 4

/-- A length or count as a big-endian header. -/
def encode (path : Path) (count : Nat) : Except EncodeError Bytes :=
  if count < Nat.pow 256 size then .ok (Bytes.ofNat size count) else .error (.tooLong path count)

end Header

namespace Leaf

/-- The kind of value that a leaf takes. -/
def kind : Leaf → Kind
  | primitive .bool => .bool
  | primitive .address => .address
  | primitive type => if type.isSigned then .int else .uint
  | fixedBytes _ => .fixedBytes
  | bytes => .bytes
  | string => .string

def encodeUnsigned (path : Path) (bits : Nat) (word : Word) : Except EncodeError Bytes :=
  if word.FitsUnsigned bits then .ok (Bytes.ofNat (bits / 8) word.toNat)
  else .error (.valueOutOfRange path bits)

def encodeSigned (path : Path) (bits : Nat) (word : Word) : Except EncodeError Bytes :=
  if word.FitsSigned bits then .ok (Bytes.ofNat (bits / 8) word.toNat)
  else .error (.valueOutOfRange path bits)

/-- A byte string behind a header with its length. -/
def encodeCounted (path : Path) (payload : Bytes) : Except EncodeError Bytes := do
  let header ← Header.encode path payload.length
  return header ++ payload

def encode (path : Path) : Leaf → Value → Except EncodeError Bytes
  | primitive .bool, .bool flag => .ok [if flag then 1 else 0]
  | primitive .address, .address account => .ok (Bytes.ofNat 20 account.toNat)
  | primitive (.uint bits), .uint word => encodeUnsigned path bits word
  | primitive (.int bits), .int word => encodeSigned path bits word
  | primitive (.fixedPoint false bits _), .uint word => encodeUnsigned path bits word
  | primitive (.fixedPoint true bits _), .int word => encodeSigned path bits word
  | fixedBytes n, .fixedBytes payload =>
    if payload.length = n then .ok payload
    else .error (.lengthMismatch path n payload.length)
  | bytes, .bytes payload => encodeCounted path payload
  | string, .string text => encodeCounted path (Text.utf8 text)
  | leaf, value => .error (.typeMismatch path leaf.kind value.kind)

end Leaf

namespace Dimension

/-- What stands before the elements: nothing if their number is fixed, and a
header with it otherwise. -/
def encodeCount (path : Path) (count : Nat) : Dimension → Except EncodeError Bytes
  | fixed n => if count = n then .ok [] else .error (.lengthMismatch path n count)
  | dynamic => Header.encode path count

end Dimension

namespace Shape

/-- Writes elements one after the other, counting indices from `i`. -/
def encodeElements (encode : Path → Value → Except EncodeError Bytes) (path : Path) :
    (i : Nat) → List Value → Except EncodeError Bytes
  | _, [] => .ok []
  | i, value :: values => do
    let first ← encode (path.index i) value
    let rest ← encodeElements encode path (i + 1) values
    return first ++ rest

mutual

def encode : Shape → Path → Value → Except EncodeError Bytes
  | leaf type, path, value => type.encode path value
  | tuple components, path, .tuple values =>
    if values.length = components.length then encodeComponents components path values
    else .error (.lengthMismatch path components.length values.length)
  | tuple _, path, value => .error (.typeMismatch path .tuple value.kind)
  | array dim element, path, .array values => do
    let header ← dim.encodeCount path values.length
    let elements ← encodeElements element.encode path 0 values
    return header ++ elements
  | array _ _, path, value => .error (.typeMismatch path .array value.kind)

/-- Writes the components of a tuple, as many as there are both shapes and values. -/
def encodeComponents : List (String × Shape) → Path → List Value → Except EncodeError Bytes
  | (name, shape) :: components, path, value :: values => do
    let first ← shape.encode (path.component name) value
    let rest ← encodeComponents components path values
    return first ++ rest
  | _, _, _ => .ok []

end

end Shape

end RecordCodec
