import RecordCodec.Text.Utf8
import RecordCodec.Word.Basic

/-!
# Values

The values that are packed and unpacked. Numbers are whole words, whatever the
width of the field they are for; a signed number is its two's complement word.
-/

namespace RecordCodec

/-- An address is 20 bytes, read as one number. -/
abbrev Address := BitVec 160

inductive Value where
  | uint (word : Word)
  | int (word : Word)
  | bool (flag : Bool)
  | address (account : Address)
  | fixedBytes (bytes : Bytes)
  | bytes (bytes : Bytes)
  | string (text : String)
  | array (items : List Value)
  | tuple (items : List Value)

/-- What a value can be, without its content. -/
inductive Kind where
  | uint | int | bool | address | fixedBytes | bytes | string | array | tuple
  deriving DecidableEq, Repr

namespace Kind

def name : Kind → String
  | uint => "uint"
  | int => "int"
  | bool => "bool"
  | address => "address"
  | fixedBytes => "fixed bytes"
  | bytes => "bytes"
  | string => "string"
  | array => "array"
  | tuple => "tuple"

end Kind

namespace Value

def kind : Value → Kind
  | uint _ => .uint
  | int _ => .int
  | bool _ => .bool
  | address _ => .address
  | fixedBytes _ => .fixedBytes
  | bytes _ => .bytes
  | string _ => .string
  | array _ => .array
  | tuple _ => .tuple

end Value

end RecordCodec
