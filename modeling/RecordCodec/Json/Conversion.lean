import RecordCodec.Json.Basic
import RecordCodec.Path
import RecordCodec.Schema.Shape
import RecordCodec.Value
import RecordCodec.Word.Hex

/-!
# Values as JSON

Numbers up to `2 ^ 53 - 1` in magnitude travel as JSON numbers, others as
hexadecimal text with a mark `0x`, behind a minus sign if they are negative.
Addresses and byte strings are hexadecimal text, arrays and tuples are arrays.

Reading is guided by a shape. It also takes numbers of any size in hexadecimal,
larger ones as JSON numbers, and a tuple as an object with its components by
name. Widths and the lengths of arrays are left for the encoder to judge.
-/

namespace RecordCodec

/-- What is wrong with a part of the JSON. -/
inductive ConversionFault where
  | tupleLength (expected found : Nat)
  | missing
  | notTuple
  | notArray
  | notBool
  | notString
  | notInteger
  | notNatural
  | notHex
  | unmarkedHex
  | malformedHex
  | tooWide
  | addressLength
  deriving DecidableEq, Repr

namespace ConversionFault

def text : ConversionFault → String
  | tupleLength expected found =>
    "expected " ++ toString expected ++ " tuple items, got " ++ toString found
  | missing => "missing"
  | notTuple => "expected array or object for tuple"
  | notArray => "expected array"
  | notBool => "expected bool"
  | notString => "expected string"
  | notInteger => "expected integer"
  | notNatural => "expected non-negative integer"
  | notHex => "expected hex string"
  | unmarkedHex => "expected 0x-prefixed hex"
  | malformedHex => "malformed hex"
  | tooWide => "integer wider than 256 bits"
  | addressLength => "address must be 20 bytes"

end ConversionFault

/-- A fault and where it was found. -/
structure ConversionError where
  path : Path
  fault : ConversionFault
  deriving DecidableEq, Repr

namespace ConversionError

def message (error : ConversionError) : String := error.path.text ++ ": " ++ error.fault.text

end ConversionError

namespace Json

/-- Text that starts with the mark of hexadecimal. -/
def markHex (digits : List Char) : String := String.ofList ('0' :: 'x' :: digits)

/-- The digits behind the mark of hexadecimal. -/
def hexDigits? : List Char → Option (List Char)
  | '0' :: 'x' :: digits => some digits
  | _ => none

/-- Reads an even number of digits as bytes. -/
def bytesOfHex (text : List Char) : Except ConversionFault Bytes :=
  match hexDigits? text with
  | none => .error .unmarkedHex
  | some digits =>
    match Hex.decode? digits with
    | none => .error .malformedHex
    | some bytes => .ok bytes

/-- Reads any number of digits as a number, none as zero. -/
def wordOfHex (text : List Char) : Except ConversionFault Word :=
  match hexDigits? text with
  | none => .error .unmarkedHex
  | some digits =>
    match Hex.decode? (if digits.length % 2 = 1 then '0' :: digits else digits) with
    | none => .error .malformedHex
    | some bytes =>
      match Word.ofBytes? bytes with
      | none => .error .tooWide
      | some word => .ok word

/-- Reads a number that may be negative. -/
def signedWordOfHex : List Char → Except ConversionFault Word
  | '-' :: magnitude => do
    let word ← wordOfHex magnitude
    return word.negate
  | text => wordOfHex text

def toBytes : Json → Except ConversionFault Bytes
  | string text => bytesOfHex text.toList
  | _ => .error .notHex

def toUnsigned : Json → Except ConversionFault Word
  | int n => if 0 ≤ n ∧ n < UInt64.size then .ok (Word.ofInt n) else .error .notNatural
  | real _ => .error .notNatural
  | string text => wordOfHex text.toList
  | _ => .error .notInteger

def toSigned : Json → Except ConversionFault Word
  | int n =>
    if -Int.pow 2 63 ≤ n ∧ n < Int.pow 2 63 then .ok (Word.ofSigned128 (BitVec.ofInt 128 n))
    else .error .notInteger
  | string text => signedWordOfHex text.toList
  | _ => .error .notInteger

end Json

namespace Leaf

/-- The value of a leaf from JSON. -/
def ofJson (json : Json) : Leaf → Except ConversionFault Value
  | primitive .bool =>
    match json with
    | .bool flag => .ok (.bool flag)
    | _ => .error .notBool
  | primitive .address => do
    let payload ← json.toBytes
    if payload.length = 20 then .ok (.address (BitVec.ofNat 160 (Bytes.toNat payload)))
    else .error .addressLength
  | primitive type =>
    if type.isSigned then json.toSigned.map .int else json.toUnsigned.map .uint
  | fixedBytes _ => json.toBytes.map .fixedBytes
  | bytes => json.toBytes.map .bytes
  | string =>
    match json with
    | .string text => .ok (.string text)
    | _ => .error .notString

end Leaf

namespace Shape

/-- Reads items one after the other, counting indices from `i`. -/
def itemsOfJson (ofJson : Path → Json → Except ConversionError Value) (path : Path) :
    (i : Nat) → List Json → Except ConversionError (List Value)
  | _, [] => .ok []
  | i, item :: items => do
    let first ← ofJson (path.index i) item
    let rest ← itemsOfJson ofJson path (i + 1) items
    return first :: rest

mutual

/-- The value of a shape from JSON. -/
def ofJson : Shape → Path → Json → Except ConversionError Value
  | leaf type, path, json =>
    match type.ofJson json with
    | .ok value => .ok value
    | .error fault => .error ⟨path, fault⟩
  | tuple components, path, json =>
    match json with
    | .array items =>
      if items.length = components.length then do
        let values ← listedOfJson components path items
        return .tuple values
      else .error ⟨path, .tupleLength components.length items.length⟩
    | .object members => do
      let values ← namedOfJson components path members
      return .tuple values
    | _ => .error ⟨path, .notTuple⟩
  | array _ element, path, json =>
    match json with
    | .array items => do
      let values ← itemsOfJson element.ofJson path 0 items
      return .array values
    | _ => .error ⟨path, .notArray⟩

/-- The components of a tuple from a list of items. -/
def listedOfJson :
    List (String × Shape) → Path → List Json → Except ConversionError (List Value)
  | (name, shape) :: components, path, item :: items => do
    let first ← shape.ofJson (path.component name) item
    let rest ← listedOfJson components path items
    return first :: rest
  | _, _, _ => .ok []

/-- The components of a tuple from the members of an object. -/
def namedOfJson :
    List (String × Shape) → Path → List (String × Json) → Except ConversionError (List Value)
  | [], _, _ => .ok []
  | (name, shape) :: components, path, members =>
    match Json.member? members name with
    | none => .error ⟨path.component name, .missing⟩
    | some item => do
      let first ← shape.ofJson (path.component name) item
      let rest ← namedOfJson components path members
      return first :: rest

end

end Shape

namespace Value

/-- The largest number that travels as a JSON number. -/
def maxJsonNumber : Nat := Nat.pow 2 53 - 1

def unsignedToJson (word : Word) : Json :=
  let hex := Json.string (Json.markHex word.hexDigits)
  match word.toUnsigned64? with
  | some n => if n.toNat ≤ maxJsonNumber then .int n.toNat else hex
  | none => hex

/-- A signed number in hexadecimal. -/
def signedHex (word : Word) : String :=
  if word.msb then "-" ++ Json.markHex word.negate.hexDigits else Json.markHex word.hexDigits

def signedToJson (word : Word) : Json :=
  let hex := Json.string (signedHex word)
  match word.toSigned64? with
  | some n => if n.toInt.natAbs ≤ maxJsonNumber then .int n.toInt else hex
  | none => hex

mutual

def toJson : Value → Json
  | uint word => unsignedToJson word
  | int word => signedToJson word
  | bool flag => .bool flag
  | address account => .string (Json.markHex (Hex.encode (Bytes.ofNat 20 account.toNat)))
  | fixedBytes payload => .string (Json.markHex (Hex.encode payload))
  | bytes payload => .string (Json.markHex (Hex.encode payload))
  | string text => .string text
  | array items => .array (listToJson items)
  | tuple items => .array (listToJson items)

def listToJson : List Value → List Json
  | [] => []
  | value :: values => value.toJson :: listToJson values

end

end Value

end RecordCodec
