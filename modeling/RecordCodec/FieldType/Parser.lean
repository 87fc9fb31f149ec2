import RecordCodec.Schema.Error
import RecordCodec.Text.Blank
import RecordCodec.Text.Numeral
import RecordCodec.FieldType.Basic

/-!
# Reading field types

A type is a base followed by array suffixes, with blanks allowed around the
whole only. The base is a keyword, or the name of a family with its size:
`bytesN` with `N` from 1 to 32, `uintM` and `intM` with `M` a multiple of 8 up to
256, and `fixedMxN` and `ufixedMxN` with at most 80 decimals. All numbers are
numerals in the sense of `Numeral`.

The base is judged before the suffixes, so a type with two faults is unsupported.
-/

namespace RecordCodec

namespace BaseType

/-- Bases that are spelled by one word. -/
def keywords : List (List Char × BaseType) :=
  [("tuple".toList, .tuple),
   ("bool".toList, .leaf (.primitive .bool)),
   ("address".toList, .leaf (.primitive .address)),
   ("bytes".toList, .leaf .bytes),
   ("string".toList, .leaf .string),
   ("uint".toList, .leaf (.primitive (.uint 256))),
   ("int".toList, .leaf (.primitive (.int 256))),
   ("fixed".toList, .leaf (.primitive (.fixedPoint true 128 18))),
   ("ufixed".toList, .leaf (.primitive (.fixedPoint false 128 18)))]

/-- A width in bits: a whole number of bytes, at most a word. -/
def width? (text : List Char) : Option Nat := do
  let bits ← Numeral.parse? text
  if 0 < bits ∧ bits ≤ 256 ∧ bits % 8 = 0 then some bits else none

def uint? (size : List Char) : Option Leaf := do
  let bits ← width? size
  return .primitive (.uint bits)

def int? (size : List Char) : Option Leaf := do
  let bits ← width? size
  return .primitive (.int bits)

def fixedBytes? (size : List Char) : Option Leaf := do
  let n ← Numeral.parse? size
  if 1 ≤ n ∧ n ≤ 32 then some (.fixedBytes n) else none

/-- A width and a count of decimals around the first `x`. -/
def fixedPoint? (signed : Bool) (size : List Char) : Option Leaf :=
  match size.dropWhile (· != 'x') with
  | [] => none
  | _ :: rest => do
    let bits ← width? (size.takeWhile (· != 'x'))
    let decimals ← Numeral.parse? rest
    if decimals ≤ 80 then some (.primitive (.fixedPoint signed bits decimals)) else none

/-- Names of the sized families, each with the reader of what follows the name. -/
def families : List (List Char × (List Char → Option Leaf)) :=
  [("bytes".toList, fixedBytes?), ("uint".toList, uint?), ("int".toList, int?),
   ("ufixed".toList, fixedPoint? false), ("fixed".toList, fixedPoint? true)]

/-- No family's name starts another's, so at most one reader applies. -/
def sized? (text : List Char) : Option Leaf :=
  families.findSome? fun (name, read) => (name.isPrefixOf? text).bind read

def parse? (text : List Char) : Option BaseType :=
  match keywords.lookup text with
  | some base => some base
  | none => (sized? text).map .leaf

end BaseType

namespace Dimension

/-- The dimension between a pair of brackets. -/
def parse? : List Char → Option Dimension
  | [] => some .dynamic
  | size => do
    let n ← Numeral.parse? size
    if 0 < n ∧ n < UInt64.size then some (.fixed n) else none

/-- Reads array suffixes to the end of the text. Inside a pair of brackets,
`size?` holds the characters since the opening one. -/
def readList : (size? : Option (List Char)) → List Char → Option (List Dimension)
  | none, [] => some []
  | none, c :: rest => if c = '[' then readList (some []) rest else none
  | some _, [] => none
  | some size, c :: rest =>
    if c = ']' then do
      let dim ← parse? size
      let dims ← readList none rest
      return dim :: dims
    else readList (some (size ++ [c])) rest

def parseList? (suffixes : List Char) : Option (List Dimension) := readList none suffixes

end Dimension

namespace FieldType

/-- What comes before the first opening bracket. -/
def baseChars (text : List Char) : List Char := text.takeWhile (· != '[')

/-- What comes from the first opening bracket on. -/
def suffixChars (text : List Char) : List Char := text.dropWhile (· != '[')

/-- The array suffixes of a type as they are written. -/
def suffix (type : String) : String := String.ofList (suffixChars (Text.trim type.toList))

/-- Reads the type of a field; the name of the field is for errors only. -/
def parse (field type : String) : Except SchemaError FieldType :=
  let text := Text.trim type.toList
  match BaseType.parse? (baseChars text) with
  | none => .error (.unsupportedType field (String.ofList text))
  | some base =>
    match Dimension.parseList? (suffixChars text) with
    | none => .error (.invalidDimension field (String.ofList text))
    | some dims => .ok ⟨base, dims⟩

end FieldType

end RecordCodec
