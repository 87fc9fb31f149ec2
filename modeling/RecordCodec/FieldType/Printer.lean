import RecordCodec.FieldType.Basic
import RecordCodec.Text.Numeral

/-!
# Writing field types

The canonical text of a field type: every size is written out, also where a
shorter keyword means the same, and no blanks are used.
-/

namespace RecordCodec

namespace Primitive

def render : Primitive → List Char
  | uint bits => "uint".toList ++ Numeral.render bits
  | int bits => "int".toList ++ Numeral.render bits
  | bool => "bool".toList
  | address => "address".toList
  | fixedPoint signed bits decimals =>
    (if signed then "fixed" else "ufixed").toList ++ Numeral.render bits ++
      'x' :: Numeral.render decimals

end Primitive

namespace Leaf

def render : Leaf → List Char
  | primitive type => type.render
  | fixedBytes size => "bytes".toList ++ Numeral.render size
  | bytes => "bytes".toList
  | string => "string".toList

end Leaf

namespace BaseType

def render : BaseType → List Char
  | leaf type => type.render
  | tuple => "tuple".toList

end BaseType

namespace Dimension

def render : Dimension → List Char
  | fixed size => '[' :: Numeral.render size ++ [']']
  | dynamic => ['[', ']']

end Dimension

namespace FieldType

def render (type : FieldType) : String :=
  String.ofList (type.base.render ++ type.dims.flatMap Dimension.render)

end FieldType

end RecordCodec
