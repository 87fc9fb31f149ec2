/-!
# Field types

The type of a field is a base, which is a leaf or a tuple, under a list of array
dimensions written innermost first: `uint16[2][]` is a dynamic array of pairs.

Leaves of a fixed width occupy a whole number of bytes. Byte strings and text of
any length have no width of their own and are dynamic.
-/

namespace RecordCodec

/-- Leaves that are read as numbers. -/
inductive Primitive where
  | uint (bits : Nat)
  | int (bits : Nat)
  | bool
  | address
  | fixedPoint (signed : Bool) (bits decimals : Nat)
  deriving DecidableEq, Repr

inductive Leaf where
  | primitive (type : Primitive)
  | fixedBytes (size : Nat)
  | bytes
  | string
  deriving DecidableEq, Repr

inductive BaseType where
  | leaf (type : Leaf)
  | tuple
  deriving DecidableEq, Repr

inductive Dimension where
  | fixed (size : Nat)
  | dynamic
  deriving DecidableEq, Repr

/-- A base type and its array dimensions, innermost first. -/
structure FieldType where
  base : BaseType
  dims : List Dimension
  deriving DecidableEq, Repr

namespace Primitive

def bitSize : Primitive → Nat
  | uint bits => bits
  | int bits => bits
  | bool => 8
  | address => 160
  | fixedPoint _ bits _ => bits

/-- Whether values are two's complement numbers. -/
def isSigned : Primitive → Bool
  | int _ => true
  | fixedPoint signed _ _ => signed
  | _ => false

end Primitive

namespace Leaf

/-- The width on the wire, 0 for a dynamic leaf. -/
def bitSize : Leaf → Nat
  | primitive type => type.bitSize
  | fixedBytes size => 8 * size
  | bytes | string => 0

def isDynamic : Leaf → Bool
  | bytes | string => true
  | _ => false

def isSigned : Leaf → Bool
  | primitive type => type.isSigned
  | _ => false

end Leaf

namespace FieldType

def isTuple (type : FieldType) : Bool := type.base == .tuple

end FieldType

end RecordCodec
