import RecordCodec.FieldType.Basic

/-!
# Layout fields

The tree on which word positions are assigned and from which a decoder is
compiled. Fixed dimensions stand unrolled, one component per index. A run of
directly nested dynamic dimensions is one node whose single component is the
element of the innermost of them.

Fields may also be put together by hand; nothing here demands that the
components agree with the kind.
-/

namespace RecordCodec

inductive FieldKind where
  | leaf (type : Leaf)
  | tuple
  | fixedArray (size : Nat)
  | dynamicArray
  deriving DecidableEq, Repr

structure Field where
  name : String
  kind : FieldKind
  /-- For a dynamic array, how many dynamic dimensions it stands for besides its own. -/
  extraLevels : Nat
  /-- The position of a leaf, once assigned: for a number the bits of its word below
  it, for a byte string the bits of its run before it, negated. -/
  shift : Option Int
  components : List Field

namespace FieldKind

/-- The width on the wire, 0 for everything but a leaf of a fixed width. -/
def bitSize : FieldKind → Nat
  | leaf type => type.bitSize
  | _ => 0

def isDynamic : FieldKind → Bool
  | leaf type => type.isDynamic
  | dynamicArray => true
  | _ => false

end FieldKind

namespace Field

/-- A field of which no position is assigned. -/
def plain (name : String) (kind : FieldKind) (components : List Field) : Field :=
  ⟨name, kind, 0, none, components⟩

mutual

/-- The number of fields in the tree. -/
def size : Field → Nat
  | ⟨_, _, _, _, components⟩ => 1 + sizeAll components

def sizeAll : List Field → Nat
  | [] => 0
  | field :: fields => field.size + sizeAll fields

end

end Field

end RecordCodec
