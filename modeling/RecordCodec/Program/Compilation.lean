import RecordCodec.Layout.Assignment
import RecordCodec.Layout.Unrolling
import RecordCodec.Layout.Window
import RecordCodec.Program.Basic
import RecordCodec.Word.Window

/-!
# Compilation of fields

Every scope is compiled from a fresh window on. A leaf of a fixed width becomes
a word read in the open window or a new one: a number opens a new window when
its assigned position is not where the window stands, a byte string when the
window has no room for it. Everything else ends the run before it, which becomes
its `skip`, and the run that is open at the end of a scope becomes its `tail`.

Dynamic dimensions become as many nested counted loops, except that leaves of a
fixed width are read directly, as counted elements.
-/

namespace RecordCodec

namespace Layout.Window

variable [AddressSpace]

/-- The window in which a number is read, whose position is 0 if none is assigned. -/
def forNumber (window : Window) (shift : Option Int) (bits : Nat) : Window :=
  let position := (shift.map fun shift => Word.bitsAbove shift bits).getD 0
  if position = window.taken then window else window.reopen

/-- The window in which a byte string is read. -/
def forBytes (window : Window) (bits : Nat) : Window :=
  if window.fits bits then window else window.reopen

end Layout.Window

namespace Op

/-- Counted loops around an operation, one for each of `levels` dimensions. Only
the outermost stands in its block; the others have their loop to themselves. -/
def counted (operation : Entry → Op) : (levels : Nat) → Entry → Op
  | 0, entry => operation entry
  | levels + 1, entry =>
    .nested entry .dynamicArray ⟨[counted operation levels ⟨entry.name ++ "[]", 0, 0⟩], 0⟩

end Op

namespace Field

/-- The read of an array element that is a leaf of a fixed width. -/
def elementRead? (element : Field) : Option ElementRead :=
  match element.kind with
  | .leaf (.primitive type) =>
    some ⟨.primitive type, type.bitSize / 8, 256 - type.bitSize, type.bitSize⟩
  | .leaf (.fixedBytes size) => some ⟨.fixedBytes size, size, 0, 8 * size⟩
  | _ => none

variable [AddressSpace]

mutual

/-- The operation of a field and the window behind it. -/
def compile : Field → (slot : Nat) → Layout.Window → Op × Layout.Window
  | ⟨name, kind, extraLevels, shift, components⟩, slot, window =>
    match kind with
    | .leaf (.primitive type) =>
      let bits := type.bitSize
      let window := window.forNumber shift bits
      (.primitive type ⟨name, slot, window.start, 256 - window.taken - bits, bits⟩,
        window.take bits)
    | .leaf (.fixedBytes size) =>
      let bits := 8 * size
      let window := window.forBytes bits
      (.fixedBytes ⟨name, slot, window.start, window.taken, bits⟩, window.take bits)
    | .leaf .bytes =>
      let (skip, next) := window.close
      (.lengthPrefixed ⟨name, slot, skip⟩ .bytes, next)
    | .leaf .string =>
      let (skip, next) := window.close
      (.lengthPrefixed ⟨name, slot, skip⟩ .text, next)
    | .tuple =>
      let (skip, next) := window.close
      let (ops, last) := compileFrom components 0 {}
      (.nested ⟨name, slot, skip⟩ .tuple ⟨ops, last.runBytes⟩, next)
    | .fixedArray size =>
      let (skip, next) := window.close
      let (ops, last) := compileFrom components 0 {}
      (.nested ⟨name, slot, skip⟩ (.fixedArray size) ⟨ops, last.runBytes⟩, next)
    | .dynamicArray =>
      let (skip, next) := window.close
      (Op.counted (compileElement components) extraLevels ⟨name, slot, skip⟩, next)

/-- The operations of sibling fields, numbered from `slot`, and the window behind them. -/
def compileFrom : List Field → (slot : Nat) → Layout.Window → List Op × Layout.Window
  | [], _, window => ([], window)
  | field :: fields, slot, window =>
    let (op, window) := field.compile slot window
    let (ops, window) := compileFrom fields (slot + 1) window
    (op :: ops, window)

/-- The innermost loop of a dynamic array, over the first of its components. -/
def compileElement : List Field → Entry → Op
  | [], entry => .nested entry .dynamicArray ⟨[], 0⟩
  | element :: _, entry =>
    match element.elementRead? with
    | some read => .lengthPrefixed entry (.elements read)
    | none =>
      let (op, last) := element.compile 0 {}
      .nested entry .dynamicArray ⟨[op], last.runBytes⟩

end

/-- The block of a scope. -/
def compileScope (fields : List Field) : Block Op :=
  let (ops, last) := compileFrom fields 0 {}
  ⟨ops, last.runBytes⟩

end Field

namespace Program

variable [AddressSpace]

/-- The program of a scope. The fields are those of a tuple, or together one
element of a dynamic array. -/
def ofScope (fields : List Field) (rootName : String) (inArray : Bool) : Program :=
  if inArray then
    ⟨rootName, .single, ⟨[.nested ⟨rootName, 0, 0⟩ .dynamicArray (Field.compileScope fields)], 0⟩⟩
  else
    ⟨rootName, .tuple, Field.compileScope fields⟩

/-- The program of a root field. The components of a tuple, and the element of a
dynamic array that stands for one dimension, are the outermost scope; anything
else is a scope of one field. -/
def ofRoot (root : Field) (rootName : String) : Program :=
  match root.kind, root.extraLevels with
  | .tuple, _ => ofScope root.components rootName false
  | .dynamicArray, 0 => ofScope root.components rootName true
  | _, _ => ⟨rootName, .single, Field.compileScope [root]⟩

end Program

namespace Shape

/-- The decoder of a shape. -/
def program [AddressSpace] (shape : Shape) (name : String) : Program :=
  .ofRoot ((shape.unroll name).assign 0).1 name

end Shape

end RecordCodec
