import RecordCodec.FieldType.Basic

/-!
# Decoder programs

A program is a tree of operations over one byte cursor into the packed input.
Each operation yields one value. Word reads look at fixed offsets from the
cursor and leave it where it is; the other operations first move it by their
`skip`, past the fixed run before them, and a block moves it by its `tail` once
its operations have run.

Slots number the operations of a block for those who render programs. Running
one does not look at them.
-/

namespace RecordCodec

/-- A field of `bits` bits in the word window `offset` bytes behind the cursor.
For a number `shift` counts the bits of the window below it, for a byte string
those above it. -/
structure WordRead where
  name : String
  slot : Nat
  offset : Nat
  shift : Nat
  bits : Nat
  deriving DecidableEq, Repr

inductive ElementKind where
  | primitive (type : Primitive)
  | fixedBytes (size : Nat)
  deriving DecidableEq, Repr

/-- One word read per element, `stride` bytes apart. -/
structure ElementRead where
  leaf : ElementKind
  stride : Nat
  shift : Nat
  bits : Nat
  deriving DecidableEq, Repr

/-- What follows a header that counts it. -/
inductive Payload where
  | bytes
  | text
  | elements (read : ElementRead)
  deriving DecidableEq, Repr

/-- What becomes of the values of a nested block. The block of a dynamic array
is run once per element, as often as a header says. -/
inductive NestedShape where
  | tuple
  | fixedArray (size : Nat)
  | dynamicArray
  deriving DecidableEq, Repr

/-- The name of an operation that moves the cursor, and where it stands. -/
structure Entry where
  name : String
  slot : Nat
  skip : Nat
  deriving DecidableEq, Repr

/-- Operations in order, and the bytes to move over behind them. -/
structure Block (α : Type) where
  ops : List α
  tail : Nat

inductive Op where
  | primitive (type : Primitive) (read : WordRead)
  | fixedBytes (read : WordRead)
  | lengthPrefixed (entry : Entry) (payload : Payload)
  | nested (entry : Entry) (shape : NestedShape) (body : Block Op)

/-- Whether the values of a program form a tuple or the one value stands alone. -/
inductive RootShape where
  | tuple
  | single
  deriving DecidableEq, Repr

structure Program where
  rootName : String
  root : RootShape
  body : Block Op

namespace Op

mutual

/-- The number of operations, those of nested blocks included. -/
def count : Op → Nat
  | nested _ _ ⟨ops, _⟩ => 1 + countAll ops
  | _ => 1

def countAll : List Op → Nat
  | [] => 0
  | op :: ops => op.count + countAll ops

end

end Op

namespace Program

def size (program : Program) : Nat := Op.countAll program.body.ops

end Program

end RecordCodec
