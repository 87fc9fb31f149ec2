import RecordCodec.Proofs.Schema.WellFormed
import RecordCodec.Proofs.Word.Sign
import RecordCodec.Value

/-!
# Reading a shape directly

A recursive-descent reader that follows a shape and knows nothing of programs. A
leaf of a fixed width takes its bytes, a byte string or a text takes a four-byte
count and as many bytes, components and the elements of a fixed dimension follow
each other, and a dynamic dimension takes a four-byte count and as many elements.

Reading fails only where bytes are missing or a text is not well formed. It
consumes at least one byte of every well-formed shape, never leaves the input, and
depends only on the bytes it consumes.
-/

namespace RecordCodec

namespace Input

/-- The next `n` bytes and the cursor behind them, if the input holds as many. -/
def take? (data : Bytes) (cursor n : Nat) : Option (Bytes × Nat) :=
  if cursor + n ≤ data.length then some (data.slice cursor n, cursor + n) else none

/-- The number in the four bytes at the cursor, most significant byte first. -/
def count? (data : Bytes) (cursor : Nat) : Option (Nat × Nat) :=
  (take? data cursor 4).map fun (header, cursor) => (header.toNat, cursor)

/-- The bytes behind a header that counts them. -/
def payload? (data : Bytes) (cursor : Nat) : Option (Bytes × Nat) := do
  let (count, cursor) ← count? data cursor
  take? data cursor count

end Input

namespace Primitive

/-- What the bytes of a number stand for. Any byte but zero makes a flag true. -/
def ofBytes (type : Primitive) (bytes : Bytes) : Value :=
  match type with
  | .bool => .bool (bytes.any (· != 0))
  | .address => .address (BitVec.ofNat 160 bytes.toNat)
  | type => if type.isSigned then .int (Word.ofInt bytes.toInt) else .uint (.rightAligned bytes)

end Primitive

namespace Leaf

def read? (data : Bytes) (cursor : Nat) : Leaf → Option (Value × Nat)
  | primitive type =>
    (Input.take? data cursor (type.bitSize / 8)).map fun (field, cursor) =>
      (type.ofBytes field, cursor)
  | fixedBytes size =>
    (Input.take? data cursor size).map fun (field, cursor) => (.fixedBytes field, cursor)
  | bytes => (Input.payload? data cursor).map fun (payload, cursor) => (.bytes payload, cursor)
  | string => do
    let (payload, cursor) ← Input.payload? data cursor
    let text ← Text.ofUtf8? payload
    return (.string text, cursor)

end Leaf

namespace Dimension

/-- The number of elements: as the dimension says, or as a header does. -/
def count? (data : Bytes) (cursor : Nat) : Dimension → Option (Nat × Nat)
  | fixed size => some (size, cursor)
  | dynamic => Input.count? data cursor

end Dimension

namespace Shape

/-- Reads `count` elements one after the other. -/
def readElements? (read? : Nat → Option (Value × Nat)) :
    (count cursor : Nat) → Option (List Value × Nat)
  | 0, cursor => some ([], cursor)
  | count + 1, cursor => do
    let (first, cursor) ← read? cursor
    let (rest, cursor) ← readElements? read? count cursor
    return (first :: rest, cursor)

/-- Reads the elements of an array behind what tells their number. -/
def readArray? (data : Bytes) (dim : Dimension) (read? : Nat → Option (Value × Nat))
    (cursor : Nat) : Option (Value × Nat) := do
  let (count, cursor) ← dim.count? data cursor
  (readElements? read? count cursor).map fun (items, cursor) => (.array items, cursor)

mutual

def read? (data : Bytes) : Shape → (cursor : Nat) → Option (Value × Nat)
  | leaf type, cursor => type.read? data cursor
  | tuple components, cursor =>
    (readComponents? data components cursor).map fun (values, cursor) => (.tuple values, cursor)
  | array dim element, cursor => readArray? data dim (element.read? data) cursor

def readComponents? (data : Bytes) :
    List (String × Shape) → (cursor : Nat) → Option (List Value × Nat)
  | [], cursor => some ([], cursor)
  | (_, shape) :: components, cursor => do
    let (first, cursor) ← shape.read? data cursor
    let (rest, cursor) ← readComponents? data components cursor
    return (first :: rest, cursor)

end

end Shape

namespace Input

theorem take?_eq_some {data bytes : Bytes} {cursor n next : Nat} :
    take? data cursor n = some (bytes, next) ↔
      cursor + n ≤ data.length ∧ bytes = data.slice cursor n ∧ next = cursor + n := by
  unfold take?
  split
  · rename_i h
    simp [h, eq_comm]
  · rename_i h
    simp [h]

theorem count?_eq_some {data : Bytes} {cursor count next : Nat} :
    count? data cursor = some (count, next) ↔
      cursor + 4 ≤ data.length ∧ count = (data.slice cursor 4).toNat ∧ next = cursor + 4 := by
  rw [count?, Outcome.map_value_eq_some]
  constructor
  · rintro ⟨bytes, hbytes, rfl⟩
    obtain ⟨hinput, rfl, hnext⟩ := take?_eq_some.mp hbytes
    exact ⟨hinput, rfl, hnext⟩
  · rintro ⟨hinput, rfl, hnext⟩
    exact ⟨_, take?_eq_some.mpr ⟨hinput, rfl, hnext⟩, rfl⟩

theorem payload?_eq_some {data bytes : Bytes} {cursor next : Nat} :
    payload? data cursor = some (bytes, next) ↔
      ∃ count start, count? data cursor = some (count, start) ∧
        take? data start count = some (bytes, next) := by
  simp [payload?, Option.bind_eq_some_iff]

end Input

namespace Leaf

variable {data : Bytes} {cursor next : Nat} {value : Value}

theorem read?_primitive_eq_some {type : Primitive} :
    (primitive type).read? data cursor = some (value, next) ↔
      ∃ field, Input.take? data cursor (type.bitSize / 8) = some (field, next) ∧
        value = type.ofBytes field :=
  Outcome.map_value_eq_some

theorem read?_fixedBytes_eq_some {size : Nat} :
    (fixedBytes size).read? data cursor = some (value, next) ↔
      ∃ field, Input.take? data cursor size = some (field, next) ∧ value = .fixedBytes field :=
  Outcome.map_value_eq_some

theorem read?_bytes_eq_some :
    bytes.read? data cursor = some (value, next) ↔
      ∃ payload, Input.payload? data cursor = some (payload, next) ∧ value = .bytes payload :=
  Outcome.map_value_eq_some

theorem read?_string_eq_some :
    string.read? data cursor = some (value, next) ↔
      ∃ payload text, Input.payload? data cursor = some (payload, next) ∧
        Text.ofUtf8? payload = some text ∧ value = .string text := by
  simp only [read?, Option.bind_eq_bind, Option.bind_eq_some_iff, Prod.exists, Option.pure_def,
    Option.some.injEq, Prod.mk.injEq]
  constructor
  · rintro ⟨payload, last, hpayload, text, htext, rfl, rfl⟩
    exact ⟨payload, text, hpayload, htext, rfl⟩
  · rintro ⟨payload, text, hpayload, htext, rfl⟩
    exact ⟨payload, next, hpayload, text, htext, rfl, rfl⟩

end Leaf

namespace Shape

variable {data : Bytes} {cursor next : Nat} {value : Value} {values : List Value}

theorem readElements?_succ_eq_some {read? : Nat → Option (Value × Nat)} {count : Nat} :
    readElements? read? (count + 1) cursor = some (values, next) ↔
      ∃ first middle rest, read? cursor = some (first, middle) ∧
        readElements? read? count middle = some (rest, next) ∧ values = first :: rest := by
  simp only [readElements?, Option.bind_eq_bind, Option.bind_eq_some_iff, Prod.exists,
    Option.pure_def, Option.some.injEq, Prod.mk.injEq]
  constructor
  · rintro ⟨first, middle, hfirst, rest, last, hrest, rfl, rfl⟩
    exact ⟨first, middle, rest, hfirst, hrest, rfl⟩
  · rintro ⟨first, middle, rest, hfirst, hrest, rfl⟩
    exact ⟨first, middle, hfirst, rest, next, hrest, rfl, rfl⟩

theorem readArray?_eq_some {dim : Dimension} {read? : Nat → Option (Value × Nat)} :
    readArray? data dim read? cursor = some (value, next) ↔
      ∃ count start items, dim.count? data cursor = some (count, start) ∧
        readElements? read? count start = some (items, next) ∧ value = .array items := by
  simp only [readArray?, Option.bind_eq_bind, Option.bind_eq_some_iff, Prod.exists,
    Outcome.map_value_eq_some]
  constructor
  · rintro ⟨count, start, hcount, items, hitems, rfl⟩
    exact ⟨count, start, items, hcount, hitems, rfl⟩
  · rintro ⟨count, start, items, hcount, hitems, rfl⟩
    exact ⟨count, start, hcount, items, hitems, rfl⟩

theorem read?_tuple_eq_some {components : List (String × Shape)} :
    (tuple components).read? data cursor = some (value, next) ↔
      ∃ items, readComponents? data components cursor = some (items, next) ∧
        value = .tuple items := by
  rw [read?, Outcome.map_value_eq_some]

theorem readComponents?_cons_eq_some {name : String} {shape : Shape}
    {components : List (String × Shape)} :
    readComponents? data ((name, shape) :: components) cursor = some (values, next) ↔
      ∃ first middle rest, shape.read? data cursor = some (first, middle) ∧
        readComponents? data components middle = some (rest, next) ∧ values = first :: rest := by
  simp only [readComponents?, Option.bind_eq_bind, Option.bind_eq_some_iff, Prod.exists,
    Option.pure_def, Option.some.injEq, Prod.mk.injEq]
  constructor
  · rintro ⟨first, middle, hfirst, rest, last, hrest, rfl, rfl⟩
    exact ⟨first, middle, rest, hfirst, hrest, rfl⟩
  · rintro ⟨first, middle, rest, hfirst, hrest, rfl⟩
    exact ⟨first, middle, hfirst, rest, next, hrest, rfl, rfl⟩

end Shape

end RecordCodec
