import RecordCodec.Layout.Assignment
import RecordCodec.Program.Compilation
import RecordCodec.Program.Run
import RecordCodec.Proofs.Reading.Shape

/-!
# Reading a field tree

What a field of the layout tree reads, without words, windows or skips: a leaf
takes its bytes at the cursor, components follow each other, and a dynamic array
is a counted loop for each of its dimensions. Errors are those of a program that
stops at the first part it cannot have. A count is refused at once if its units
cannot lie inside the input.

Positions in words play no part in this, so assigning them changes nothing.
-/

namespace RecordCodec

namespace Input

/-- The next `n` bytes and the cursor behind them, or an error. -/
def takeOr (error : ReadError) (data : Bytes) (cursor n : Nat) : Except ReadError (Bytes × Nat) :=
  match take? data cursor n with
  | some taken => .ok taken
  | none => .error error

/-- The next `n` bytes, which have to be there. -/
def take (data : Bytes) (cursor n : Nat) : Except ReadError (Bytes × Nat) :=
  takeOr (.outOfBounds cursor n) data cursor n

/-- The number in a header and the cursor behind it. -/
def count (data : Bytes) (cursor : Nat) : Except ReadError (Nat × Nat) := do
  let (header, cursor) ← take data cursor 4
  return (header.toNat, cursor)

/-- The bytes behind a header that counts them. -/
def payload (data : Bytes) (name : String) (cursor : Nat) : Except ReadError (Bytes × Nat) := do
  let (count, cursor) ← count data cursor
  takeOr (.lengthOverflow name count) data cursor count

theorem takeOr_of_le {error : ReadError} {data : Bytes} {cursor n : Nat}
    (h : cursor + n ≤ data.length) :
    takeOr error data cursor n = .ok (data.slice cursor n, cursor + n) := by
  simp [takeOr, take?, h]

theorem takeOr_of_not_le {error : ReadError} {data : Bytes} {cursor n : Nat}
    (h : ¬ cursor + n ≤ data.length) : takeOr error data cursor n = .error error := by
  simp [takeOr, take?, h]

theorem takeOr_eq_ok {error : ReadError} {data bytes : Bytes} {cursor n next : Nat} :
    takeOr error data cursor n = .ok (bytes, next) ↔
      cursor + n ≤ data.length ∧ bytes = data.slice cursor n ∧ next = cursor + n := by
  by_cases h : cursor + n ≤ data.length
  · simp [takeOr_of_le h, h, eq_comm]
  · simp [takeOr_of_not_le h, h]

@[simp] theorem toOption_takeOr (error : ReadError) (data : Bytes) (cursor n : Nat) :
    (takeOr error data cursor n).toOption = take? data cursor n := by
  unfold takeOr
  cases take? data cursor n <;> rfl

end Input

/-- The text that a payload holds, which has to be well formed. -/
def Text.read (name : String) (payload : Bytes) : Except ReadError Value :=
  match ofUtf8? payload with
  | some text => .ok (.string text)
  | none => .error (.invalidUtf8 name)

namespace Leaf

def read (data : Bytes) (name : String) (cursor : Nat) : Leaf → Except ReadError (Value × Nat)
  | primitive type => do
    let (field, cursor) ← Input.take data cursor (type.bitSize / 8)
    return (type.ofBytes field, cursor)
  | fixedBytes size => do
    let (field, cursor) ← Input.take data cursor size
    return (.fixedBytes field, cursor)
  | bytes => do
    let (payload, cursor) ← Input.payload data name cursor
    return (.bytes payload, cursor)
  | string => do
    let (payload, cursor) ← Input.payload data name cursor
    let text ← Text.read name payload
    return (text, cursor)

end Leaf

namespace Field

/-- Reads one value as a list. -/
def readOne (read : Nat → Except ReadError (Value × Nat)) (cursor : Nat) :
    Except ReadError (List Value × Nat) := do
  let (value, cursor) ← read cursor
  return ([value], cursor)

/-- Reads a header and as many times a body, each of which takes `unit` bytes or more. -/
def readLoop (data : Bytes) (name : String) (unit : Nat)
    (body : Nat → Except ReadError (List Value × Nat)) (cursor : Nat) :
    Except ReadError (Value × Nat) := do
  let (count, cursor) ← Input.count data cursor
  if count * unit ≤ Input.remaining data cursor then do
    let (items, cursor) ← Op.repeatRun body count cursor
    return (.array items, cursor)
  else .error (.lengthOverflow name count)

/-- Counted loops around the reader of an array. -/
def readLevels (data : Bytes) (readArray : String → Nat → Except ReadError (Value × Nat)) :
    (levels : Nat) → (name : String) → (cursor : Nat) → Except ReadError (Value × Nat)
  | 0, name, cursor => readArray name cursor
  | levels + 1, name, cursor =>
    readLoop data name 1 (readOne (readLevels data readArray levels (name ++ "[]"))) cursor

/-- The bytes an array element is known to take: its width if it has one. -/
def unit (element : Field) : Nat :=
  match element.elementRead? with
  | some read => read.stride
  | none => 1

mutual

def read (data : Bytes) : Field → (cursor : Nat) → Except ReadError (Value × Nat)
  | ⟨name, kind, extraLevels, _, components⟩, cursor =>
    match kind with
    | .leaf type => type.read data name cursor
    | .tuple => do
      let (values, cursor) ← readAll data components cursor
      return (.tuple values, cursor)
    | .fixedArray _ => do
      let (values, cursor) ← readAll data components cursor
      return (.array values, cursor)
    | .dynamicArray => readLevels data (readArray data components) extraLevels name cursor

/-- Reads sibling fields in order. -/
def readAll (data : Bytes) :
    List Field → (cursor : Nat) → Except ReadError (List Value × Nat)
  | [], cursor => .ok ([], cursor)
  | field :: fields, cursor => do
    let (first, cursor) ← field.read data cursor
    let (rest, cursor) ← readAll data fields cursor
    return (first :: rest, cursor)

/-- Reads an array of one dynamic dimension over the first of some components. -/
def readArray (data : Bytes) :
    List Field → (name : String) → (cursor : Nat) → Except ReadError (Value × Nat)
  | [], name, cursor => readLoop data name 1 (fun cursor => .ok ([], cursor)) cursor
  | element :: _, name, cursor =>
    readLoop data name element.unit (readOne (element.read data)) cursor

end

/-- Reads a root field. A single dynamic dimension is looped over element by
element there, even if its elements have a width. -/
def readRoot (data : Bytes) (root : Field) (name : String) : Except ReadError (Value × Nat) :=
  match root.kind, root.extraLevels with
  | .dynamicArray, 0 => readLoop data name 1 (readAll data root.components) 0
  | _, _ => root.read data 0

@[simp] theorem kind_assign (field : Field) (used : Nat) :
    (field.assign used).1.kind = field.kind := by
  obtain ⟨name, kind, extraLevels, shift, components⟩ := field
  cases kind with
  | leaf type => cases type <;> rfl
  | _ => rfl

@[simp] theorem extraLevels_assign (field : Field) (used : Nat) :
    (field.assign used).1.extraLevels = field.extraLevels := by
  obtain ⟨name, kind, extraLevels, shift, components⟩ := field
  cases kind with
  | leaf type => cases type <;> rfl
  | _ => rfl

theorem elementRead?_assign (field : Field) (used : Nat) :
    (field.assign used).1.elementRead? = field.elementRead? := by
  simp only [elementRead?, kind_assign]

theorem unit_assign (field : Field) (used : Nat) : (field.assign used).1.unit = field.unit := by
  simp only [unit, elementRead?_assign]

mutual

theorem read_assign (data : Bytes) : (field : Field) → (used cursor : Nat) →
    (field.assign used).1.read data cursor = field.read data cursor
  | ⟨name, kind, extraLevels, shift, components⟩, used, cursor => by
    cases kind with
    | leaf type => cases type <;> simp [assign, read]
    | tuple => simp [assign, read, readAll_assignFrom data components]
    | fixedArray size => simp [assign, read, readAll_assignFrom data components]
    | dynamicArray =>
      simp only [assign, read]
      congr 1
      funext name cursor
      exact readArray_assignFrom data components 0 name cursor

theorem readAll_assignFrom (data : Bytes) : (fields : List Field) → (used cursor : Nat) →
    readAll data (assignFrom fields used) cursor = readAll data fields cursor
  | [], used, cursor => by rw [assignFrom]
  | field :: fields, used, cursor => by
    simp only [assignFrom, readAll, read_assign data field, readAll_assignFrom data fields]

theorem readArray_assignFrom (data : Bytes) : (fields : List Field) → (used : Nat) →
    (name : String) → (cursor : Nat) →
    readArray data (assignFrom fields used) name cursor = readArray data fields name cursor
  | [], used, name, cursor => by rw [assignFrom]
  | element :: fields, used, name, cursor => by
    have hread : (element.assign used).1.read data = element.read data := by
      funext cursor
      exact read_assign data element used cursor
    simp only [assignFrom, readArray, hread, unit_assign]

end

theorem readRoot_assign (data : Bytes) (root : Field) (name : String) :
    (root.assign 0).1.readRoot data name = root.readRoot data name := by
  unfold readRoot
  rw [kind_assign, extraLevels_assign]
  split
  · rename_i hkind _
    obtain ⟨_, kind, _, _, components⟩ := root
    change kind = .dynamicArray at hkind
    subst hkind
    have hbody : readAll data (assignFrom components 0) = readAll data components := by
      funext cursor
      exact readAll_assignFrom data components 0 cursor
    exact congrArg (readLoop data name 1 · 0) hbody
  · rw [read_assign]

end Field

end RecordCodec
