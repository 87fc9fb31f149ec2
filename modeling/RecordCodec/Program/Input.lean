import RecordCodec.AddressSpace
import RecordCodec.Text.Utf8
import RecordCodec.Word.Window

/-!
# Reading the input

The steps that look at the input or move the cursor, which is a byte position in
it. A word read checks that the whole bytes of its field are inside the input,
not the window around them. Headers are four big-endian bytes, and longer
payloads are copied window by window.

Offsets of reads are added to the cursor in the address space. A move is checked
against what is left of the input before it is made, so its sum is an address.
-/

namespace RecordCodec

inductive ReadError where
  /-- A read or a move leaves the input. -/
  | outOfBounds (offset length : Nat)
  /-- A header counts more than the input can hold. -/
  | lengthOverflow (field : String) (count : Nat)
  /-- A text is not well-formed UTF-8. -/
  | invalidUtf8 (field : String)
  /-- The input goes on behind the value. -/
  | trailingBytes (consumed length : Nat)
  deriving DecidableEq, Repr

namespace ReadError

def message : ReadError → String
  | outOfBounds offset length =>
    "read of " ++ toString length ++ " bytes at offset " ++ toString offset ++ " is out of bounds"
  | lengthOverflow field count =>
    "field `" ++ field ++ "`: count " ++ toString count ++ " exceeds the remaining input"
  | invalidUtf8 field => "field `" ++ field ++ "`: payload is not valid UTF-8"
  | trailingBytes consumed length =>
    "decoded " ++ toString consumed ++ " bytes but input holds " ++ toString length

end ReadError

namespace Input

/-- The bytes from the cursor to the end. -/
def remaining (data : Bytes) (cursor : Nat) : Nat := data.length - cursor

/-- Moves the cursor over `n` bytes. -/
def move (data : Bytes) (cursor n : Nat) : Except ReadError Nat :=
  if n ≤ remaining data cursor then .ok (cursor + n) else .error (.outOfBounds cursor n)

section

variable [AddressSpace]

/-- The window `offset` bytes behind the cursor, for a field that starts
`position` bits into it. -/
def window (data : Bytes) (cursor offset position bits : Nat) : Except ReadError Word :=
  let origin := AddressSpace.add cursor offset
  let start := AddressSpace.add origin (position / 8)
  if AddressSpace.add start (bits / 8) ≤ data.length then .ok (Word.window data origin)
  else .error (.outOfBounds start (bits / 8))

/-- Reads a number `shift` bits above the low end of a window. -/
def readNumber (data : Bytes) (cursor offset shift bits : Nat) : Except ReadError Word := do
  let word ← window data cursor offset (256 - shift - bits) bits
  return word.cutNumber shift bits

/-- Reads a byte string `shift` bits below the high end of a window. -/
def readBytes (data : Bytes) (cursor offset shift bits : Nat) : Except ReadError Word := do
  let word ← window data cursor offset shift bits
  return word.cutBytes shift bits

/-- Reads a header and moves behind it. -/
def readHeader (data : Bytes) (cursor : Nat) : Except ReadError (Nat × Nat) := do
  let field ← readNumber data cursor 0 224 32
  let cursor ← move data cursor 4
  return (field.toNat, cursor)

/-- Copies window by window behind what is copied already, until there are `length` bytes. -/
@[semireducible] def copyFrom (data : Bytes) (cursor length : Nat) (copied : Bytes) : Bytes :=
  if copied.length < length then
    let word := Word.window data (AddressSpace.add cursor copied.length)
    let count := min (length - copied.length) 32
    copyFrom data cursor length (copied ++ word.toBytes.take count)
  else copied
termination_by length - copied.length
decreasing_by
  simp only [List.length_append, List.length_take, Word.length_toBytes]
  omega

/-- The `length` bytes at the cursor. -/
def copy (data : Bytes) (cursor length : Nat) : Bytes := copyFrom data cursor length []

end

end Input

end RecordCodec
