import RecordCodec.Word.Basic

/-!
# Word windows

Fields are read through windows: a word taken from a byte offset of the input,
from which a run of bits is cut out. Numbers come out right-aligned, byte strings
left-aligned. A window may reach past the end of the input, where it holds
zeros; whether the field itself lies inside the input is for the reader to check.
-/

namespace RecordCodec

namespace Word

/-- The 32 bytes from `offset` on, with zeros for those past the end. -/
def window (data : Bytes) (offset : Nat) : Word :=
  BitVec.ofNat 256 (Bytes.toNat (((data.drop offset).take 32).rightpad 32 0))

/-- The number in the `bits` bits that end `shift` bits above the low end. -/
def cutNumber (w : Word) (shift bits : Nat) : Word := keepLow (shiftRight w shift) bits

/-- The `bits` bits that start `offset` bits below the high end, moved up to it. -/
def cutBytes (w : Word) (offset bits : Nat) : Word := keepHigh (shiftLeft w offset) bits

/-- How many bits of the window lie above a number of `bits` bits that ends
`shift` bits above the low end, held between 0 and the width of a word. -/
def bitsAbove (shift : Int) (bits : Nat) : Nat := min (256 - shift - bits).toNat 256

end Word

end RecordCodec
