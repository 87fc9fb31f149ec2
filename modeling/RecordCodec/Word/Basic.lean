import RecordCodec.Bytes

/-!
# 256-bit words

A word is the unit in which packed fields are addressed. Bits are numbered from
the least significant end, and as a byte string a word is its 32 big-endian
bytes. Signed numbers are words in two's complement.

Shifts and masks go through the bytes of a word. They accept amounts of any size:
shifting by 256 or more leaves nothing, and keeping 256 or more bits keeps everything.
-/

namespace RecordCodec

/-- A 256-bit word. -/
abbrev Word := BitVec 256

namespace Word

/-- The byte at one of the 32 places of a word, counted from the high end. -/
def byte (w : Word) (place : Nat) : UInt8 := ⟨w.extractLsb' (8 * (31 - place)) 8⟩

/-- The number of the bytes at `2 ^ levels` places, put together in halves. -/
def numberOfPlaces (byteAt : Nat → UInt8) : (levels place : Nat) → Nat
  | 0, place => (byteAt place).toNat
  | levels + 1, place =>
    numberOfPlaces byteAt levels place <<< (8 <<< levels) +
      numberOfPlaces byteAt levels (place + 1 <<< levels)

/-- The word that has the given byte at each of its 32 places. -/
def ofPlaces (byteAt : Nat → UInt8) : Word := BitVec.ofNat 256 (numberOfPlaces byteAt 5 0)

/-- Shifts by whole bytes and by the bits that are left of the amount. A byte takes over
the low bits of the one before it. -/
def shiftRight (w : Word) (n : Nat) : Word :=
  let whole := n / 8
  let bits := n % 8
  if 256 ≤ n then 0
  else ofPlaces fun place =>
    if place < whole then 0
    else
      let source := place - whole
      let own := w.byte source >>> UInt8.ofNat bits
      if 0 < bits ∧ 0 < source then own ||| w.byte (source - 1) <<< UInt8.ofNat (8 - bits)
      else own

/-- Shifts by whole bytes and by the bits that are left of the amount. A byte takes over
the high bits of the one behind it. -/
def shiftLeft (w : Word) (n : Nat) : Word :=
  let whole := n / 8
  let bits := n % 8
  if 256 ≤ n then 0
  else ofPlaces fun place =>
    if place < 32 - whole then
      let source := place + whole
      let own := w.byte source <<< UInt8.ofNat bits
      if 0 < bits ∧ source + 1 < 32 then own ||| w.byte (source + 1) >>> UInt8.ofNat (8 - bits)
      else own
    else 0

/-- Clears all but the low `n` bits. -/
def keepLow (w : Word) (n : Nat) : Word :=
  let whole := min n 256 / 8
  let bits := min n 256 % 8
  ofPlaces fun place =>
    let below := 31 - place
    if below < whole then w.byte place
    else if below = whole ∧ 0 < bits then w.byte place &&& ((1 <<< UInt8.ofNat bits) - 1)
    else 0

/-- Clears all but the high `n` bits. -/
def keepHigh (w : Word) (n : Nat) : Word :=
  let whole := min n 256 / 8
  let bits := min n 256 % 8
  ofPlaces fun place =>
    if place < whole then w.byte place
    else if place = whole ∧ 0 < bits then w.byte place &&& ~~~(0xff >>> UInt8.ofNat bits)
    else 0

/-- Reads the low `n` bits as a two's complement number and widens it to the word: the bits
above are set if the highest of them is. Widths that name no sign bit inside the word leave
it as it is. -/
def extendSign (w : Word) (n : Nat) : Word :=
  if n = 0 ∨ 256 ≤ n then w
  else
    let top := n - 1
    let low := keepLow w n
    if w.byte (31 - top / 8) >>> UInt8.ofNat (top % 8) &&& 1 = 1 then
      low ||| shiftLeft (BitVec.allOnes 256) n
    else low

/-- Dropping all bits above the low `n` loses nothing. -/
def FitsUnsigned (w : Word) (n : Nat) : Prop := keepLow w n = w

/-- The word is the widened form of its own low `n` bits. -/
def FitsSigned (w : Word) (n : Nat) : Prop := extendSign (keepLow w n) n = w

instance (w : Word) (n : Nat) : Decidable (FitsUnsigned w n) :=
  inferInstanceAs (Decidable (keepLow w n = w))

instance (w : Word) (n : Nat) : Decidable (FitsSigned w n) :=
  inferInstanceAs (Decidable (extendSign (keepLow w n) n = w))

/-- The byte in which a sign is repeated. -/
def signByte (negative : Bool) : UInt8 := if negative then 0xff else 0

/-- The last 8 bytes of a word, if every byte before them is the given one. -/
def last64? (w : Word) (before : UInt8) : Option (BitVec 64) :=
  if (List.range 24).all fun place => w.byte place == before then
    some (BitVec.ofNat 64 (numberOfPlaces w.byte 3 24))
  else none

/-- The low 64 bits of a word, if they hold the whole unsigned number. -/
def toUnsigned64? (w : Word) : Option (BitVec 64) := w.last64? 0

/-- The low 64 bits of a word, if they hold the whole signed number: all bytes before them
repeat their sign. -/
def toSigned64? (w : Word) : Option (BitVec 64) :=
  w.last64? (signByte (w.byte 24 &&& 0x80 != 0))

/-- The word of a number, two's complement if it is negative. -/
def ofInt (n : Int) : Word := BitVec.ofInt 256 n

/-- The word of a signed number of 128 bits: its 16 bytes behind as many that repeat its
sign. -/
def ofSigned128 (n : BitVec 128) : Word :=
  ofPlaces fun place =>
    if place < 16 then signByte n.msb else ⟨n.extractLsb' (8 * (31 - place)) 8⟩

/-- The word of at most 32 big-endian bytes, zero-extended on the left. -/
def ofBytes? (bytes : Bytes) : Option Word :=
  if bytes.length ≤ 32 then some (BitVec.ofNat 256 (Bytes.toNat bytes)) else none

/-- All 32 bytes of a word. -/
def toBytes (w : Word) : Bytes := Bytes.ofNat 32 w.toNat

/-- Two's complement, byte by byte from the low end on. -/
def negate (w : Word) : Word := BitVec.ofNat 256 (Bytes.toNat (Bytes.negate w.toBytes).1)

@[simp] theorem length_toBytes (w : Word) : w.toBytes.length = 32 := Bytes.length_ofNat 32 _

end Word

end RecordCodec
