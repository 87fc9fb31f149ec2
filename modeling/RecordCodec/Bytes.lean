/-!
# Byte strings and big-endian numbers

Everything on the wire is a byte string. Numbers of a fixed width are written
most significant byte first: `Bytes.ofNat` keeps the low bytes of a number and
`Bytes.toNat` reads such a group back. Negative numbers are in two's complement,
which is taken from the low end on.
-/

namespace RecordCodec

/-- A byte string, first byte first. -/
abbrev Bytes := List UInt8

namespace Bytes

/-- The number a byte string spells in base 256, most significant byte first. -/
def toNat (bytes : Bytes) : Nat := bytes.foldl (fun n b => n * 256 + b.toNat) 0

/-- The low `width` bytes of a number, most significant first. -/
def ofNat : (width n : Nat) → Bytes
  | 0, _ => []
  | width + 1, n => ofNat width (n / 256) ++ [UInt8.ofNat n]

/-- The bytes of the negated number, and the carry that is left over: every byte is inverted
and takes the carry of those behind it, which is set at the low end. -/
def negate : Bytes → Bytes × Bool
  | [] => ([], true)
  | byte :: bytes =>
    let (negated, carry) := negate bytes
    let sum := (~~~byte).toNat + carry.toNat
    (UInt8.ofNat sum :: negated, 256 ≤ sum)

@[simp] theorem length_ofNat (width n : Nat) : (ofNat width n).length = width := by
  induction width generalizing n with
  | zero => rfl
  | succ width ih => simp [ofNat, ih]

end Bytes

end RecordCodec
