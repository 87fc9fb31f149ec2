import RecordCodec.Bytes

/-!
# Hexadecimal text

Byte strings are written as two lower-case digits per byte. Reading accepts
digits of either case, and a pair that opens with a plus sign in place of a
leading zero.
-/

namespace RecordCodec

namespace Hex

/-- The lower-case digit of a number below 16. -/
def digit (n : Nat) : Char :=
  if n < 10 then Char.ofNat ('0'.toNat + n) else Char.ofNat ('a'.toNat + (n - 10))

/-- The number of a digit of either case. -/
def value? (c : Char) : Option Nat :=
  if '0' ≤ c ∧ c ≤ '9' then some (c.toNat - '0'.toNat)
  else if 'a' ≤ c ∧ c ≤ 'f' then some (c.toNat - 'a'.toNat + 10)
  else if 'A' ≤ c ∧ c ≤ 'F' then some (c.toNat - 'A'.toNat + 10)
  else none

/-- Two digits per byte, high digit first. -/
def encode : Bytes → List Char
  | [] => []
  | b :: bs => digit (b.toNat / 16) :: digit (b.toNat % 16) :: encode bs

/-- The byte of a pair of characters. -/
def pair? (high low : Char) : Option UInt8 :=
  if high = '+' then (value? low).map UInt8.ofNat
  else do
    let h ← value? high
    let l ← value? low
    return UInt8.ofNat (16 * h + l)

/-- Reads pairs to the end of the text; a character left over is an error. -/
def decode? : List Char → Option Bytes
  | [] => some []
  | [_] => none
  | high :: low :: rest => do
    let b ← pair? high low
    let bs ← decode? rest
    return b :: bs

@[simp] theorem encode_nil : encode [] = [] := rfl

@[simp] theorem encode_cons (b : UInt8) (bs : Bytes) :
    encode (b :: bs) = digit (b.toNat / 16) :: digit (b.toNat % 16) :: encode bs := rfl

theorem value?_digit : ∀ n < 16, value? (digit n) = some n := by decide

theorem digit_ne_plus : ∀ n < 16, digit n ≠ '+' := by decide

theorem pair?_digits (b : UInt8) :
    pair? (digit (b.toNat / 16)) (digit (b.toNat % 16)) = some b := by
  have hb : b.toNat < 256 := b.toNat_lt
  have hhigh : b.toNat / 16 < 16 := by omega
  have hlow : b.toNat % 16 < 16 := by omega
  rw [pair?, if_neg (digit_ne_plus _ hhigh), value?_digit _ hhigh, value?_digit _ hlow]
  simp only [bind, Option.bind, pure, Nat.div_add_mod, UInt8.ofNat_toNat]

theorem decode?_encode (bs : Bytes) : decode? (encode bs) = some bs := by
  induction bs with
  | nil => rfl
  | cons b bs ih => simp [decode?, pair?_digits, ih]

end Hex

end RecordCodec
