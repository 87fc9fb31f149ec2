/-!
# Decimal numerals

A numeral is written with ASCII digits alone, without a sign, and without a
leading zero unless it is the numeral zero itself, so every number has exactly
one numeral.
-/

namespace RecordCodec

namespace Numeral

/-- The number that a string of digits spells. -/
def value (digits : List Char) : Nat :=
  digits.foldl (fun n c => 10 * n + (c.toNat - '0'.toNat)) 0

/-- The number of a numeral, if the text is one. -/
def parse? (text : List Char) : Option Nat :=
  match text with
  | [] => none
  | ['0'] => some 0
  | '0' :: _ => none
  | _ => if text.all Char.isDigit then some (value text) else none

/-- The numeral of a number. -/
def render (n : Nat) : List Char := Nat.toDigits 10 n

end Numeral

end RecordCodec
