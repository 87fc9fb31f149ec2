import RecordCodec.Text.Hex
import RecordCodec.Word.Basic

/-!
# Words in hexadecimal

Two short forms of a word: as a number, without leading zero digits, and as a
byte string, without leading zero bytes. Both keep the last digit or byte, so
zero is written too.
-/

namespace RecordCodec

namespace Word

/-- The digits of a word as a number. -/
def hexDigits (w : Word) : List Char :=
  match (Hex.encode w.toBytes).dropWhile (· == '0') with
  | [] => ['0']
  | digits => digits

/-- The digits of a word as whole bytes. -/
def hexBytes (w : Word) : List Char :=
  match w.toBytes.dropWhile (· == 0) with
  | [] => Hex.encode [0]
  | bytes => Hex.encode bytes

end Word

end RecordCodec
