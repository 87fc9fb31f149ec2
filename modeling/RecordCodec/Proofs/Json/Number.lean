import RecordCodec.Proofs.Json.Integer

/-!
# Numbers as JSON

Words travel as the numbers they stand for. A number up to `2 ^ 53 - 1` in magnitude is a
JSON number; any other is text, its magnitude in hexadecimal behind the mark and behind a
minus sign if it is negative. Which of the two is chosen is asked of the low 64 bits of a
word, and digits are made of its bytes, but neither shows in the outcome.
-/

namespace RecordCodec

namespace Hex

theorem encode_append (front back : Bytes) :
    encode (front ++ back) = encode front ++ encode back := by
  induction front with
  | nil => rfl
  | cons b front ih => rw [List.cons_append, encode_cons, encode_cons, ih]; rfl

theorem digit_eq_digitChar : ∀ n < 16, digit n = n.digitChar := by decide

theorem encode_byte (n : Nat) :
    encode [UInt8.ofNat n] = [(n / 16 % 16).digitChar, (n % 16).digitChar] := by
  have hbyte : (UInt8.ofNat n).toNat = n % 256 := UInt8.toNat_ofNat'
  have hhigh : n % 256 / 16 = n / 16 % 16 := by omega
  have hlow : n % 256 % 16 = n % 16 := by omega
  rw [encode_cons, encode_nil, hbyte, hhigh, hlow, digit_eq_digitChar _ (by omega),
    digit_eq_digitChar _ (by omega)]

/-- The digits of a number end with those of its last byte. -/
theorem toDigits_append_byte {n : Nat} (h : 256 ≤ n) :
    Nat.toDigits 16 (n / 256) ++ encode [UInt8.ofNat n] = Nat.toDigits 16 n := by
  have hhigh : n / 16 / 16 = n / 256 := Nat.div_div_eq_div_mul n 16 16
  rw [encode_byte, Nat.toDigits_of_base_le (by decide) (by omega : 16 ≤ n),
    Nat.toDigits_of_base_le (by decide) (by omega : 16 ≤ n / 16), hhigh, List.append_assoc]
  rfl

theorem dropWhile_encode_byte : ∀ n < 256, (encode [UInt8.ofNat n]).dropWhile (· == '0') =
    if n = 0 then [] else Nat.toDigits 16 n := by decide +kernel

/-- Without zeros in front, the bytes of a number are written as the number. -/
theorem dropWhile_encode_ofNat (width : Nat) {n : Nat} (h : n < 256 ^ width) :
    (encode (Bytes.ofNat width n)).dropWhile (· == '0') =
      if n = 0 then [] else Nat.toDigits 16 n := by
  induction width generalizing n with
  | zero =>
    have hzero : n = 0 := by omega
    rw [hzero]
    rfl
  | succ width ih =>
    have hhigh : n / 256 < 256 ^ width := by
      rw [Nat.pow_succ] at h
      exact Nat.div_lt_of_lt_mul (by omega)
    rw [Bytes.ofNat, encode_append, List.dropWhile_append, ih hhigh]
    by_cases hsmall : n < 256
    · rw [if_pos (Nat.div_eq_of_lt hsmall), List.isEmpty_nil, if_pos rfl,
        dropWhile_encode_byte n hsmall]
    · have hne : n / 256 ≠ 0 := by omega
      have hdigits : (Nat.toDigits 16 (n / 256)).isEmpty = false := by
        simp [Nat.toDigits_ne_nil]
      rw [if_neg hne, hdigits, if_neg (by decide), toDigits_append_byte (by omega),
        if_neg (by omega)]

end Hex

namespace Word

/-- The digits of a word are those of its number. -/
theorem hexDigits_eq_toDigits (w : Word) : w.hexDigits = Nat.toDigits 16 w.toNat := by
  have htrimmed : (Hex.encode w.toBytes).dropWhile (· == '0') =
      if w.toNat = 0 then [] else Nat.toDigits 16 w.toNat := by
    have hpow : 256 ^ 32 = 2 ^ 256 := by decide
    exact Hex.dropWhile_encode_ofNat 32 (hpow ▸ w.isLt)
  unfold hexDigits
  split
  · rename_i hempty
    by_cases hzero : w.toNat = 0
    · rw [hzero]
      rfl
    · rw [htrimmed, if_neg hzero] at hempty
      exact absurd hempty Nat.toDigits_ne_nil
  · rename_i hsome
    by_cases hzero : w.toNat = 0
    · rw [htrimmed, if_pos hzero] at hsome
      exact absurd rfl hsome
    · rw [htrimmed, if_neg hzero]

/-- The negation of a negative number is its magnitude, also for the least one, whose
magnitude has no word with a sign. -/
theorem toNat_negate_of_msb {w : Word} (h : w.msb = true) :
    w.negate.toNat = w.toInt.natAbs := by
  have hlt := w.isLt
  have hpos : 2 ^ 255 ≤ w.toNat := by
    have hmsb := BitVec.msb_eq_decide w
    rw [h] at hmsb
    exact of_decide_eq_true hmsb.symm
  rw [negate_eq, BitVec.toNat_neg, BitVec.toInt_eq_msb_cond, if_pos h]
  omega

end Word

namespace Json

/-- An integer as it travels in JSON. -/
def ofInteger (z : Int) : Json :=
  if z.natAbs ≤ 2 ^ 53 - 1 then .int z
  else .string ((if z < 0 then "-" else "") ++ "0x" ++ String.ofList (Nat.toDigits 16 z.natAbs))

theorem markHex_eq (digits : List Char) : markHex digits = "0x" ++ String.ofList digits := by
  have happend : String.ofList (['0', 'x'] ++ digits) = _ := String.ofList_append
  exact happend

/-- The choice between a number and its text, as it is made for the low bits of a word. -/
theorem ite_eq_ofInteger {z : Int} {text : String}
    (htext : text = (if z < 0 then "-" else "") ++ "0x" ++
      String.ofList (Nat.toDigits 16 z.natAbs)) :
    (if z.natAbs ≤ Value.maxJsonNumber then Json.int z else .string text) = ofInteger z := by
  rw [htext]
  rfl

end Json

namespace Value

theorem signedHex_eq (w : Word) :
    signedHex w = (if w.toInt < 0 then "-" else "") ++ "0x" ++
      String.ofList (Nat.toDigits 16 w.toInt.natAbs) := by
  have hsign : w.msb = true ↔ w.toInt < 0 := by
    rw [BitVec.msb_eq_toInt, decide_eq_true_iff]
  unfold signedHex
  split
  · rename_i hmsb
    rw [if_pos (hsign.mp hmsb), Json.markHex_eq, Word.hexDigits_eq_toDigits,
      Word.toNat_negate_of_msb hmsb, String.append_assoc]
  · rename_i hmsb
    have hnumber : w.toInt.natAbs = w.toNat := by
      rw [BitVec.toInt_eq_msb_cond, if_neg hmsb, Int.natAbs_natCast]
    rw [if_neg (mt hsign.mpr hmsb), Json.markHex_eq, Word.hexDigits_eq_toDigits, hnumber]
    rfl

/-- A word without a sign is written as its number. -/
theorem unsignedToJson_eq (w : Word) : unsignedToJson w = Json.ofInteger w.toNat := by
  have htext : Json.markHex w.hexDigits = (if (w.toNat : Int) < 0 then "-" else "") ++ "0x" ++
      String.ofList (Nat.toDigits 16 (w.toNat : Int).natAbs) := by
    rw [if_neg (by omega), Json.markHex_eq, Word.hexDigits_eq_toDigits, Int.natAbs_natCast]
    rfl
  rw [← Json.ite_eq_ofInteger htext, Int.natAbs_natCast, unsignedToJson]
  cases hlow : w.toUnsigned64? with
  | some low => simp only [Word.toUnsigned64?_eq_some_iff.mp hlow]
  | none =>
    have hlarge := Word.toUnsigned64?_eq_none_iff.mp hlow
    have hmax : maxJsonNumber < 2 ^ 64 := by decide
    exact (if_neg (by omega)).symm

/-- A word with a sign is written as its two's complement number. -/
theorem signedToJson_eq (w : Word) : signedToJson w = Json.ofInteger w.toInt := by
  rw [← Json.ite_eq_ofInteger (signedHex_eq w), signedToJson]
  cases hlow : w.toSigned64? with
  | some low => simp only [Word.toSigned64?_eq_some_iff.mp hlow]
  | none =>
    have hlarge := Word.toSigned64?_eq_none_iff.mp hlow
    have hmax : maxJsonNumber < 2 ^ 63 := by decide
    exact (if_neg (by omega)).symm

/-- Numbers are written as the integers that their words stand for. -/
theorem toJson_of_number (w : Word) :
    (uint w).toJson = Json.ofInteger w.toNat ∧ (int w).toJson = Json.ofInteger w.toInt :=
  ⟨unsignedToJson_eq w, signedToJson_eq w⟩

end Value

end RecordCodec
