import RecordCodec.Proofs.Word.Bits

/-!
# Arithmetic of words

Shifts, masks and cuts of a word are divisions and remainders by powers of two of
the number it stands for, for amounts of any size, and negation byte by byte is
that of two's complement. Range tests become comparisons.
-/

namespace RecordCodec

namespace Word

theorem toNat_toBytes (w : Word) : Bytes.toNat w.toBytes = w.toNat := by
  have hpow : 256 ^ 32 = 2 ^ 256 := by decide
  rw [toBytes, Bytes.toNat_ofNat, hpow, Nat.mod_eq_of_lt w.isLt]

/-- What the carry makes of the bytes of a word is its negation. -/
theorem negate_eq (w : Word) : w.negate = -w := by
  have hpow : 256 ^ 32 = 2 ^ 256 := by decide
  have hsum := Bytes.toNat_negate w.toBytes
  rw [length_toBytes, toNat_toBytes, hpow] at hsum
  apply BitVec.eq_of_toNat_eq
  rw [negate, BitVec.toNat_ofNat, BitVec.toNat_neg]
  cases hcarry : (Bytes.negate w.toBytes).2 with
  | false =>
    rw [hcarry, Bool.toNat_false, Nat.zero_mul, Nat.add_zero] at hsum
    rw [Nat.eq_sub_of_add_eq hsum]
  | true =>
    -- A carry is left over for zero alone.
    rw [hcarry, Bool.toNat_true, Nat.one_mul] at hsum
    have hword : w.toNat = 0 := by omega
    have hnegated : Bytes.toNat (Bytes.negate w.toBytes).1 = 0 := by omega
    rw [hword, hnegated, Nat.sub_zero, Nat.mod_self, Nat.zero_mod]

theorem toNat_shiftRight (w : Word) (n : Nat) : (shiftRight w n).toNat = w.toNat / 2 ^ n := by
  rw [shiftRight_eq]
  split
  · have hpow : 2 ^ 256 ≤ 2 ^ n := Nat.pow_le_pow_right (by decide) (by omega)
    exact (Nat.div_eq_of_lt (Nat.lt_of_lt_of_le w.isLt hpow)).symm
  · rw [BitVec.toNat_ushiftRight, Nat.shiftRight_eq_div_pow]

theorem toNat_shiftLeft (w : Word) (n : Nat) :
    (shiftLeft w n).toNat = w.toNat * 2 ^ n % 2 ^ 256 := by
  rw [shiftLeft_eq]
  split
  · have hdvd : 2 ^ 256 ∣ w.toNat * 2 ^ n :=
      Nat.dvd_mul_left_of_dvd (Nat.pow_dvd_pow 2 (by omega)) _
    exact (Nat.mod_eq_zero_of_dvd hdvd).symm
  · rw [BitVec.toNat_shiftLeft, Nat.shiftLeft_eq]

theorem toNat_keepLow (w : Word) (n : Nat) : (keepLow w n).toNat = w.toNat % 2 ^ min n 256 := by
  have hpow : 2 ^ min n 256 ≤ 2 ^ 256 := Nat.pow_le_pow_right (by decide) (Nat.min_le_right ..)
  have hlt := Nat.mod_lt w.toNat (Nat.two_pow_pos (min n 256))
  rw [keepLow_eq, BitVec.toNat_setWidth, BitVec.toNat_setWidth,
    Nat.mod_eq_of_lt (Nat.lt_of_lt_of_le hlt hpow)]

theorem toNat_keepHigh (w : Word) (n : Nat) :
    (keepHigh w n).toNat = w.toNat / 2 ^ (256 - n) * 2 ^ (256 - n) := by
  have hle := Nat.div_mul_le_self w.toNat (2 ^ (256 - n))
  rw [keepHigh_eq, BitVec.toNat_shiftLeft, BitVec.toNat_ushiftRight, Nat.shiftRight_eq_div_pow,
    Nat.shiftLeft_eq, Nat.mod_eq_of_lt (Nat.lt_of_le_of_lt hle w.isLt)]

theorem toNat_cutNumber (w : Word) (shift bits : Nat) :
    (cutNumber w shift bits).toNat = w.toNat / 2 ^ shift % 2 ^ min bits 256 := by
  rw [cutNumber, toNat_keepLow, toNat_shiftRight]

theorem toNat_cutBytes (w : Word) (offset bits : Nat) :
    (cutBytes w offset bits).toNat =
      w.toNat * 2 ^ offset % 2 ^ 256 / 2 ^ (256 - bits) * 2 ^ (256 - bits) := by
  rw [cutBytes, toNat_keepHigh, toNat_shiftLeft]

/-- A byte string is cut out like a number and moved up to the high end. -/
theorem toNat_cutBytes_of_le (w : Word) {offset bits : Nat} (h : offset + bits ≤ 256) :
    (cutBytes w offset bits).toNat =
      w.toNat / 2 ^ (256 - offset - bits) % 2 ^ bits * 2 ^ (256 - bits) := by
  have hword : (2 : Nat) ^ 256 = 2 ^ (256 - offset) * 2 ^ offset := by
    rw [← Nat.pow_add, Nat.sub_add_cancel (by omega)]
  have hlow : (2 : Nat) ^ (256 - bits) = 2 ^ (256 - offset - bits) * 2 ^ offset := by
    rw [← Nat.pow_add]
    congr 1
    omega
  have hhigh : (2 : Nat) ^ (256 - offset) = 2 ^ (256 - offset - bits) * 2 ^ bits := by
    rw [← Nat.pow_add, Nat.sub_add_cancel (by omega)]
  rw [toNat_cutBytes]
  congr 1
  rw [hword, Nat.mul_mod_mul_right, hlow, Nat.mul_div_mul_right _ _ (Nat.two_pow_pos offset),
    hhigh, Nat.mod_mul_right_div_self]

end Word

end RecordCodec
