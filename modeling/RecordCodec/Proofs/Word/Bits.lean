import RecordCodec.Proofs.Bytes.Number
import RecordCodec.Word.Window

/-!
# Bits of words

A word is taken apart into bytes and put together from them, so a bit of it is a bit of one
of its bytes. Operations that go through the bytes are followed bit by bit: a byte that is
shifted meets its neighbour in the middle, and no bit gets lost between them.

Each operation on the bytes is one on all the 256 bits at once. From here on nothing looks
at single bytes of a word again.
-/

namespace RecordCodec

section Byte

variable (b : UInt8) {amount bit : Nat}

theorem getLsbD_byte_shiftRight (hamount : amount < 8) :
    (b >>> UInt8.ofNat amount).toBitVec.getLsbD bit = b.toBitVec.getLsbD (amount + bit) := by
  rw [UInt8.toBitVec_shiftRight]
  simp [Nat.mod_eq_of_lt hamount]

theorem getLsbD_byte_shiftLeft (hamount : amount < 8) (hbit : bit < 8) :
    (b <<< UInt8.ofNat amount).toBitVec.getLsbD bit =
      (!decide (bit < amount) && b.toBitVec.getLsbD (bit - amount)) := by
  have hword : ((UInt8.ofNat amount).toBitVec % 8).toNat = amount := by
    simp [Nat.mod_eq_of_lt hamount]
  rw [UInt8.toBitVec_shiftLeft, BitVec.shiftLeft_eq', hword, BitVec.getLsbD_shiftLeft]
  rw [decide_eq_true hbit, Bool.true_and]

theorem getLsbD_low_mask (hamount : amount < 8) (hbit : bit < 8) :
    (b &&& ((1 <<< UInt8.ofNat amount) - 1)).toBitVec.getLsbD bit =
      (decide (bit < amount) && b.toBitVec.getLsbD bit) := by
  have hmask : ∀ amount < 8, ∀ bit < 8,
      ((1 <<< UInt8.ofNat amount) - 1 : UInt8).toBitVec.getLsbD bit = decide (bit < amount) := by
    decide
  rw [UInt8.toBitVec_and, BitVec.getLsbD_and, hmask amount hamount bit hbit, Bool.and_comm]

theorem getLsbD_high_mask (hamount : amount < 8) (hbit : bit < 8) :
    (b &&& ~~~(0xff >>> UInt8.ofNat amount)).toBitVec.getLsbD bit =
      (!decide (bit < 8 - amount) && b.toBitVec.getLsbD bit) := by
  have hmask : ∀ amount < 8, ∀ bit < 8,
      (~~~(0xff >>> UInt8.ofNat amount) : UInt8).toBitVec.getLsbD bit =
        !decide (bit < 8 - amount) := by
    decide
  rw [UInt8.toBitVec_and, BitVec.getLsbD_and, hmask amount hamount bit hbit, Bool.and_comm]

theorem and_one_eq_one_iff : b &&& 1 = 1 ↔ b.toBitVec.getLsbD 0 = true := by
  rw [← UInt8.toBitVec_inj, UInt8.toBitVec_and, UInt8.toBitVec_one,
    BitVec.and_one_eq_setWidth_ofBool_getLsbD]
  cases b.toBitVec.getLsbD 0 <;> decide

theorem and_high_bit_ne_zero : (b &&& 0x80 != 0) = b.toBitVec.getLsbD 7 := by
  have hhigh : (0x80 : UInt8).toBitVec = BitVec.twoPow 8 7 := by decide
  rw [Bool.eq_iff_iff, bne_iff_ne, ne_eq, ← UInt8.toBitVec_inj, UInt8.toBitVec_and, hhigh,
    BitVec.and_twoPow]
  cases b.toBitVec.getLsbD 7 <;> decide

end Byte

namespace Word

variable (w : Word)

theorem getLsbD_byte (place : Nat) {bit : Nat} (hbit : bit < 8) :
    (w.byte place).toBitVec.getLsbD bit = w.getLsbD (8 * (31 - place) + bit) := by
  simp [byte, hbit]

/-- The byte that a bit of the word stands in. -/
theorem getLsbD_byte_of_bit {k : Nat} (hk : k < 256) :
    (w.byte (31 - k / 8)).toBitVec.getLsbD (k % 8) = w.getLsbD k := by
  have hplace : 8 * (31 - (31 - k / 8)) + k % 8 = k := by omega
  rw [w.getLsbD_byte _ (by omega), hplace]

theorem numberOfPlaces_succ (byteAt : Nat → UInt8) (levels place : Nat) :
    numberOfPlaces byteAt (levels + 1) place =
      2 ^ (8 * 2 ^ levels) * numberOfPlaces byteAt levels place +
        numberOfPlaces byteAt levels (place + 2 ^ levels) := by
  rw [numberOfPlaces, Nat.shiftLeft_eq, Nat.shiftLeft_eq, Nat.shiftLeft_eq, Nat.one_mul,
    Nat.mul_comm]

theorem numberOfPlaces_lt (byteAt : Nat → UInt8) (levels place : Nat) :
    numberOfPlaces byteAt levels place < 2 ^ (8 * 2 ^ levels) := by
  induction levels generalizing place with
  | zero => exact (byteAt place).toNat_lt
  | succ levels ih =>
    have hbits : 8 * 2 ^ (levels + 1) = 8 * 2 ^ levels + 8 * 2 ^ levels := by
      rw [Nat.pow_succ]
      omega
    rw [numberOfPlaces_succ, hbits, Nat.pow_add]
    calc _ < 2 ^ (8 * 2 ^ levels) * numberOfPlaces byteAt levels place + 2 ^ (8 * 2 ^ levels) :=
          Nat.add_lt_add_left (ih (place + 2 ^ levels)) _
      _ = 2 ^ (8 * 2 ^ levels) * (numberOfPlaces byteAt levels place + 1) := rfl
      _ ≤ 2 ^ (8 * 2 ^ levels) * 2 ^ (8 * 2 ^ levels) := Nat.mul_le_mul_left _ (ih place)

/-- The bits of a number are those of the bytes that it is put together from. -/
theorem testBit_numberOfPlaces (byteAt : Nat → UInt8) {levels k : Nat} (place : Nat)
    (hk : k < 8 * 2 ^ levels) :
    (numberOfPlaces byteAt levels place).testBit k =
      (byteAt (place + (2 ^ levels - 1 - k / 8))).toBitVec.getLsbD (k % 8) := by
  induction levels generalizing k place with
  | zero =>
    rw [Nat.pow_zero, Nat.mul_one] at hk
    rw [numberOfPlaces, Nat.pow_zero, Nat.div_eq_of_lt hk, Nat.mod_eq_of_lt hk]
    rfl
  | succ levels ih =>
    have hhalf : 2 ^ (levels + 1) = 2 ^ levels + 2 ^ levels := by
      rw [Nat.pow_succ]
      omega
    rw [numberOfPlaces_succ, Nat.testBit_two_pow_mul_add _ (numberOfPlaces_lt byteAt levels _)]
    split
    · rename_i hlow
      have hplace : place + 2 ^ levels + (2 ^ levels - 1 - k / 8) =
          place + (2 ^ (levels + 1) - 1 - k / 8) := by omega
      rw [ih _ hlow, hplace]
    · have hplace : place + (2 ^ levels - 1 - (k - 8 * 2 ^ levels) / 8) =
          place + (2 ^ (levels + 1) - 1 - k / 8) := by omega
      have hbit : (k - 8 * 2 ^ levels) % 8 = k % 8 := by omega
      rw [ih _ (by omega), hplace, hbit]

theorem getLsbD_ofPlaces (byteAt : Nat → UInt8) {k : Nat} (hk : k < 256) :
    (ofPlaces byteAt).getLsbD k = (byteAt (31 - k / 8)).toBitVec.getLsbD (k % 8) := by
  have hnumber : k < 8 * 2 ^ 5 := hk
  rw [ofPlaces, BitVec.getLsbD_ofNat, testBit_numberOfPlaces byteAt 0 hnumber]
  simp [hk]

section Shifted

variable {bits bit source : Nat}

/-- A byte shifted down and completed by the one before it holds eight bits of the word in
a row. -/
theorem getLsbD_shifted_down (hbits : bits < 8) (hbit : bit < 8) (hsource : source < 32) :
    (if 0 < bits ∧ 0 < source then w.byte source >>> UInt8.ofNat bits |||
        w.byte (source - 1) <<< UInt8.ofNat (8 - bits)
      else w.byte source >>> UInt8.ofNat bits).toBitVec.getLsbD bit =
      w.getLsbD (8 * (31 - source) + (bits + bit)) := by
  have hown : (w.byte source >>> UInt8.ofNat bits).toBitVec.getLsbD bit =
      (w.byte source).toBitVec.getLsbD (bits + bit) := getLsbD_byte_shiftRight _ hbits
  by_cases hinside : bits + bit < 8
  · have hbehind : bit < 8 - bits := by omega
    rw [w.getLsbD_byte source hinside] at hown
    split
    · rename_i hcarry
      rw [UInt8.toBitVec_or, BitVec.getLsbD_or, hown,
        getLsbD_byte_shiftLeft _ (by omega) hbit, decide_eq_true hbehind]
      simp
    · exact hown
  · rw [BitVec.getLsbD_of_ge (w.byte source).toBitVec _ (by omega)] at hown
    split
    · rename_i hcarry
      have hbehind : ¬ bit < 8 - bits := by omega
      have hplace : 8 * (31 - (source - 1)) + (bit - (8 - bits)) =
          8 * (31 - source) + (bits + bit) := by omega
      rw [UInt8.toBitVec_or, BitVec.getLsbD_or, hown,
        getLsbD_byte_shiftLeft _ (by omega) hbit, decide_eq_false hbehind,
        w.getLsbD_byte _ (by omega), hplace]
      simp
    · -- The first byte has none before it, nor has the word bits there.
      rw [hown, BitVec.getLsbD_of_ge w _ (by omega)]

/-- A byte shifted up and completed by the one behind it. Bits behind the last one are
zero. -/
theorem getLsbD_shifted_up (hbits : bits < 8) (hbit : bit < 8) (hsource : source < 32) :
    (if 0 < bits ∧ source + 1 < 32 then w.byte source <<< UInt8.ofNat bits |||
        w.byte (source + 1) >>> UInt8.ofNat (8 - bits)
      else w.byte source <<< UInt8.ofNat bits).toBitVec.getLsbD bit =
      (!decide (8 * (31 - source) + bit < bits) &&
        w.getLsbD (8 * (31 - source) + bit - bits)) := by
  have hown := getLsbD_byte_shiftLeft (w.byte source) hbits hbit
  by_cases hinside : bits ≤ bit
  · have hlow : ¬ bit < bits := by omega
    have hword : ¬ 8 * (31 - source) + bit < bits := by omega
    have hplace : 8 * (31 - source) + (bit - bits) = 8 * (31 - source) + bit - bits := by omega
    rw [decide_eq_false hlow, w.getLsbD_byte source (by omega), hplace] at hown
    rw [decide_eq_false hword]
    split
    · rename_i hcarry
      rw [UInt8.toBitVec_or, BitVec.getLsbD_or, hown,
        getLsbD_byte_shiftRight _ (by omega),
        BitVec.getLsbD_of_ge (w.byte (source + 1)).toBitVec _ (by omega)]
      simp
    · exact hown
  · have hlow : bit < bits := by omega
    rw [decide_eq_true hlow, Bool.not_true, Bool.false_and] at hown
    split
    · rename_i hcarry
      have hword : ¬ 8 * (31 - source) + bit < bits := by omega
      have hplace : 8 * (31 - (source + 1)) + (8 - bits + bit) =
          8 * (31 - source) + bit - bits := by omega
      rw [UInt8.toBitVec_or, BitVec.getLsbD_or, hown,
        getLsbD_byte_shiftRight _ (by omega), w.getLsbD_byte _ (by omega), hplace,
        decide_eq_false hword]
      simp
    · -- The last byte has none behind it, and the word no bits there.
      have hword : 8 * (31 - source) + bit < bits := by omega
      rw [hown, decide_eq_true hword]
      simp

end Shifted

theorem shiftRight_eq (n : Nat) : shiftRight w n = if 256 ≤ n then 0 else w >>> n := by
  unfold shiftRight
  split
  · rfl
  · apply BitVec.eq_of_getLsbD_eq
    intro k hk
    rw [getLsbD_ofPlaces _ hk, BitVec.getLsbD_ushiftRight]
    split
    · rw [BitVec.getLsbD_of_ge w _ (by omega)]
      simp
    · have hplace : 8 * (31 - (31 - k / 8 - n / 8)) + (n % 8 + k % 8) = n + k := by omega
      rw [w.getLsbD_shifted_down (by omega) (by omega) (by omega), hplace]

theorem shiftLeft_eq (n : Nat) : shiftLeft w n = if 256 ≤ n then 0 else w <<< n := by
  unfold shiftLeft
  split
  · rfl
  · apply BitVec.eq_of_getLsbD_eq
    intro k hk
    rw [getLsbD_ofPlaces _ hk, BitVec.getLsbD_shiftLeft, decide_eq_true hk, Bool.true_and]
    split
    · rw [w.getLsbD_shifted_up (by omega) (by omega) (by omega)]
      have hplace : 8 * (31 - (31 - k / 8 + n / 8)) + k % 8 - n % 8 = k - n := by omega
      have hlow : 8 * (31 - (31 - k / 8 + n / 8)) + k % 8 < n % 8 ↔ k < n := by omega
      rw [hplace, decide_eq_decide.mpr hlow]
    · have hlow : k < n := by omega
      rw [decide_eq_true hlow]
      simp

theorem keepLow_eq (n : Nat) : keepLow w n = (w.setWidth (min n 256)).setWidth 256 := by
  apply BitVec.eq_of_getLsbD_eq
  intro k hk
  rw [keepLow, getLsbD_ofPlaces _ hk, BitVec.getLsbD_setWidth, BitVec.getLsbD_setWidth,
    decide_eq_true hk, Bool.true_and]
  dsimp only
  split
  · have hkept : k < min n 256 := by omega
    rw [w.getLsbD_byte_of_bit hk, decide_eq_true hkept, Bool.true_and]
  · split
    · have hkept : k % 8 < min n 256 % 8 ↔ k < min n 256 := by omega
      rw [getLsbD_low_mask _ (by omega) (by omega), w.getLsbD_byte_of_bit hk,
        decide_eq_decide.mpr hkept]
    · have hcleared : ¬ k < min n 256 := by omega
      rw [decide_eq_false hcleared]
      simp

theorem keepHigh_eq (n : Nat) : keepHigh w n = (w >>> (256 - n)) <<< (256 - n) := by
  apply BitVec.eq_of_getLsbD_eq
  intro k hk
  rw [keepHigh, getLsbD_ofPlaces _ hk, BitVec.getLsbD_shiftLeft, BitVec.getLsbD_ushiftRight,
    decide_eq_true hk, Bool.true_and]
  by_cases hcleared : k < 256 - n
  · rw [decide_eq_true hcleared]
    split
    · omega
    · split
      · have hbit : k % 8 < 8 - min n 256 % 8 := by omega
        rw [getLsbD_high_mask _ (by omega) (by omega), decide_eq_true hbit]
        simp
      · simp
  · have hplace : 256 - n + (k - (256 - n)) = k := by omega
    rw [decide_eq_false hcleared, hplace]
    split
    · rw [w.getLsbD_byte_of_bit hk]
      simp
    · split
      · have hbit : ¬ k % 8 < 8 - min n 256 % 8 := by omega
        rw [getLsbD_high_mask _ (by omega) (by omega), w.getLsbD_byte_of_bit hk,
          decide_eq_false hbit]
      · omega

/-- The test of a single bit. -/
theorem byte_bit_eq_one_iff {k : Nat} (hk : k < 256) :
    w.byte (31 - k / 8) >>> UInt8.ofNat (k % 8) &&& 1 = 1 ↔ w.getLsbD k = true := by
  rw [and_one_eq_one_iff, getLsbD_byte_shiftRight _ (by omega), Nat.add_zero,
    w.getLsbD_byte_of_bit hk]

theorem extendSign_eq_signExtend (n : Nat) :
    extendSign w n = if n = 0 ∨ 256 ≤ n then w else (w.setWidth n).signExtend 256 := by
  unfold extendSign
  split
  · rfl
  · rename_i hwidth
    have hsign : (w.setWidth n).msb = w.getLsbD (n - 1) := by
      have hlast : n - 1 < n := by omega
      rw [BitVec.msb_eq_getLsbD_last, BitVec.getLsbD_setWidth, decide_eq_true hlast,
        Bool.true_and]
    have hlow : min n 256 = n := by omega
    apply BitVec.eq_of_getLsbD_eq
    intro k hk
    rw [BitVec.getLsbD_signExtend, decide_eq_true hk, Bool.true_and, hsign,
      BitVec.getLsbD_setWidth]
    cases hset : w.getLsbD (n - 1) with
    | true =>
      rw [if_pos ((w.byte_bit_eq_one_iff (by omega)).mpr hset), BitVec.getLsbD_or, keepLow_eq,
        shiftLeft_eq, if_neg (by omega), hlow, BitVec.getLsbD_setWidth, BitVec.getLsbD_setWidth,
        BitVec.getLsbD_shiftLeft, BitVec.getLsbD_allOnes, decide_eq_true hk]
      by_cases hinside : k < n
      · simp [hinside]
      · have hbehind : k - n < 256 := by omega
        simp [hinside, hbehind]
    | false =>
      have hclear : ¬ (w.byte (31 - (n - 1) / 8) >>> UInt8.ofNat ((n - 1) % 8) &&& 1 = 1) := by
        rw [w.byte_bit_eq_one_iff (by omega), hset]
        decide
      rw [if_neg hclear, keepLow_eq, hlow, BitVec.getLsbD_setWidth, BitVec.getLsbD_setWidth,
        decide_eq_true hk]
      by_cases hinside : k < n
      · simp [hinside]
      · simp [hinside]

theorem getLsbD_signByte (negative : Bool) {bit : Nat} (hbit : bit < 8) :
    (signByte negative).toBitVec.getLsbD bit = negative := by
  have hbits : ∀ negative, ∀ bit < 8, (signByte negative).toBitVec.getLsbD bit = negative := by
    decide
  exact hbits negative bit hbit

/-- The bytes before the last eight hold a sign when the bits above the low 64 do. -/
theorem all_byte_eq_signByte_iff {negative : Bool} :
    ((List.range 24).all fun place => w.byte place == signByte negative) ↔
      ∀ k, 64 ≤ k → k < 256 → w.getLsbD k = negative := by
  simp only [List.all_eq_true, List.mem_range, beq_iff_eq]
  constructor
  · intro h k habove hk
    rw [← w.getLsbD_byte_of_bit hk, h _ (by omega), getLsbD_signByte _ (by omega)]
  · intro h place hplace
    apply UInt8.toBitVec_inj.mp
    apply BitVec.eq_of_getLsbD_eq
    intro bit hbit
    rw [w.getLsbD_byte place hbit, getLsbD_signByte _ hbit]
    exact h _ (by omega) (by omega)

theorem ofNat_numberOfPlaces_byte :
    BitVec.ofNat 64 (numberOfPlaces w.byte 3 24) = w.setWidth 64 := by
  apply BitVec.eq_of_getLsbD_eq
  intro k hk
  have hplace : 24 + (2 ^ 3 - 1 - k / 8) = 31 - k / 8 := by omega
  rw [BitVec.getLsbD_ofNat, testBit_numberOfPlaces _ _ (by omega), hplace,
    w.getLsbD_byte_of_bit (by omega), BitVec.getLsbD_setWidth]

/-- A word is narrowed if it is its own low bits with their sign above them. -/
theorem last64?_signByte {negative : Bool} {wide : Word}
    (hlow : ∀ k < 64, wide.getLsbD k = w.getLsbD k)
    (habove : ∀ k, 64 ≤ k → k < 256 → wide.getLsbD k = negative) :
    w.last64? (signByte negative) = if wide = w then some (w.setWidth 64) else none := by
  have hwide : ((List.range 24).all fun place => w.byte place == signByte negative) ↔
      wide = w := by
    rw [w.all_byte_eq_signByte_iff]
    constructor
    · intro h
      apply BitVec.eq_of_getLsbD_eq
      intro k hk
      by_cases hinside : k < 64
      · exact hlow k hinside
      · rw [habove k (by omega) hk, h k (by omega) hk]
    · rintro rfl
      exact habove
  rw [last64?, w.ofNat_numberOfPlaces_byte]
  exact if_congr hwide rfl rfl

theorem toUnsigned64?_eq :
    w.toUnsigned64? =
      if (w.setWidth 64).setWidth 256 = w then some (w.setWidth 64) else none := by
  change w.last64? (signByte false) = _
  apply w.last64?_signByte
  · intro k hk
    have hword : k < 256 := by omega
    simp [hk, hword]
  · intro k habove _
    have houtside : ¬ k < 64 := by omega
    simp [houtside]

theorem toSigned64?_eq :
    w.toSigned64? =
      if (w.setWidth 64).signExtend 256 = w then some (w.setWidth 64) else none := by
  have hsign : (w.byte 24 &&& 0x80 != 0) = (w.setWidth 64).msb := by
    rw [and_high_bit_ne_zero, w.getLsbD_byte 24 (by decide), BitVec.msb_setWidth]
    rfl
  rw [toSigned64?, hsign]
  apply w.last64?_signByte
  · intro k hk
    have hword : k < 256 := by omega
    rw [BitVec.getLsbD_signExtend, decide_eq_true hword, Bool.true_and, if_pos hk,
      BitVec.getLsbD_setWidth, decide_eq_true hk, Bool.true_and]
  · intro k habove hk
    have houtside : ¬ k < 64 := by omega
    rw [BitVec.getLsbD_signExtend, decide_eq_true hk, Bool.true_and, if_neg houtside]

theorem ofSigned128_eq (n : BitVec 128) : ofSigned128 n = n.signExtend 256 := by
  apply BitVec.eq_of_getLsbD_eq
  intro k hk
  rw [ofSigned128, getLsbD_ofPlaces _ hk, BitVec.getLsbD_signExtend, decide_eq_true hk,
    Bool.true_and]
  split
  · have houtside : ¬ k < 128 := by omega
    rw [getLsbD_signByte _ (by omega), if_neg houtside]
  · have hinside : k < 128 := by omega
    have hbit : k % 8 < 8 := by omega
    have hplace : 8 * (31 - (31 - k / 8)) + k % 8 = k := by omega
    rw [if_pos hinside, BitVec.getLsbD_extractLsb', decide_eq_true hbit, Bool.true_and, hplace]

end Word

end RecordCodec
