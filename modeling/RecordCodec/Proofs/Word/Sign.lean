import RecordCodec.Proofs.Word.Alignment

/-!
# Two's complement

The number that a byte string spells with a sign, and the words that stand for
such numbers. A word fits a width when the number in its low bits is the number
it stands for, so that cutting it down to the width and widening it again loses
nothing. The same is said of the 64 bits in which numbers travel outside of words, and
numbers of 128 bits become the words that stand for them.
-/

namespace RecordCodec

namespace Bytes

/-- The two's complement number that a byte string spells. -/
def toInt (bytes : Bytes) : Int := (toNat bytes : Int).bmod (256 ^ bytes.length)

end Bytes

namespace Word

theorem bmod_natCast_mod (k n : Nat) :
    ((k % 2 ^ n : Nat) : Int).bmod (2 ^ n) = (k : Int).bmod (2 ^ n) := by
  rw [Int.natCast_mod, Int.emod_bmod]

theorem fitsUnsigned_iff {w : Word} {n : Nat} : w.FitsUnsigned n ↔ w.toNat < 2 ^ n := by
  rw [FitsUnsigned, BitVec.toNat_eq, toNat_keepLow]
  constructor
  · intro h
    have hlt := Nat.mod_lt w.toNat (Nat.two_pow_pos (min n 256))
    rw [h] at hlt
    exact Nat.lt_of_lt_of_le hlt (Nat.pow_le_pow_right (by decide) (Nat.min_le_left n 256))
  · intro h
    apply Nat.mod_eq_of_lt
    rcases Nat.le_total n 256 with hn | hn
    · rwa [Nat.min_eq_left hn]
    · rw [Nat.min_eq_right hn]
      exact w.isLt

/-- Widening keeps the two's complement number in the low bits. -/
theorem extendSign_eq (w : Word) {n : Nat} (hpos : 0 < n) (hle : n ≤ 256) :
    w.extendSign n = ofInt ((w.toNat : Int).bmod (2 ^ n)) := by
  rw [extendSign_eq_signExtend]
  split
  · have hn : n = 256 := by omega
    rw [hn, ofInt]
    exact (BitVec.ofInt_toInt (x := w)).symm.trans (by rw [BitVec.toInt_eq_toNat_bmod])
  · rw [BitVec.signExtend, ofInt, BitVec.toInt_eq_toNat_bmod, BitVec.toNat_setWidth]
    rw [bmod_natCast_mod]

/-- A word fits a width when the number in its low bits is its own. -/
theorem fitsSigned_iff {w : Word} {n : Nat} (hpos : 0 < n) (hle : n ≤ 256) :
    w.FitsSigned n ↔ ofInt ((w.toNat : Int).bmod (2 ^ n)) = w := by
  rw [FitsSigned, extendSign_eq _ hpos hle, toNat_keepLow, Nat.min_eq_left hle, bmod_natCast_mod]

section Width

variable {bits : Nat} (hbits : 8 ∣ bits) (hle : bits ≤ 256)

include hbits in
theorem pow_eq : 256 ^ (bits / 8) = 2 ^ bits := by
  rw [show 256 = 2 ^ 8 from rfl, ← Nat.pow_mul, Nat.mul_div_cancel' hbits]

include hbits in
/-- The low bytes of a number that fits an unsigned width are all of it. -/
theorem rightAligned_ofNat {w : Word} (h : w.FitsUnsigned bits) :
    rightAligned (Bytes.ofNat (bits / 8) w.toNat) = w := by
  rw [rightAligned, Bytes.toNat_ofNat, pow_eq hbits, Nat.mod_eq_of_lt (fitsUnsigned_iff.mp h)]
  exact BitVec.ofNat_toNat 256 w

include hbits hle in
/-- The low bytes of a number that fits a signed width determine it. -/
theorem ofInt_toInt_ofNat {w : Word} (hpos : 0 < bits) (h : w.FitsSigned bits) :
    ofInt (Bytes.toInt (Bytes.ofNat (bits / 8) w.toNat)) = w := by
  rw [Bytes.toInt, Bytes.length_ofNat, Bytes.toNat_ofNat, pow_eq hbits, bmod_natCast_mod]
  exact (fitsSigned_iff hpos hle).mp h

include hbits hle in
theorem fitsUnsigned_rightAligned {bytes : Bytes} (h : bytes.length = bits / 8) :
    (rightAligned bytes).FitsUnsigned bits := by
  rw [fitsUnsigned_iff, toNat_rightAligned (by omega), ← pow_eq hbits, ← h]
  exact Bytes.toNat_lt bytes

include hbits hle in
/-- Widening the number that some bytes spell gives their two's complement number. -/
theorem extendSign_rightAligned {bytes : Bytes} (hpos : 0 < bits)
    (h : bytes.length = bits / 8) :
    (rightAligned bytes).extendSign bits = ofInt bytes.toInt := by
  rw [extendSign_eq _ hpos hle, toNat_rightAligned (by omega), Bytes.toInt, h, pow_eq hbits]

/-- Widening a number of a width leaves its low bits as they are. -/
theorem toNat_ofInt_bmod_mod (k : Nat) {n : Nat} (hle : n ≤ 256) :
    (ofInt ((k : Int).bmod (2 ^ n))).toNat % 2 ^ n = k % 2 ^ n := by
  have hdvd : ((2 ^ n : Nat) : Int) ∣ ((2 ^ 256 : Nat) : Int) :=
    Int.natCast_dvd_natCast.mpr (Nat.pow_dvd_pow 2 hle)
  have hnonneg : 0 ≤ (k : Int).bmod (2 ^ n) % ((2 ^ 256 : Nat) : Int) :=
    Int.emod_nonneg _ (by decide)
  apply Int.ofNat.inj
  change ((_ % 2 ^ n : Nat) : Int) = ((k % 2 ^ n : Nat) : Int)
  rw [Int.natCast_mod, ofInt, BitVec.toNat_ofInt, Int.toNat_of_nonneg hnonneg,
    Int.emod_emod_of_dvd _ hdvd, Int.bmod_emod, Int.natCast_mod]

include hbits hle in
theorem fitsSigned_ofInt_toInt {bytes : Bytes} (hpos : 0 < bits) (h : bytes.length = bits / 8) :
    (ofInt bytes.toInt).FitsSigned bits := by
  rw [fitsSigned_iff hpos hle, Bytes.toInt, h, pow_eq hbits]
  rw [← bmod_natCast_mod (ofInt _).toNat, toNat_ofInt_bmod_mod _ hle, bmod_natCast_mod]

include hbits hle in
/-- The low bytes of a widened number are the bytes it was read from. -/
theorem ofNat_ofInt_toInt {bytes : Bytes} (h : bytes.length = bits / 8) :
    Bytes.ofNat (bits / 8) (ofInt bytes.toInt).toNat = bytes := by
  rw [← Bytes.ofNat_mod, pow_eq hbits, Bytes.toInt, h, pow_eq hbits, toNat_ofInt_bmod_mod _ hle,
    ← pow_eq hbits, Bytes.ofNat_mod, ← h, Bytes.ofNat_toNat]

theorem ofNat_rightAligned {bytes : Bytes} (h : bytes.length ≤ 32) :
    Bytes.ofNat bytes.length (rightAligned bytes).toNat = bytes := by
  rw [toNat_rightAligned h, Bytes.ofNat_toNat]

end Width

/-- Reducing to a signed width picks, of the numbers that agree in their low bits, the one in
the range of the width. -/
theorem bmod_eq_iff {k z : Int} {n : Nat} (hpos : 0 < n) :
    k.bmod (2 ^ n) = z ↔ -2 ^ (n - 1) ≤ z ∧ z < 2 ^ (n - 1) ∧ z % 2 ^ n = k % 2 ^ n := by
  obtain ⟨half, rfl⟩ : ∃ half, n = half + 1 := ⟨n - 1, by omega⟩
  have hpow : ((2 ^ (half + 1) : Nat) : Int) = 2 * 2 ^ half := by
    push_cast
    ring
  have hcongr : ((2 ^ (half + 1) : Nat) : Int) ∣ z - k ↔
      z % 2 ^ (half + 1) = k % 2 ^ (half + 1) := by
    rw [Int.emod_eq_emod_iff_emod_sub_eq_zero, ← Int.dvd_iff_emod_eq_zero]
    push_cast
    rfl
  rw [Int.bmod_eq_iff (Nat.two_pow_pos _), hcongr, hpow, Nat.add_sub_cancel]
  omega

/-- The numbers of a signed width are those that reducing to the width leaves alone. -/
theorem bmod_eq_self_iff {z : Int} {n : Nat} (hpos : 0 < n) :
    z.bmod (2 ^ n) = z ↔ -2 ^ (n - 1) ≤ z ∧ z < 2 ^ (n - 1) := by
  rw [bmod_eq_iff hpos, and_iff_left rfl]

/-- What a width leaves alone is left alone by the whole word. -/
theorem bmod_word_of_bmod {z : Int} {n : Nat} (hpos : 0 < n) (hle : n ≤ 256)
    (h : z.bmod (2 ^ n) = z) : z.bmod (2 ^ 256) = z := by
  have hpow : (2 : Int) ^ (n - 1) ≤ 2 ^ (256 - 1) :=
    mod_cast Nat.pow_le_pow_right (by decide) (show n - 1 ≤ 256 - 1 by omega)
  rw [bmod_eq_self_iff hpos] at h
  rw [bmod_eq_self_iff (by decide)]
  omega

/-- The low bits of a word are those of the number that it stands for. -/
theorem bmod_toNat (w : Word) {n : Nat} (hle : n ≤ 256) :
    (w.toNat : Int).bmod (2 ^ n) = w.toInt.bmod (2 ^ n) := by
  rw [BitVec.toInt_eq_toNat_bmod, Int.bmod_bmod_of_dvd (Nat.pow_dvd_pow 2 hle)]

/-- What a widened word stands for. -/
theorem toInt_extendSign (w : Word) {n : Nat} (hpos : 0 < n) (hle : n ≤ 256) :
    (w.extendSign n).toInt = (w.toNat : Int).bmod (2 ^ n) := by
  rw [extendSign_eq w hpos hle, ofInt, BitVec.toInt_ofInt,
    bmod_word_of_bmod hpos hle Int.bmod_bmod]

/-- A word fits a signed width when the number it stands for does. -/
theorem fitsSigned_iff_toInt {w : Word} {n : Nat} (hpos : 0 < n) (hle : n ≤ 256) :
    w.FitsSigned n ↔ w.toInt.bmod (2 ^ n) = w.toInt := by
  rw [fitsSigned_iff hpos hle, bmod_toNat w hle]
  constructor
  · intro h
    have hsigned := congrArg BitVec.toInt h
    rw [ofInt, BitVec.toInt_ofInt, bmod_word_of_bmod hpos hle Int.bmod_bmod] at hsigned
    exact hsigned
  · intro h
    rw [h]
    exact BitVec.ofInt_toInt

theorem fitsSigned_iff_range {w : Word} {n : Nat} (hpos : 0 < n) (hle : n ≤ 256) :
    w.FitsSigned n ↔ -2 ^ (n - 1) ≤ w.toInt ∧ w.toInt < 2 ^ (n - 1) :=
  (fitsSigned_iff_toInt hpos hle).trans (bmod_eq_self_iff hpos)

/-- The low 64 bits that are taken for a word are all of it. -/
theorem setWidth_of_toUnsigned64? {w : Word} {low : BitVec 64} (h : w.toUnsigned64? = some low) :
    low.setWidth 256 = w := by
  rw [toUnsigned64?_eq] at h
  obtain ⟨hwhole, hlow⟩ := Option.ite_none_right_eq_some.mp h
  cases hlow
  exact hwhole

theorem signExtend_of_toSigned64? {w : Word} {low : BitVec 64} (h : w.toSigned64? = some low) :
    low.signExtend 256 = w := by
  rw [toSigned64?_eq] at h
  obtain ⟨hwhole, hlow⟩ := Option.ite_none_right_eq_some.mp h
  cases hlow
  exact hwhole

/-- The low bits are taken for a word when they stand for the same number. -/
theorem toUnsigned64?_eq_some_iff {w : Word} {low : BitVec 64} :
    w.toUnsigned64? = some low ↔ low.toNat = w.toNat := by
  have hwiden : (low.setWidth 256).toNat = low.toNat := BitVec.toNat_setWidth_of_le (by decide)
  constructor
  · intro h
    rw [← hwiden, setWidth_of_toUnsigned64? h]
  · intro h
    have hlow : w.setWidth 64 = low := by
      apply BitVec.eq_of_toNat_eq
      rw [BitVec.toNat_setWidth, ← h, Nat.mod_eq_of_lt low.isLt]
    have hwhole : low.setWidth 256 = w := BitVec.eq_of_toNat_eq (hwiden.trans h)
    rw [toUnsigned64?_eq, hlow]
    exact if_pos hwhole

/-- With a sign, the low bits are taken for a word under the same condition. -/
theorem toSigned64?_eq_some_iff {w : Word} {low : BitVec 64} :
    w.toSigned64? = some low ↔ low.toInt = w.toInt := by
  have hwiden : (low.signExtend 256).toInt = low.toInt :=
    BitVec.toInt_signExtend_of_le (by decide)
  constructor
  · intro h
    rw [← hwiden, signExtend_of_toSigned64? h]
  · intro h
    have hwhole : low.signExtend 256 = w := BitVec.eq_of_toInt_eq (hwiden.trans h)
    have hlow : w.setWidth 64 = low := by
      apply BitVec.eq_of_toInt_eq
      rw [BitVec.toInt_setWidth, bmod_toNat w (by decide), ← h]
      exact low.toInt_bmod_cancel
    rw [toSigned64?_eq, hlow]
    exact if_pos hwhole

theorem toUnsigned64?_eq_none_iff {w : Word} : w.toUnsigned64? = none ↔ 2 ^ 64 ≤ w.toNat := by
  rw [← not_iff_not, Nat.not_le, ← ne_eq, Option.ne_none_iff_exists']
  simp only [toUnsigned64?_eq_some_iff]
  constructor
  · rintro ⟨low, hlow⟩
    rw [← hlow]
    exact low.isLt
  · intro h
    exact ⟨BitVec.ofNat 64 w.toNat, by rw [BitVec.toNat_ofNat, Nat.mod_eq_of_lt h]⟩

theorem toSigned64?_eq_none_iff {w : Word} :
    w.toSigned64? = none ↔ ¬ (-2 ^ 63 ≤ w.toInt ∧ w.toInt < 2 ^ 63) := by
  rw [← not_iff_not, not_not, ← ne_eq, Option.ne_none_iff_exists']
  simp only [toSigned64?_eq_some_iff]
  constructor
  · rintro ⟨low, hlow⟩
    rw [← hlow]
    exact ⟨low.le_toInt, low.toInt_lt⟩
  · intro h
    have hself := (bmod_eq_self_iff (by decide : 0 < 64)).mpr h
    exact ⟨BitVec.ofInt 64 w.toInt, by rw [BitVec.toInt_ofInt, hself]⟩

/-- Widening keeps the number. -/
theorem toInt_ofSigned128 (n : BitVec 128) : (ofSigned128 n).toInt = n.toInt := by
  rw [ofSigned128_eq, BitVec.toInt_signExtend_of_le (by decide)]

theorem ofSigned128_ofInt {z : Int} (h : -2 ^ 127 ≤ z ∧ z < 2 ^ 127) :
    ofSigned128 (BitVec.ofInt 128 z) = ofInt z := by
  have hself := (bmod_eq_self_iff (by decide : 0 < 128)).mpr h
  apply BitVec.eq_of_toInt_eq
  rw [toInt_ofSigned128, ofInt, BitVec.toInt_ofInt, BitVec.toInt_ofInt, hself,
    bmod_word_of_bmod (by decide) (by decide) hself]

end Word

end RecordCodec
