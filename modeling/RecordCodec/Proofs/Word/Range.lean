import RecordCodec.Proofs.Word.Sign

/-!
# Ranges of words

A word stands for two numbers, one without and one with a sign. Whether such a number fits
some width is tested on the word alone: by clearing the bits above the width, by widening
what is left of it again, or by looking whether the bytes above 64 bits repeat a sign. All
these tests are exact comparisons with powers of two, at their limits too, and what is
narrowed or widened keeps its number.

A width of 256 bits or more holds every word. So the signed test needs no upper bound on the
width, only a place for the sign.
-/

namespace RecordCodec

namespace Word

/-- Clearing and widening change nothing from the whole word on. -/
theorem fitsSigned_of_le (w : Word) {n : Nat} (h : 256 ≤ n) : w.FitsSigned n := by
  have hlow : w.keepLow n = w := by
    rw [keepLow_eq, Nat.min_eq_right h, BitVec.setWidth_eq, BitVec.setWidth_eq]
  rw [FitsSigned, hlow, extendSign_eq_signExtend, if_pos (Or.inr h)]

/-- A word stands for a number of every signed range that is not narrower than itself. -/
theorem toInt_range (w : Word) {n : Nat} (h : 256 ≤ n) :
    -2 ^ (n - 1) ≤ w.toInt ∧ w.toInt < 2 ^ (n - 1) := by
  have hpow : (2 : Int) ^ (256 - 1) ≤ 2 ^ (n - 1) :=
    mod_cast Nat.pow_le_pow_right (by decide) (show 256 - 1 ≤ n - 1 by omega)
  have hlower : -2 ^ (256 - 1) ≤ w.toInt := w.le_toInt
  have hupper : w.toInt < 2 ^ (256 - 1) := w.toInt_lt
  omega

theorem fitsSigned_iff_of_pos {w : Word} {n : Nat} (hpos : 0 < n) :
    w.FitsSigned n ↔ -2 ^ (n - 1) ≤ w.toInt ∧ w.toInt < 2 ^ (n - 1) := by
  rcases Nat.le_total n 256 with hle | hle
  · exact fitsSigned_iff_range hpos hle
  · -- Widths beyond the word hold every word, and so do their ranges.
    exact iff_of_true (w.fitsSigned_of_le hle) (w.toInt_range hle)

/-- A number that is narrowed exactly where it fits is the same number. -/
theorem map_eq_ite {α : Type} {narrow : Option (BitVec 64)} {number : BitVec 64 → α} {value : α}
    {fits : Prop} [Decidable fits] (hsome : ∀ low, narrow = some low → number low = value)
    (hnone : narrow = none ↔ ¬ fits) :
    narrow.map number = if fits then some value else none := by
  cases narrow with
  | none => rw [if_neg (hnone.mp rfl), Option.map_none]
  | some low =>
    have hfits : fits := by
      by_contra h
      cases hnone.mpr h
    rw [if_pos hfits, Option.map_some, hsome low rfl]

theorem map_toNat_toUnsigned64? (w : Word) :
    w.toUnsigned64?.map BitVec.toNat = if w.toNat < 2 ^ 64 then some w.toNat else none :=
  map_eq_ite (fun _ => toUnsigned64?_eq_some_iff.mp)
    (toUnsigned64?_eq_none_iff.trans Nat.not_lt.symm)

theorem map_toInt_toSigned64? (w : Word) :
    w.toSigned64?.map BitVec.toInt =
      if -2 ^ 63 ≤ w.toInt ∧ w.toInt < 2 ^ 63 then some w.toInt else none :=
  map_eq_ite (fun _ => toSigned64?_eq_some_iff.mp) toSigned64?_eq_none_iff

/-- Range tests compare the number that a word stands for with the limits of the width, and
a number that is narrowed to 64 bits or widened from 128 is the same number. -/
theorem ranges_are_exact (w : Word) :
    (∀ n, w.FitsUnsigned n ↔ w.toNat < 2 ^ n) ∧
      (∀ n, 0 < n → (w.FitsSigned n ↔ -2 ^ (n - 1) ≤ w.toInt ∧ w.toInt < 2 ^ (n - 1))) ∧
      (∀ n, 256 ≤ n → w.FitsSigned n) ∧
      w.toUnsigned64?.map BitVec.toNat = (if w.toNat < 2 ^ 64 then some w.toNat else none) ∧
      w.toSigned64?.map BitVec.toInt =
        (if -2 ^ 63 ≤ w.toInt ∧ w.toInt < 2 ^ 63 then some w.toInt else none) ∧
      ∀ n : BitVec 128, (ofSigned128 n).toInt = n.toInt :=
  ⟨fun _ => fitsUnsigned_iff, fun _ hpos => fitsSigned_iff_of_pos hpos,
    fun _ hle => w.fitsSigned_of_le hle, w.map_toNat_toUnsigned64?, w.map_toInt_toSigned64?,
    toInt_ofSigned128⟩

/-- The first number below the range of signed bytes. -/
theorem ranges_of_minus_129 :
    (0 < 8 ∧ 0 < 9 ∧ 256 ≤ 300) ∧ (ofSigned128 (-129)).toInt = -129 ∧
      ¬ (ofSigned128 (-129)).FitsUnsigned 255 ∧ ¬ (ofSigned128 (-129)).FitsSigned 8 ∧
      (ofSigned128 (-129)).FitsSigned 9 ∧ (ofSigned128 (-129)).FitsSigned 300 ∧
      (ofSigned128 (-129)).toUnsigned64?.map BitVec.toNat = none ∧
      (ofSigned128 (-129)).toSigned64?.map BitVec.toInt = some (-129) := by
  obtain ⟨hunsigned, hsigned, hwide, hnatural, hinteger, hvalue⟩ :=
    ranges_are_exact (ofSigned128 (-129))
  have hint : (ofSigned128 (-129)).toInt = -129 := hvalue (-129)
  have hnat : ¬ (ofSigned128 (-129)).toNat < 2 ^ 255 := by decide
  have hlarge : ¬ (ofSigned128 (-129)).toNat < 2 ^ 64 := by decide
  rw [hint] at hinteger
  rw [if_neg hlarge] at hnatural
  refine ⟨by decide, hint, mt (hunsigned 255).mp hnat, ?_, ?_, hwide 300 (by decide), hnatural,
    hinteger⟩
  · rw [hsigned 8 (by decide), hint]
    decide
  · rw [hsigned 9 (by decide), hint]
    decide

end Word

end RecordCodec
