import RecordCodec.Proofs.Word.Sign

/-!
# Operations of words as arithmetic

A word stands for a number below `2 ^ 256`. What shifts, masks and cuts do to its bytes is
division, multiplication and remainder by powers of two, for amounts of any size: whole
bytes or not, nothing at all, or more bits than a word has. Widening a signed number picks
the one number of its range that has the same low bits.
-/

namespace RecordCodec

namespace Word

/-- The high part of a number is what its low part leaves. -/
theorem toNat_keepHigh_eq_sub (w : Word) (n : Nat) :
    (w.keepHigh n).toNat = w.toNat - w.toNat % 2 ^ (256 - min n 256) := by
  have hbelow : 256 - n = 256 - min n 256 := by omega
  have hparts := Nat.div_add_mod' w.toNat (2 ^ (256 - min n 256))
  rw [toNat_keepHigh, hbelow]
  omega

/-- The operations on the bytes of a word are arithmetic on its number. -/
theorem operations_are_arithmetic (w : Word) (n : Nat) :
    (w.shiftRight n).toNat = w.toNat / 2 ^ n ∧
      (w.shiftLeft n).toNat = w.toNat * 2 ^ n % 2 ^ 256 ∧
      (w.keepLow n).toNat = w.toNat % 2 ^ min n 256 ∧
      (w.keepHigh n).toNat = w.toNat - w.toNat % 2 ^ (256 - min n 256) ∧
      (∀ shift, (w.cutNumber shift n).toNat = w.toNat / 2 ^ shift % 2 ^ min n 256) ∧
      (0 < n → n ≤ 256 → ∀ z : Int, (w.extendSign n).toInt = z ↔
        -2 ^ (n - 1) ≤ z ∧ z < 2 ^ (n - 1) ∧ z % 2 ^ n = w.toNat % 2 ^ n) := by
  refine ⟨w.toNat_shiftRight n, w.toNat_shiftLeft n, w.toNat_keepLow n,
    w.toNat_keepHigh_eq_sub n, fun shift => w.toNat_cutNumber shift n, ?_⟩
  intro hpos hle z
  rw [w.toInt_extendSign hpos hle]
  exact bmod_eq_iff hpos

/-- Nineteen bits of which the low eleven begin with a sign. -/
theorem operations_on_nineteen_bits :
    (0 < 11 ∧ 11 ≤ 256) ∧ (shiftRight 0x5a5c3 11).toNat = 0xb4 ∧
      (shiftLeft 0x5a5c3 251).toNat = 3 * 2 ^ 251 ∧ (keepLow 0x5a5c3 11).toNat = 0x5c3 ∧
      (keepHigh 0x5a5c3 245).toNat = 0x5a000 ∧ (cutNumber 0x5a5c3 4 11).toNat = 0x25c ∧
      (extendSign 0x5a5c3 11).toInt = -573 := by
  obtain ⟨hright, _, hlow, _, hcut, hsign⟩ := operations_are_arithmetic 0x5a5c3 11
  obtain ⟨_, hleft, _⟩ := operations_are_arithmetic 0x5a5c3 251
  obtain ⟨_, _, _, hhigh, _⟩ := operations_are_arithmetic 0x5a5c3 245
  exact ⟨by decide, hright, hleft, hlow, hhigh, hcut 4,
    (hsign (by decide) (by decide) (-573)).mpr (by decide)⟩

end Word

end RecordCodec
