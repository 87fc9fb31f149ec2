import RecordCodec.Proofs.Bytes.Slice
import RecordCodec.Proofs.Word.Arithmetic

/-!
# Bytes inside a word window

A window holds 32 bytes of the input, zero-filled past its end. A field that
occupies whole bytes of the window and lies inside the input comes out of it as
the very bytes of the input: numbers at the low end of a word, byte strings at
the high end. Zeros that stand in for missing bytes never reach a field.
-/

namespace RecordCodec

namespace Word

/-- The word whose leading bytes are given and whose other bytes are zero. -/
def leftAligned (bytes : Bytes) : Word := BitVec.ofNat 256 (Bytes.toNat (bytes.rightpad 32 0))

/-- The word of a number that is given by its bytes. -/
def rightAligned (bytes : Bytes) : Word := BitVec.ofNat 256 (Bytes.toNat bytes)

theorem window_eq (data : Bytes) (offset : Nat) :
    window data offset = leftAligned (data.slice offset 32) := rfl

theorem toNat_lt_of_length_le {bytes : Bytes} (h : bytes.length ≤ 32) :
    Bytes.toNat bytes < 2 ^ 256 :=
  calc Bytes.toNat bytes < 256 ^ bytes.length := Bytes.toNat_lt bytes
    _ ≤ 256 ^ 32 := Nat.pow_le_pow_right (by decide) h
    _ = 2 ^ 256 := by decide

theorem toNat_rightAligned {bytes : Bytes} (h : bytes.length ≤ 32) :
    (rightAligned bytes).toNat = Bytes.toNat bytes := by
  rw [rightAligned, BitVec.toNat_ofNat, Nat.mod_eq_of_lt (toNat_lt_of_length_le h)]

theorem length_rightpad {bytes : Bytes} (h : bytes.length ≤ 32) :
    (bytes.rightpad 32 0).length = 32 := by
  rw [List.length_rightpad]
  omega

theorem toNat_leftAligned {bytes : Bytes} (h : bytes.length ≤ 32) :
    (leftAligned bytes).toNat = Bytes.toNat bytes * 256 ^ (32 - bytes.length) := by
  rw [leftAligned, BitVec.toNat_ofNat,
    Nat.mod_eq_of_lt (toNat_lt_of_length_le (Nat.le_of_eq (length_rightpad h))), List.rightpad,
    Bytes.toNat_append, Bytes.toNat_replicate_zero, List.length_replicate, Nat.add_zero]

theorem toBytes_leftAligned {bytes : Bytes} (h : bytes.length ≤ 32) :
    (leftAligned bytes).toBytes = bytes.rightpad 32 0 := by
  have hlength := length_rightpad h
  rw [toBytes, leftAligned, BitVec.toNat_ofNat,
    Nat.mod_eq_of_lt (toNat_lt_of_length_le (Nat.le_of_eq hlength))]
  conv => rhs; rw [← Bytes.ofNat_toNat (bytes.rightpad 32 0), hlength]

theorem toBytes_injective {w other : Word} (h : w.toBytes = other.toBytes) : w = other := by
  apply BitVec.eq_of_toNat_eq
  rw [← toNat_toBytes w, h, toNat_toBytes]

/-- The word of a number is the only one that stands for it. -/
theorem eq_rightAligned_iff {w : Word} {bytes : Bytes} (h : bytes.length ≤ 32) :
    w = rightAligned bytes ↔ w.toNat = Bytes.toNat bytes := by
  rw [BitVec.toNat_eq, toNat_rightAligned h]

/-- The word of some leading bytes is the only one that has them and zeros behind. -/
theorem eq_leftAligned_iff {w : Word} {bytes : Bytes} (h : bytes.length ≤ 32) :
    w = leftAligned bytes ↔ w.toBytes = bytes ++ List.replicate (32 - bytes.length) 0 := by
  have hbytes : bytes.rightpad 32 0 = bytes ++ List.replicate (32 - bytes.length) 0 := rfl
  rw [← hbytes, ← toBytes_leftAligned h]
  exact ⟨congrArg toBytes, toBytes_injective⟩

/-- The leading bytes of a word come out as they were put in. -/
theorem take_toBytes_leftAligned {bytes : Bytes} (h : bytes.length ≤ 32) :
    (leftAligned bytes).toBytes.take bytes.length = bytes := by
  rw [toBytes_leftAligned h, List.rightpad, List.take_left]

/-- The bytes of a window around a field: what precedes it, the field and the rest. -/
theorem exists_window_bytes {data : Bytes} {offset before n : Nat}
    (hwindow : before + n ≤ 32) (hinput : offset + before + n ≤ data.length) :
    ∃ front back : Bytes, front.length = before ∧ back.length = 32 - before - n ∧
      (data.slice offset 32).rightpad 32 0 = front ++ data.slice (offset + before) n ++ back := by
  have hsplit : 32 = before + n + (32 - before - n) := by omega
  have hfield := Bytes.slice_add data offset (before + n) (32 - before - n)
  rw [← hsplit, Bytes.slice_add data offset before n] at hfield
  refine ⟨data.slice offset before,
    (data.slice (offset + (before + n)) (32 - before - n)).rightpad (32 - before - n) 0, ?_, ?_, ?_⟩
  · exact Bytes.length_slice (by omega)
  · rw [List.length_rightpad, Bytes.slice, List.length_take]
    omega
  · have hfront : (data.slice offset before).length = before := Bytes.length_slice (by omega)
    have hmiddle : (data.slice (offset + before) n).length = n := Bytes.length_slice (by omega)
    rw [hfield, List.rightpad, List.rightpad]
    simp only [List.length_append, hfront, hmiddle, List.append_assoc, Nat.sub_sub, Nat.add_assoc]

/-- The number that a field spells, taken out of its window arithmetically. -/
theorem toNat_window_div_mod {data : Bytes} {offset before n : Nat}
    (hwindow : before + n ≤ 32) (hinput : offset + before + n ≤ data.length) :
    (window data offset).toNat / 2 ^ (8 * (32 - before - n)) % 2 ^ (8 * n) =
      Bytes.toNat (data.slice (offset + before) n) := by
  obtain ⟨front, back, hfront, hback, hbytes⟩ := exists_window_bytes hwindow hinput
  have hfield : (data.slice (offset + before) n).length = n := Bytes.length_slice hinput
  have hlength : (front ++ data.slice (offset + before) n ++ back).length ≤ 32 := by
    simp only [List.length_append]
    omega
  have hcut := Bytes.toNat_append_div_mod front (data.slice (offset + before) n) back
  rw [hfield, hback] at hcut
  rw [window_eq, leftAligned, hbytes, BitVec.toNat_ofNat,
    Nat.mod_eq_of_lt (toNat_lt_of_length_le hlength), Nat.pow_mul, Nat.pow_mul]
  exact hcut

/-- A number of whole bytes, cut out of a window, is spelled by its bytes. -/
theorem cutNumber_window {data : Bytes} {offset shift bits : Nat} (hshift : 8 ∣ shift)
    (hbits : 8 ∣ bits) (hwindow : shift + bits ≤ 256)
    (hinput : offset + (256 - shift - bits) / 8 + bits / 8 ≤ data.length) :
    (window data offset).cutNumber shift bits =
      rightAligned (data.slice (offset + (256 - shift - bits) / 8) (bits / 8)) := by
  have hfield := Bytes.length_slice hinput
  have hvalue := toNat_window_div_mod (by omega) hinput
  have hbelow : 8 * (32 - (256 - shift - bits) / 8 - bits / 8) = shift := by omega
  apply BitVec.eq_of_toNat_eq
  rw [toNat_cutNumber, toNat_rightAligned (by omega), ← hvalue, hbelow,
    Nat.mul_div_cancel' hbits, Nat.min_eq_left (by omega)]

/-- A byte string, cut out of a window, is its bytes followed by zeros. -/
theorem cutBytes_window {data : Bytes} {offset shift bits : Nat} (hshift : 8 ∣ shift)
    (hbits : 8 ∣ bits) (hwindow : shift + bits ≤ 256)
    (hinput : offset + shift / 8 + bits / 8 ≤ data.length) :
    (window data offset).cutBytes shift bits =
      leftAligned (data.slice (offset + shift / 8) (bits / 8)) := by
  have hfield := Bytes.length_slice hinput
  have hvalue := toNat_window_div_mod (by omega) hinput
  have hbelow : 8 * (32 - shift / 8 - bits / 8) = 256 - shift - bits := by omega
  have hlow : 256 - bits = 8 * (32 - bits / 8) := by omega
  apply BitVec.eq_of_toNat_eq
  rw [toNat_cutBytes_of_le _ hwindow, toNat_leftAligned (by omega), hfield, ← hvalue, hbelow,
    Nat.mul_div_cancel' hbits, hlow, Nat.pow_mul 2 8]

end Word

end RecordCodec
