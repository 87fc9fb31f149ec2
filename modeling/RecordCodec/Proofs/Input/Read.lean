import RecordCodec.Program.Input
import RecordCodec.Proofs.Outcome
import RecordCodec.Proofs.Word.Alignment

/-!
# What reading the input yields

Equations for the steps of a program that look at the input. Fields of whole
bytes, headers and payloads of any length are slices of the input, taken if they
lie inside it. After that no proof about programs looks at windows again.

A read is the same in every address space that holds the end of its field. A sum
that wraps around can bring a field back into the input, and then it is read from
bytes that are not its own.
-/

namespace RecordCodec

namespace Input

open AddressSpace

/-- A window is loaded if the field in it ends inside the input. -/
theorem window_eq [AddressSpace] (data : Bytes) {cursor offset position bits : Nat}
    (h : Holds (cursor + offset + position / 8 + bits / 8)) :
    window data cursor offset position bits =
      if cursor + offset + position / 8 + bits / 8 ≤ data.length then
        .ok (Word.window data (cursor + offset))
      else .error (.outOfBounds (cursor + offset + position / 8) (bits / 8)) := by
  have hstart : Holds (cursor + offset + position / 8) := h.mono (Nat.le_add_right _ _)
  have horigin : Holds (cursor + offset) := hstart.mono (Nat.le_add_right _ _)
  dsimp only [window]
  rw [add_eq horigin, add_eq hstart, add_eq h]

/-- A number of whole bytes is read as the bytes at its place, if they are there. -/
theorem readNumber_eq (data : Bytes) (cursor offset : Nat) {shift bits : Nat} (hshift : 8 ∣ shift)
    (hbits : 8 ∣ bits) (hwindow : shift + bits ≤ 256) :
    readNumber data cursor offset shift bits =
      let start := cursor + offset + (256 - shift - bits) / 8
      if start + bits / 8 ≤ data.length then .ok (Word.rightAligned (data.slice start (bits / 8)))
      else .error (.outOfBounds start (bits / 8)) := by
  rw [readNumber, window_eq data (holds_unbounded _)]
  dsimp only
  split
  · rename_i hinput
    rw [Outcome.ok_bind, Word.cutNumber_window hshift hbits hwindow hinput]
    rfl
  · rfl

/-- A byte string is read as the bytes at its place, if they are there. -/
theorem readBytes_eq (data : Bytes) (cursor offset : Nat) {shift bits : Nat} (hshift : 8 ∣ shift)
    (hbits : 8 ∣ bits) (hwindow : shift + bits ≤ 256) :
    readBytes data cursor offset shift bits =
      let start := cursor + offset + shift / 8
      if start + bits / 8 ≤ data.length then .ok (Word.leftAligned (data.slice start (bits / 8)))
      else .error (.outOfBounds start (bits / 8)) := by
  rw [readBytes, window_eq data (holds_unbounded _)]
  dsimp only
  split
  · rename_i hinput
    rw [Outcome.ok_bind, Word.cutBytes_window hshift hbits hwindow hinput]
    rfl
  · rfl

section Field

variable {data : Bytes} {cursor offset shift bits : Nat} {word : Word} {error : ReadError}
variable (hshift : 8 ∣ shift) (hbits : 8 ∣ bits) (hwindow : shift + bits ≤ 256)

include hshift hbits hwindow

theorem readNumber_eq_ok :
    readNumber data cursor offset shift bits = .ok word ↔
      cursor + offset + (256 - shift - bits) / 8 + bits / 8 ≤ data.length ∧
        word.toNat =
          Bytes.toNat (data.slice (cursor + offset + (256 - shift - bits) / 8) (bits / 8)) := by
  rw [readNumber_eq data cursor offset hshift hbits hwindow, Outcome.check_eq_ok, and_congr_right]
  intro hinput
  have hlength := Bytes.length_slice hinput
  exact Word.eq_rightAligned_iff (by omega)

theorem readNumber_eq_error :
    readNumber data cursor offset shift bits = .error error ↔
      ¬ cursor + offset + (256 - shift - bits) / 8 + bits / 8 ≤ data.length ∧
        error = .outOfBounds (cursor + offset + (256 - shift - bits) / 8) (bits / 8) := by
  rw [readNumber_eq data cursor offset hshift hbits hwindow, Outcome.check_eq_error]

theorem readBytes_eq_ok :
    readBytes data cursor offset shift bits = .ok word ↔
      cursor + offset + shift / 8 + bits / 8 ≤ data.length ∧
        word.toBytes = data.slice (cursor + offset + shift / 8) (bits / 8) ++
          List.replicate (32 - bits / 8) 0 := by
  rw [readBytes_eq data cursor offset hshift hbits hwindow, Outcome.check_eq_ok, and_congr_right]
  intro hinput
  have hlength := Bytes.length_slice hinput
  rw [Word.eq_leftAligned_iff (by omega), hlength]

theorem readBytes_eq_error :
    readBytes data cursor offset shift bits = .error error ↔
      ¬ cursor + offset + shift / 8 + bits / 8 ≤ data.length ∧
        error = .outOfBounds (cursor + offset + shift / 8) (bits / 8) := by
  rw [readBytes_eq data cursor offset hshift hbits hwindow, Outcome.check_eq_error]

end Field

theorem le_remaining_iff {data : Bytes} {cursor n : Nat} (hcursor : cursor ≤ data.length) :
    n ≤ remaining data cursor ↔ cursor + n ≤ data.length := by
  rw [remaining]
  omega

theorem move_eq_ok {data : Bytes} {cursor n next : Nat} :
    move data cursor n = .ok next ↔ n ≤ remaining data cursor ∧ next = cursor + n := by
  unfold move
  split
  · rename_i h
    simp [h, eq_comm]
  · rename_i h
    simp [h]

/-- A move inside the input succeeds. -/
theorem move_of_le_remaining {data : Bytes} {cursor n : Nat} (h : n ≤ remaining data cursor) :
    move data cursor n = .ok (cursor + n) :=
  move_eq_ok.mpr ⟨h, rfl⟩

/-- A header is four bytes at the cursor, if they are there. -/
theorem readHeader_eq (data : Bytes) (cursor : Nat) :
    readHeader data cursor =
      if cursor + 4 ≤ data.length then .ok (Bytes.toNat (data.slice cursor 4), cursor + 4)
      else .error (.outOfBounds cursor 4) := by
  rw [readHeader, readNumber_eq data cursor 0 (by decide) (by decide) (by decide)]
  dsimp only
  split
  · rename_i hinput
    have hlength : (data.slice cursor 4).length = 4 := Bytes.length_slice hinput
    have hvalue := Word.toNat_rightAligned (Nat.le_trans (Nat.le_of_eq hlength) (by decide))
    have hmove : 4 ≤ remaining data cursor := (le_remaining_iff (by omega)).mpr hinput
    rw [Outcome.ok_bind, move_of_le_remaining hmove, Outcome.ok_bind]
    exact congrArg (fun count => Except.ok (count, cursor + 4)) hvalue
  · rfl

/-- A window holds the bytes at the cursor, as far as they are in the input. -/
theorem take_toBytes_window {data : Bytes} {cursor length : Nat} (hlength : length ≤ 32)
    (hinput : cursor + length ≤ data.length) :
    (Word.window data cursor).toBytes.take length = data.slice cursor length := by
  have hsplit := Bytes.slice_add data cursor length (32 - length)
  rw [Nat.add_sub_of_le hlength] at hsplit
  have hwindow : (data.slice cursor 32).length ≤ 32 := by
    simp only [Bytes.slice, List.length_take]
    omega
  rw [Word.window_eq, Word.toBytes_leftAligned hwindow, List.rightpad, hsplit, List.append_assoc]
  exact List.take_left' (Bytes.length_slice hinput)

section

variable [AddressSpace] {data : Bytes} {cursor offset shift bits : Nat}

theorem window_eq_unbounded {position : Nat}
    (h : Holds (cursor + offset + position / 8 + bits / 8)) :
    window data cursor offset position bits =
      @window .unbounded data cursor offset position bits :=
  (window_eq data h).trans (@window_eq .unbounded data _ _ _ _ (holds_unbounded _)).symm

theorem readNumber_eq_unbounded
    (h : Holds (cursor + offset + (256 - shift - bits) / 8 + bits / 8)) :
    readNumber data cursor offset shift bits =
      @readNumber .unbounded data cursor offset shift bits := by
  rw [readNumber, window_eq_unbounded h]
  rfl

theorem readBytes_eq_unbounded (h : Holds (cursor + offset + shift / 8 + bits / 8)) :
    readBytes data cursor offset shift bits =
      @readBytes .unbounded data cursor offset shift bits := by
  rw [readBytes, window_eq_unbounded h]
  rfl

/-- Behind what is copied already, the loop appends the bytes that are missing. -/
theorem copyFrom_eq {length : Nat} (hdata : Holds data.length)
    (hinput : cursor + length ≤ data.length) (copied : Bytes) :
    copyFrom data cursor length copied =
      copied ++ data.slice (cursor + copied.length) (length - copied.length) := by
  fun_induction copyFrom data cursor length copied with
  | case1 copied hmissing word count ih =>
    have hcount : count ≤ 32 := Nat.min_le_right _ _
    have hfits : count ≤ length - copied.length := Nat.min_le_left _ _
    have hsum : Holds (cursor + copied.length) := hdata.mono (by omega)
    have htaken : word.toBytes.take count = data.slice (cursor + copied.length) count := by
      rw [← take_toBytes_window hcount (by omega)]
      exact congrArg (fun origin => (Word.window data origin).toBytes.take count) (add_eq hsum)
    have hlength : (copied ++ word.toBytes.take count).length = copied.length + count := by
      rw [List.length_append, htaken, Bytes.length_slice (by omega)]
    have hsplit := Bytes.slice_add data (cursor + copied.length) count
      (length - copied.length - count)
    rw [Nat.add_sub_of_le hfits] at hsplit
    rw [ih, hlength, htaken, hsplit, List.append_assoc, Nat.sub_add_eq, Nat.add_assoc]
  | case2 copied hdone =>
    rw [Nat.sub_eq_zero_of_le (Nat.le_of_not_lt hdone), Bytes.slice_zero, List.append_nil]

theorem copy_eq_unbounded {length : Nat} (hdata : Holds data.length)
    (hinput : cursor + length ≤ data.length) :
    copy data cursor length = @copy .unbounded data cursor length :=
  (copyFrom_eq hdata hinput []).trans (@copyFrom_eq .unbounded _ _ _ trivial hinput []).symm

end

theorem copy_eq {data : Bytes} {cursor length : Nat} (h : cursor + length ≤ data.length) :
    copy data cursor length = data.slice cursor length :=
  copyFrom_eq (holds_unbounded _) h []

@[simp] theorem copy_zero [AddressSpace] (data : Bytes) (cursor : Nat) :
    copy data cursor 0 = [] := by
  rw [copy, copyFrom]
  rfl

/-- Reads of whole bytes are slices of the input. A number or a byte string whose end is an
address is read if all of its bytes are in the input, whatever else its window reaches over,
and it is made of these bytes alone. Copies of any length are slices too. -/
theorem reads_are_slices [AddressSpace] (data : Bytes) (cursor : Nat) :
    (∀ offset shift bits, 8 ∣ shift → 8 ∣ bits → shift + bits ≤ 256 →
      let number := cursor + offset + (256 - shift - bits) / 8
      let string := cursor + offset + shift / 8
      let size := bits / 8
      (Holds (number + size) →
        (∀ word, readNumber data cursor offset shift bits = .ok word ↔
          number + size ≤ data.length ∧ word.toNat = Bytes.toNat (data.slice number size)) ∧
        (∀ error, readNumber data cursor offset shift bits = .error error ↔
          ¬ number + size ≤ data.length ∧ error = .outOfBounds number size)) ∧
      (Holds (string + size) →
        (∀ word, readBytes data cursor offset shift bits = .ok word ↔
          string + size ≤ data.length ∧
            word.toBytes = data.slice string size ++ List.replicate (32 - size) 0) ∧
        (∀ error, readBytes data cursor offset shift bits = .error error ↔
          ¬ string + size ≤ data.length ∧ error = .outOfBounds string size))) ∧
    ∀ length, Holds data.length → cursor + length ≤ data.length →
      copy data cursor length = data.slice cursor length := by
  constructor
  · intro offset shift bits hshift hbits hwindow
    constructor
    · intro hend
      rw [readNumber_eq_unbounded hend]
      exact ⟨fun word => readNumber_eq_ok hshift hbits hwindow,
        fun error => readNumber_eq_error hshift hbits hwindow⟩
    · intro hend
      rw [readBytes_eq_unbounded hend]
      exact ⟨fun word => readBytes_eq_ok hshift hbits hwindow,
        fun error => readBytes_eq_error hshift hbits hwindow⟩
  · intro length hdata hinput
    exact copyFrom_eq hdata hinput []

/-- A window that begins inside five bytes and reaches far past their end. Two of its bytes
are read in the middle of it, and two that would begin with the last byte are not. -/
theorem reads_at_the_end :
    (8 ∣ 232 ∧ 8 ∣ 16 ∧ 232 + 16 ≤ 256 ∧ @Holds .bits64 6 ∧ 1 + 3 ≤ [1, 2, 3, 4, 5].length) ∧
      (∃ word, @readNumber .bits64 [1, 2, 3, 4, 5] 1 1 232 16 = .ok word ∧
        word.toNat = 0x0405) ∧
      @readNumber .bits64 [1, 2, 3, 4, 5] 1 2 232 16 = .error (.outOfBounds 4 2) ∧
      (∃ word, @readBytes .bits64 [1, 2, 3, 4, 5] 1 1 8 16 = .ok word ∧
        word.toBytes = [4, 5] ++ List.replicate 30 0) ∧
      @readBytes .bits64 [1, 2, 3, 4, 5] 1 2 8 16 = .error (.outOfBounds 4 2) ∧
      @copy .bits64 [1, 2, 3, 4, 5] 1 3 = [2, 3, 4] := by
  have hholds {n : Nat} (h : n < UInt64.size) : @Holds .bits64 n := holds_bits64.mpr h
  obtain ⟨hreads, hcopy⟩ := @reads_are_slices .bits64 [1, 2, 3, 4, 5] 1
  obtain ⟨hnumber, _⟩ :=
    (hreads 1 232 16 (by decide) (by decide) (by decide)).1 (hholds (by decide))
  obtain ⟨_, hnumberError⟩ :=
    (hreads 2 232 16 (by decide) (by decide) (by decide)).1 (hholds (by decide))
  obtain ⟨hbytes, _⟩ := (hreads 1 8 16 (by decide) (by decide) (by decide)).2 (hholds (by decide))
  obtain ⟨_, hbytesError⟩ :=
    (hreads 2 8 16 (by decide) (by decide) (by decide)).2 (hholds (by decide))
  refine ⟨⟨by decide, by decide, by decide, hholds (by decide), by decide⟩,
    ⟨0x0405, (hnumber _).mpr (by decide), rfl⟩, (hnumberError _).mpr (by decide), ?_,
    (hbytesError _).mpr (by decide), hcopy 3 (hholds (by decide)) (by decide)⟩
  exact ⟨Word.leftAligned [4, 5], (hbytes _).mpr (by decide), by decide⟩

/-- In an empty input, a byte at the last of the addresses of 64 bits is read as zero: its
end wraps around to the start of the input. -/
theorem readNumber_last_address :
    8 ∣ 248 ∧ 8 ∣ 8 ∧ 248 + 8 ≤ 256 ∧
      @readNumber .bits64 [] 0 (UInt64.size - 1) 248 8 = .ok 0 ∧
      ¬ 0 + (UInt64.size - 1) + (256 - 248 - 8) / 8 + 8 / 8 ≤ ([] : Bytes).length := by
  refine ⟨by decide, by decide, by decide, ?_, by decide⟩
  rfl

end Input

end RecordCodec
