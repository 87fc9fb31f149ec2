import RecordCodec.Program.Compilation
import RecordCodec.Proofs.Input.Read
import RecordCodec.Proofs.Reading.Field

/-!
# Windows of a run

While a scope is compiled, its window starts at a whole byte of the run and whole
bytes of it are taken. Under this invariant a leaf that fits the window is read as
the bytes at which its run has arrived, so the cursor and the pending run together
tell the place of a leaf. Where a number is read does not depend on how its
position was assigned, as long as it lies inside a word.
-/

namespace RecordCodec

namespace Input

theorem readHeader_eq_count (data : Bytes) (cursor : Nat) :
    readHeader data cursor = count data cursor := by
  rw [readHeader_eq, count, take]
  split
  · rename_i h
    rw [takeOr_of_le h]
    rfl
  · rename_i h
    rw [takeOr_of_not_le h]
    rfl

theorem le_of_count_eq_ok {data : Bytes} {cursor n next : Nat}
    (h : count data cursor = .ok (n, next)) : next ≤ data.length := by
  obtain ⟨⟨header, last⟩, hheader, h⟩ := Outcome.bind_eq_ok.mp h
  obtain ⟨hinput, _, rfl⟩ := takeOr_eq_ok.mp hheader
  cases h
  exact hinput

end Input

namespace Primitive

theorem value_rightAligned {type : Primitive} (htype : type.WellFormed) {field : Bytes}
    (hlength : field.length = type.bitSize / 8) :
    type.value (.rightAligned field) = type.ofBytes field := by
  obtain ⟨hpos, hbits, hle⟩ := htype
  cases type with
  | uint bits => rfl
  | int bits => exact congrArg Value.int (Word.extendSign_rightAligned hbits hle hpos hlength)
  | bool =>
    obtain ⟨byte, rfl⟩ := List.length_eq_one_iff.mp hlength
    have hword : Word.rightAligned [byte] = 0 ↔ byte = 0 := by
      rw [BitVec.toNat_eq, Word.toNat_rightAligned (by simp), ← UInt8.toNat_inj]
      simp
    change Value.bool (Word.rightAligned [byte] != 0) = Value.bool ([byte].any (· != 0))
    congr 1
    rw [Bool.eq_iff_iff, bne_iff_ne, Ne, hword]
    simp
  | address =>
    have hbytes : field.length = 20 := hlength
    change Value.address _ = Value.address _
    congr 1
    apply BitVec.eq_of_toNat_eq
    rw [BitVec.toNat_setWidth, Word.toNat_rightAligned (by omega), BitVec.toNat_ofNat]
  | fixedPoint signed bits decimals =>
    cases signed with
    | false => rfl
    | true => exact congrArg Value.int (Word.extendSign_rightAligned hbits hle hpos hlength)

end Primitive

namespace Layout.Window

/-- The window starts at a byte of the run and whole bytes of it are taken. -/
structure Sound (window : Layout.Window) : Prop where
  run : 8 * window.start + window.taken = window.runBits
  whole : 8 ∣ window.taken
  le : window.taken ≤ 256

@[simp] theorem runBytes_empty : runBytes {} = 0 := rfl

@[simp] theorem runBits_take (window : Layout.Window) (bits : Nat) :
    (window.take bits).runBits = window.runBits + bits := rfl

@[simp] theorem runBits_forNumber (window : Layout.Window) (shift : Option Int) (bits : Nat) :
    (window.forNumber shift bits).runBits = window.runBits := by
  unfold forNumber
  dsimp only
  split <;> rfl

@[simp] theorem runBits_forBytes (window : Layout.Window) (bits : Nat) :
    (window.forBytes bits).runBits = window.runBits := by
  unfold forBytes
  split <;> rfl

/-- The bits of a window are far from where their count wraps around. -/
theorem taken_take [AddressSpace] {window : Layout.Window} {bits : Nat}
    (h : window.taken + bits ≤ 256) : (window.take bits).taken = window.taken + bits :=
  Nat.mod_eq_of_lt (Nat.lt_of_le_of_lt h (by decide))

theorem fits_eq_true {window : Layout.Window} {bits : Nat}
    (h : window.taken + bits < countSize) :
    window.fits bits = true ↔ window.taken + bits ≤ 256 := by
  rw [fits, Nat.mod_eq_of_lt h, decide_eq_true_iff]

theorem take_eq_unbounded [AddressSpace] {window : Layout.Window} {bits : Nat}
    (h : AddressSpace.Holds (window.runBits + bits)) :
    window.take bits = @take .unbounded window bits := by
  rw [take, AddressSpace.add_eq h]
  rfl

namespace Sound

theorem empty : Sound {} := ⟨rfl, by decide, by decide⟩

variable {window : Layout.Window} {bits : Nat}

theorem runBytes_eq (h : window.Sound) : window.runBytes = window.start + window.taken / 8 := by
  have hrun := h.run
  have hwhole := h.whole
  unfold runBytes
  omega

theorem reopen (h : window.Sound) : window.reopen.Sound := by
  have hrun := h.run
  have hwhole := h.whole
  refine ⟨?_, ?_, ?_⟩
  · change 8 * (window.start + window.taken / 8) + 0 = window.runBits
    omega
  · exact Nat.dvd_zero 8
  · exact Nat.zero_le 256

/-- A window starts inside its run. -/
theorem reopen_eq_unbounded [AddressSpace] (h : window.Sound)
    (hrun : AddressSpace.Holds window.runBits) :
    window.reopen = @Layout.Window.reopen .unbounded window := by
  have hlength := h.run
  rw [Layout.Window.reopen, AddressSpace.add_eq (hrun.mono (by omega))]
  rfl

theorem take (h : window.Sound) (hbits : 8 ∣ bits) (hfit : window.taken + bits ≤ 256) :
    (window.take bits).Sound := by
  have hrun := h.run
  have htaken := taken_take hfit
  refine ⟨?_, ?_, ?_⟩
  · change 8 * window.start + (window.take bits).taken = window.runBits + bits
    omega
  · rw [htaken]
    exact Nat.dvd_add h.whole hbits
  · rw [htaken]
    exact hfit

theorem runBytes_take (h : window.Sound) (hbits : 8 ∣ bits) :
    (window.take bits).runBytes = window.runBytes + bits / 8 := by
  have hrun := h.run
  have hwhole := h.whole
  unfold runBytes
  rw [runBits_take]
  omega

/-- A number is read in a window that has room for it, whatever its position. -/
theorem forNumber (h : window.Sound) {shift : Option Int} (hbits : bits ≤ 256)
    (hshift : ∀ s, shift = some s → 0 ≤ s) :
    (window.forNumber shift bits).Sound ∧
      (window.forNumber shift bits).runBytes = window.runBytes ∧
      (window.forNumber shift bits).taken + bits ≤ 256 := by
  unfold Layout.Window.forNumber
  dsimp only
  split
  · rename_i hposition
    refine ⟨h, rfl, ?_⟩
    cases shift with
    | none =>
      change 0 = window.taken at hposition
      omega
    | some s =>
      have hs := hshift s rfl
      change Word.bitsAbove s bits = window.taken at hposition
      unfold Word.bitsAbove at hposition
      omega
  · exact ⟨h.reopen, rfl, by change 0 + bits ≤ 256; omega⟩

/-- No leaf is so wide that its bits are counted past the end of the count. -/
theorem fits_eq_true (h : window.Sound) (hbits : bits ≤ 256) :
    window.fits bits = true ↔ window.taken + bits ≤ 256 := by
  have hle := h.le
  exact Layout.Window.fits_eq_true (by unfold countSize; omega)

theorem forBytes (h : window.Sound) (hbits : bits ≤ 256) :
    (window.forBytes bits).Sound ∧ (window.forBytes bits).runBytes = window.runBytes ∧
      (window.forBytes bits).taken + bits ≤ 256 := by
  unfold Layout.Window.forBytes
  split
  · rename_i hfit
    exact ⟨h, rfl, (h.fits_eq_true hbits).mp hfit⟩
  · exact ⟨h.reopen, rfl, by change 0 + bits ≤ 256; omega⟩

/-- Behind the bits taken, a number is read as the bytes where its run ends. -/
theorem readNumber_eq (h : window.Sound) (data : Bytes) (cursor : Nat) (hbits : 8 ∣ bits)
    (hfit : window.taken + bits ≤ 256) :
    Input.readNumber data cursor window.start (256 - window.taken - bits) bits = do
      let (field, _) ← Input.take data (cursor + window.runBytes) (bits / 8)
      return .rightAligned field := by
  have hwhole := h.whole
  have hstart : cursor + window.start + (256 - (256 - window.taken - bits) - bits) / 8 =
      cursor + window.runBytes := by
    rw [h.runBytes_eq]
    omega
  rw [Input.readNumber_eq data cursor window.start (by omega) hbits (by omega), hstart, Input.take]
  dsimp only
  split
  · rename_i hinput
    rw [Input.takeOr_of_le hinput]
    rfl
  · rename_i hinput
    rw [Input.takeOr_of_not_le hinput]
    rfl

/-- Behind the bits taken, a byte string is read as the bytes where its run ends. -/
theorem readBytes_eq (h : window.Sound) (data : Bytes) (cursor : Nat) (hbits : 8 ∣ bits)
    (hfit : window.taken + bits ≤ 256) :
    Input.readBytes data cursor window.start window.taken bits = do
      let (field, _) ← Input.take data (cursor + window.runBytes) (bits / 8)
      return .leftAligned field := by
  have hstart : cursor + window.start + window.taken / 8 = cursor + window.runBytes := by
    rw [h.runBytes_eq]
    omega
  rw [Input.readBytes_eq data cursor window.start h.whole hbits hfit, hstart, Input.take]
  dsimp only
  split
  · rename_i hinput
    rw [Input.takeOr_of_le hinput]
    rfl
  · rename_i hinput
    rw [Input.takeOr_of_not_le hinput]
    rfl

end Sound

end Layout.Window

end RecordCodec
