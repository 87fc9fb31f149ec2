/-!
# Address spaces

Cursors, offsets and the lengths of runs are addresses. In an address space with a last
address their sums wrap around behind it. Where no space is named, the one without an
end is meant, in which sums are those of numbers. A sum that is an address of the space
is the same in both.
-/

namespace RecordCodec

/-- The last address, if there is one. -/
class AddressSpace where
  last? : Option Nat

namespace AddressSpace

/-- Addresses without an end. -/
instance (priority := low) unbounded : AddressSpace := ⟨none⟩

/-- Addresses of 64 bits. -/
@[reducible] def bits64 : AddressSpace := ⟨some (UInt64.size - 1)⟩

section

variable [AddressSpace]

/-- The sum of two addresses. -/
def add (m n : Nat) : Nat :=
  match last? with
  | none => m + n
  | some last => (m + n) % (last + 1)

/-- The number is an address. -/
def Holds (n : Nat) : Prop :=
  match last? with
  | none => True
  | some last => n ≤ last

instance (n : Nat) : Decidable (Holds n) :=
  match h : (last? : Option Nat) with
  | none => isTrue (by rw [Holds, h]; trivial)
  | some last => decidable_of_iff (n ≤ last) (by rw [Holds, h])

theorem holds_zero : Holds 0 := by
  unfold Holds
  split
  · trivial
  · exact Nat.zero_le _

theorem Holds.mono {m n : Nat} (h : Holds n) (hle : m ≤ n) : Holds m := by
  unfold Holds at *
  split
  · trivial
  · rename_i last hlast
    rw [hlast] at h
    exact Nat.le_trans hle h

theorem add_eq {m n : Nat} (h : Holds (m + n)) : add m n = m + n := by
  unfold Holds at h
  unfold add
  split
  · rfl
  · rename_i last hlast
    rw [hlast] at h
    exact Nat.mod_eq_of_lt (Nat.lt_succ_of_le h)

end

@[simp] theorem add_unbounded (m n : Nat) : add m n = m + n := rfl

theorem add_bits64 (m n : Nat) : @add bits64 m n = (m + n) % UInt64.size := rfl

theorem holds_unbounded (n : Nat) : Holds n := trivial

theorem holds_bits64 {n : Nat} : @Holds bits64 n ↔ n < UInt64.size :=
  Nat.le_sub_one_iff_lt (by decide : 0 < UInt64.size)

end AddressSpace

end RecordCodec
