import RecordCodec.Bytes

/-!
# Slices of byte strings

A slice is a stretch of a byte string given by its start and its length. Slices
side by side join, and a slice depends only on the bytes up to its end.
-/

namespace RecordCodec

namespace Bytes

/-- The `n` bytes from `start` on, or as many of them as there are. -/
def slice (data : Bytes) (start n : Nat) : Bytes := (data.drop start).take n

@[simp] theorem slice_zero (data : Bytes) (start : Nat) : data.slice start 0 = [] := by
  simp [slice]

theorem length_slice {data : Bytes} {start n : Nat} (h : start + n ≤ data.length) :
    (data.slice start n).length = n := by
  simp only [slice, List.length_take, List.length_drop]
  omega

/-- A slice of two parts. -/
theorem slice_add (data : Bytes) (start m n : Nat) :
    data.slice start (m + n) = data.slice start m ++ data.slice (start + m) n := by
  simp only [slice, List.take_add, List.drop_drop]

/-- A slice depends only on the bytes up to its end. -/
theorem slice_congr {data other : Bytes} {start n : Nat}
    (h : data.take (start + n) = other.take (start + n)) :
    data.slice start n = other.slice start n := by
  have hdrop := congrArg (List.drop start) h
  simpa only [slice, List.drop_take, Nat.add_sub_cancel_left] using hdrop

theorem slice_of_drop_eq {data bytes rest : Bytes} {start : Nat}
    (h : data.drop start = bytes ++ rest) : data.slice start bytes.length = bytes := by
  rw [slice, h, List.take_left]

end Bytes

end RecordCodec
