import Mathlib.Tactic.Ring
import RecordCodec.Bytes

/-!
# Numbers and their bytes

Writing a number in a width and reading it back keeps the number up to the width,
and reading a byte string and writing it back keeps the bytes. The number that a
byte string spells is composed from those of its parts.
-/

namespace RecordCodec

namespace Bytes

@[simp] theorem toNat_nil : toNat [] = 0 := rfl

/-- Bytes read after a number shift it by their width. -/
theorem foldl_eq (n : Nat) (bs : Bytes) :
    bs.foldl (fun n b => n * 256 + b.toNat) n = n * 256 ^ bs.length + toNat bs := by
  induction bs generalizing n with
  | nil => simp
  | cons b bs ih =>
    have hhead : toNat (b :: bs) = b.toNat * 256 ^ bs.length + toNat bs := by
      rw [toNat, List.foldl_cons, ih]
      ring
    rw [List.foldl_cons, ih, hhead, List.length_cons]
    ring

@[simp] theorem toNat_cons (b : UInt8) (bs : Bytes) :
    toNat (b :: bs) = b.toNat * 256 ^ bs.length + toNat bs := by
  rw [toNat, List.foldl_cons, foldl_eq, Nat.zero_mul, Nat.zero_add]

@[simp] theorem ofNat_zero (n : Nat) : ofNat 0 n = [] := rfl

/-- The first byte of a number is what its other bytes leave. -/
@[simp] theorem ofNat_succ (width n : Nat) :
    ofNat (width + 1) n = UInt8.ofNat (n / 256 ^ width) :: ofNat width n := by
  induction width generalizing n with
  | zero => simp [ofNat]
  | succ width ih =>
    rw [ofNat, ih, List.cons_append, Nat.div_div_eq_div_mul, ← Nat.pow_succ']
    rfl

theorem toNat_ofNat (width n : Nat) : toNat (ofNat width n) = n % 256 ^ width := by
  induction width with
  | zero => simp [Nat.mod_one]
  | succ width ih =>
    rw [ofNat_succ, toNat_cons, ih, length_ofNat, UInt8.toNat_ofNat', Nat.mul_comm, Nat.add_comm,
      Nat.pow_succ 256, Nat.mod_mul]

@[simp] theorem length_negate (bs : Bytes) : (negate bs).1.length = bs.length := by
  induction bs with
  | nil => rfl
  | cons b bs ih => exact congrArg (· + 1) ih

/-- A sum of a byte and a carry is its low byte and the next carry. -/
theorem toNat_ofNat_add_carry {sum : Nat} (h : sum ≤ 256) :
    (UInt8.ofNat sum).toNat + 256 * (decide (256 ≤ sum)).toNat = sum := by
  rw [UInt8.toNat_ofNat']
  by_cases hcarry : 256 ≤ sum
  · obtain rfl : sum = 256 := by omega
    rfl
  · rw [decide_eq_false hcarry, Bool.toNat_false]
    omega

/-- A number, its negation and the carry that is left over make up the first power of 256
that is too wide for them. -/
theorem toNat_negate (bs : Bytes) :
    toNat (negate bs).1 + (negate bs).2.toNat * 256 ^ bs.length + toNat bs = 256 ^ bs.length := by
  induction bs with
  | nil => rfl
  | cons b bs ih =>
    obtain ⟨sum, hsum⟩ : ∃ sum, sum = (~~~b).toNat + (negate bs).2.toNat := ⟨_, rfl⟩
    have hnegate : negate (b :: bs) = (UInt8.ofNat sum :: (negate bs).1, decide (256 ≤ sum)) := by
      rw [hsum]
      rfl
    have hcarry := (negate bs).2.toNat_lt
    have hbyte : (~~~b).toNat + b.toNat = 255 := by
      have hb := b.toNat_lt
      rw [UInt8.toNat_not]
      change 256 - 1 - b.toNat + b.toNat = 255
      omega
    have hdigit := @toNat_ofNat_add_carry sum (by omega)
    rw [hnegate, toNat_cons, toNat_cons, length_negate, List.length_cons, Nat.pow_succ]
    calc (UInt8.ofNat sum).toNat * 256 ^ bs.length + toNat (negate bs).1 +
          (decide (256 ≤ sum)).toNat * (256 ^ bs.length * 256) +
          (b.toNat * 256 ^ bs.length + toNat bs)
        = ((UInt8.ofNat sum).toNat + 256 * (decide (256 ≤ sum)).toNat + b.toNat) *
            256 ^ bs.length + toNat (negate bs).1 + toNat bs := by ring
      _ = (255 + (negate bs).2.toNat) * 256 ^ bs.length + toNat (negate bs).1 + toNat bs := by
        rw [hdigit]
        congr 3
        omega
      _ = 255 * 256 ^ bs.length +
            (toNat (negate bs).1 + (negate bs).2.toNat * 256 ^ bs.length + toNat bs) := by ring
      _ = 256 ^ bs.length * 256 := by
        rw [ih]
        ring

theorem toNat_lt (bs : Bytes) : toNat bs < 256 ^ bs.length := by
  induction bs with
  | nil => simp
  | cons b bs ih =>
    have hb : b.toNat + 1 ≤ 256 := b.toNat_lt
    have hmul := Nat.mul_le_mul_right (256 ^ bs.length) hb
    rw [toNat_cons, List.length_cons, Nat.pow_succ, Nat.mul_comm (256 ^ bs.length)]
    rw [Nat.add_mul, Nat.one_mul] at hmul
    omega

theorem ofNat_add_mul (width n k : Nat) : ofNat width (k * 256 ^ width + n) = ofNat width n := by
  induction width generalizing k with
  | zero => rfl
  | succ width ih =>
    have hpow : k * 256 ^ (width + 1) = (k * 256) * 256 ^ width := by
      rw [Nat.pow_succ, Nat.mul_assoc, Nat.mul_comm 256]
    rw [hpow, ofNat_succ, ofNat_succ, ih, Nat.add_comm,
      Nat.add_mul_div_right _ _ (Nat.pow_pos (by decide))]
    congr 1
    apply UInt8.toNat_inj.mp
    simp [UInt8.toNat_ofNat']

/-- Only the low bytes of a number are written. -/
theorem ofNat_mod (width n : Nat) : ofNat width (n % 256 ^ width) = ofNat width n := by
  conv => rhs; rw [← Nat.div_add_mod' n (256 ^ width), ofNat_add_mul]

theorem ofNat_toNat (bs : Bytes) : ofNat bs.length (toNat bs) = bs := by
  induction bs with
  | nil => rfl
  | cons b bs ih =>
    rw [List.length_cons, ofNat_succ, toNat_cons, ofNat_add_mul, ih, Nat.add_comm,
      Nat.add_mul_div_right _ _ (Nat.pow_pos (by decide)), Nat.div_eq_of_lt (toNat_lt bs)]
    simp

theorem toNat_append (front back : Bytes) :
    toNat (front ++ back) = toNat front * 256 ^ back.length + toNat back := by
  induction front with
  | nil => simp
  | cons b front ih =>
    rw [List.cons_append, toNat_cons, toNat_cons, ih, List.length_append, Nat.pow_add]
    ring

theorem toNat_replicate_zero (n : Nat) : toNat (List.replicate n 0) = 0 := by
  induction n with
  | zero => rfl
  | succ n ih => simp [List.replicate_succ, ih]

/-- The number in the middle of a byte string, taken out arithmetically. -/
theorem toNat_append_div_mod (front middle back : Bytes) :
    toNat (front ++ middle ++ back) / 256 ^ back.length % 256 ^ middle.length = toNat middle := by
  rw [toNat_append, Nat.add_comm, Nat.add_mul_div_right _ _ (Nat.pow_pos (by decide)),
    Nat.div_eq_of_lt (toNat_lt back), Nat.zero_add, toNat_append, Nat.add_comm,
    Nat.add_mul_mod_self_right, Nat.mod_eq_of_lt (toNat_lt middle)]

end Bytes

end RecordCodec
