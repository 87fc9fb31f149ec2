import Mathlib.Data.List.Basic
import RecordCodec.Text.Numeral

/-!
# Numerals and their numbers

Reading a numeral and writing a number undo each other: a text is read as a number if and
only if it is what is written for that number. In particular no number has two numerals.
-/

namespace RecordCodec

namespace Numeral

theorem value_render (n : Nat) : value (render n) = n := by
  rw [value, ← Nat.ofDigitChars_eq_foldl]
  exact Nat.ofDigitChars_ten_toDigits

theorem isDigit_of_mem_render {n : Nat} {c : Char} (h : c ∈ render n) : c.isDigit :=
  Nat.isDigit_of_mem_toDigits (by decide) (by decide) h

theorem render_ne_nil (n : Nat) : render n ≠ [] := Nat.toDigits_ne_nil

theorem head?_render_ne_zero {n : Nat} (h : 0 < n) : (render n).head? ≠ some '0' := by
  induction n using Nat.strongRecOn with
  | ind n ih =>
    by_cases hsmall : n < 10
    · rw [render, Nat.toDigits_of_lt_base hsmall]
      simpa using Nat.ne_of_gt h
    · have hrender : render n = render (n / 10) ++ [(n % 10).digitChar] :=
        Nat.toDigits_of_base_le (by decide) (by omega)
      rw [hrender, List.head?_append_of_ne_nil _ (render_ne_nil _)]
      exact ih (n / 10) (by omega) (by omega)

theorem lt_ten_of_isDigit {c : Char} (h : c.isDigit) : c.toNat - '0'.toNat < 10 := by
  have hlast : c.toNat ≤ 57 := (Char.isDigit_iff_toNat.mp h).2
  have hzero : '0'.toNat = 48 := rfl
  omega

theorem render_digit {c : Char} (h : c.isDigit) : render (c.toNat - '0'.toNat) = [c] := by
  have hsmall := lt_ten_of_isDigit h
  have hchar : (c.toNat - '0'.toNat).digitChar = c := by
    have hfirst : 48 ≤ c.toNat := (Char.isDigit_iff_toNat.mp h).1
    have hzero : '0'.toNat = 48 := rfl
    apply Char.toNat_inj.mp
    rw [Nat.toNat_digitChar_of_lt_ten hsmall]
    omega
  rw [render, Nat.toDigits_of_lt_base hsmall, hchar]

/-- Digits behind the numeral of a positive number write the number read on with them. -/
theorem render_foldl {digits : List Char} (hdigits : ∀ c ∈ digits, c.isDigit) {n : Nat}
    (hn : 0 < n) :
    render (digits.foldl (fun n c => 10 * n + (c.toNat - '0'.toNat)) n) = render n ++ digits := by
  induction digits generalizing n with
  | nil => simp
  | cons c digits ih =>
    obtain ⟨hc, hdigits⟩ := List.forall_mem_cons.mp hdigits
    have hjoin : render n ++ render (c.toNat - '0'.toNat) =
        render (10 * n + (c.toNat - '0'.toNat)) :=
      Nat.toDigits_append_toDigits (by decide) hn (lt_ten_of_isDigit hc)
    rw [List.foldl_cons, ih hdigits (by omega), ← hjoin, render_digit hc, List.append_assoc]
    rfl

theorem render_value {c : Char} {digits : List Char} (hc : c ≠ '0')
    (hdigits : ∀ d ∈ c :: digits, d.isDigit) : render (value (c :: digits)) = c :: digits := by
  obtain ⟨hfirst, hrest⟩ := List.forall_mem_cons.mp hdigits
  have hpos : 0 < c.toNat - '0'.toNat := by
    have hrange : 48 ≤ c.toNat := (Char.isDigit_iff_toNat.mp hfirst).1
    have hzero : '0'.toNat = 48 := rfl
    have hne : c.toNat ≠ '0'.toNat := fun h => hc (Char.toNat_inj.mp h)
    omega
  rw [value, List.foldl_cons, Nat.mul_zero, Nat.zero_add, render_foldl hrest hpos,
    render_digit hfirst]
  rfl

theorem parse?_cons {c : Char} (hc : c ≠ '0') (digits : List Char) :
    parse? (c :: digits) =
      if (c :: digits).all Char.isDigit then some (value (c :: digits)) else none := by
  rw [parse?] <;> simp [hc]

theorem parse?_render (n : Nat) : parse? (render n) = some n := by
  rcases Nat.eq_zero_or_pos n with rfl | hpos
  · rfl
  · obtain ⟨c, digits, hrender⟩ := List.exists_cons_of_ne_nil (render_ne_nil n)
    have hc : c ≠ '0' := by
      have hhead := head?_render_ne_zero hpos
      simpa [hrender] using hhead
    have hdigits : (c :: digits).all Char.isDigit := by
      rw [← hrender]
      exact List.all_eq_true.mpr fun _ => isDigit_of_mem_render
    rw [hrender, parse?_cons hc, if_pos hdigits, ← hrender, value_render]

theorem eq_render_of_parse? {text : List Char} {n : Nat} (h : parse? text = some n) :
    text = render n := by
  unfold parse? at h
  split at h
  · cases h
  · cases h
    rfl
  · cases h
  · rename_i hempty hzero hleading
    split at h
    · rename_i hdigits
      cases h
      obtain ⟨c, digits, rfl⟩ := List.exists_cons_of_ne_nil hempty
      have hc : c ≠ '0' := by
        rintro rfl
        exact hleading digits rfl
      exact (render_value hc (List.all_eq_true.mp hdigits)).symm
    · cases h

/-- A number is read from its numeral and from no other text. -/
theorem parse?_eq_some_iff {text : List Char} {n : Nat} :
    parse? text = some n ↔ text = render n := by
  constructor
  · exact eq_render_of_parse?
  · rintro rfl
    exact parse?_render n

end Numeral

end RecordCodec
