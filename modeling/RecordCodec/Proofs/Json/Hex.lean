import RecordCodec.Json.Conversion
import RecordCodec.Proofs.Word.Arithmetic
import RecordCodec.Proofs.Word.Sign

/-!
# Numbers in hexadecimal

The number that hexadecimal digits spell, without bound on their count. Text behind the
mark `0x` is read as this number when at most 64 digits are given, whether their count
is even or odd, and refused when there are more. The digits of a word spell the word.
-/

namespace RecordCodec

namespace Hex

/-- Only digits, of either case. -/
def IsDigits (text : List Char) : Prop := ∀ c ∈ text, (value? c).isSome

/-- The number that digits spell in base 16, most significant digit first. -/
def number : List Char → Nat
  | [] => 0
  | c :: digits => (value? c).getD 0 * 16 ^ digits.length + number digits

/-- Digits come from three ranges of characters. -/
theorem value?_eq_some {c : Char} {n : Nat} (h : value? c = some n) :
    (48 ≤ c.toNat ∧ c.toNat ≤ 57 ∧ n = c.toNat - 48) ∨
      (97 ≤ c.toNat ∧ c.toNat ≤ 102 ∧ n = c.toNat - 97 + 10) ∨
      (65 ≤ c.toNat ∧ c.toNat ≤ 70 ∧ n = c.toNat - 65 + 10) := by
  unfold value? at h
  split at h
  · rename_i hrange
    exact .inl ⟨hrange.1, hrange.2, (Option.some.inj h).symm⟩
  · split at h
    · rename_i hrange
      exact .inr (.inl ⟨hrange.1, hrange.2, (Option.some.inj h).symm⟩)
    · split at h
      · rename_i hrange
        exact .inr (.inr ⟨hrange.1, hrange.2, (Option.some.inj h).symm⟩)
      · cases h

theorem value?_lt {c : Char} {n : Nat} (h : value? c = some n) : n < 16 := by
  have hrange := value?_eq_some h
  omega

/-- The count of digits bounds the number. -/
theorem number_lt (digits : List Char) : number digits < 16 ^ digits.length := by
  induction digits with
  | nil => decide
  | cons c digits ih =>
    have hdigit : (value? c).getD 0 ≤ 15 := by
      cases hvalue : value? c with
      | none => exact Nat.zero_le 15
      | some n => exact Nat.le_of_lt_succ (value?_lt hvalue)
    have hmul := Nat.mul_le_mul_right (16 ^ digits.length) hdigit
    rw [number, List.length_cons, Nat.pow_succ]
    omega

/-- A pair of digits is the byte that they spell; a plus sign is no digit. -/
theorem pair?_of_values {high low : Char} {h l : Nat} (hhigh : value? high = some h)
    (hlow : value? low = some l) : pair? high low = some (UInt8.ofNat (16 * h + l)) := by
  have hplus : high ≠ '+' := by
    rintro rfl
    cases hhigh
  rw [pair?, if_neg hplus, hhigh, hlow]
  rfl

/-- An even number of digits is read as bytes that spell the same number. -/
theorem decode?_of_isDigits : {text : List Char} → IsDigits text → text.length % 2 = 0 →
    ∃ bytes, decode? text = some bytes ∧ 2 * bytes.length = text.length ∧
      Bytes.toNat bytes = number text
  | [], _, _ => ⟨[], rfl, rfl, rfl⟩
  | [_], _, heven => by cases heven
  | high :: low :: rest, hdigits, heven => by
    obtain ⟨h, hhigh⟩ := Option.isSome_iff_exists.mp (hdigits high (by simp))
    obtain ⟨l, hlow⟩ := Option.isSome_iff_exists.mp (hdigits low (by simp))
    have hrest : IsDigits rest := fun c hmem => hdigits c (by simp [hmem])
    obtain ⟨bytes, hbytes, hlength, hnumber⟩ := decode?_of_isDigits hrest (by
      simp only [List.length_cons] at heven
      omega)
    have hh := value?_lt hhigh
    have hl := value?_lt hlow
    refine ⟨UInt8.ofNat (16 * h + l) :: bytes, ?_, ?_, ?_⟩
    · simp [decode?, pair?_of_values hhigh hlow, hbytes]
    · simp only [List.length_cons]
      omega
    · have hbyte : (UInt8.ofNat (16 * h + l)).toNat = 16 * h + l := by
        rw [UInt8.toNat_ofNat', Nat.mod_eq_of_lt (by omega)]
      have hpow : (256 : Nat) ^ bytes.length = 16 ^ rest.length := by
        rw [← hlength, Nat.pow_mul]
      rw [Bytes.toNat_cons, hbyte, hnumber, hpow, number, number, hhigh, hlow]
      simp only [Option.getD_some, List.length_cons]
      ring

theorem isDigits_encode (bytes : Bytes) : IsDigits (encode bytes) := by
  induction bytes with
  | nil => simp [IsDigits]
  | cons b bytes ih =>
    have hb : b.toNat < 256 := b.toNat_lt
    intro c hmem
    rw [encode_cons] at hmem
    rcases List.mem_cons.mp hmem with rfl | hmem
    · rw [value?_digit _ (by omega)]
      rfl
    · rcases List.mem_cons.mp hmem with rfl | hmem
      · rw [value?_digit _ (by omega)]
        rfl
      · exact ih c hmem

theorem length_encode (bytes : Bytes) : (encode bytes).length = 2 * bytes.length := by
  induction bytes with
  | nil => rfl
  | cons b bytes ih =>
    rw [encode_cons]
    simp only [List.length_cons, ih]
    omega

theorem number_encode (bytes : Bytes) : number (encode bytes) = Bytes.toNat bytes := by
  have heven : (encode bytes).length % 2 = 0 := by
    rw [length_encode]
    omega
  obtain ⟨decoded, hdecoded, _, hnumber⟩ := decode?_of_isDigits (isDigits_encode bytes) heven
  rw [decode?_encode] at hdecoded
  cases hdecoded
  exact hnumber.symm

theorem number_cons_zero (digits : List Char) : number ('0' :: digits) = number digits := by
  rw [number]
  exact (congrArg (· + number digits) (Nat.zero_mul _)).trans (Nat.zero_add _)

/-- Leading zeros do not count. -/
theorem number_dropWhile_zero (digits : List Char) :
    number (digits.dropWhile (· == '0')) = number digits := by
  induction digits with
  | nil => rfl
  | cons c digits ih =>
    rw [List.dropWhile_cons]
    split
    · rename_i hzero
      rw [ih, eq_of_beq hzero, number_cons_zero]
    · rfl

end Hex

namespace Word

theorem hexDigits_eq (w : Word) : w.hexDigits = ['0'] ∨
    w.hexDigits = (Hex.encode w.toBytes).dropWhile (· == '0') := by
  unfold hexDigits
  split
  · exact .inl rfl
  · exact .inr rfl

theorem isDigits_hexDigits (w : Word) : Hex.IsDigits w.hexDigits := by
  rcases hexDigits_eq w with hzero | htrimmed
  · rw [hzero]
    intro c hmem
    rw [List.mem_singleton.mp hmem]
    rfl
  · rw [htrimmed]
    intro c hmem
    exact Hex.isDigits_encode w.toBytes c ((List.dropWhile_sublist _).mem hmem)

theorem length_hexDigits_le (w : Word) : w.hexDigits.length ≤ 64 := by
  rcases hexDigits_eq w with hzero | htrimmed
  · rw [hzero]
    decide
  · have hall : (Hex.encode w.toBytes).length = 64 := by
      rw [Hex.length_encode, length_toBytes]
    rw [htrimmed, ← hall]
    exact (List.dropWhile_sublist _).length_le

theorem number_hexDigits (w : Word) : Hex.number w.hexDigits = w.toNat := by
  have htrimmed := Hex.number_dropWhile_zero (Hex.encode w.toBytes)
  rw [Hex.number_encode, toNat_toBytes] at htrimmed
  unfold hexDigits
  split
  · rename_i hzero
    rw [hzero] at htrimmed
    exact htrimmed
  · exact htrimmed

end Word

namespace Json

/-- A zero in front makes the count of digits even. -/
theorem decode?_padded {digits : List Char} (h : Hex.IsDigits digits) :
    ∃ bytes, Hex.decode? (if digits.length % 2 = 1 then '0' :: digits else digits) = some bytes ∧
      bytes.length = (digits.length + 1) / 2 ∧ Bytes.toNat bytes = Hex.number digits := by
  split
  · rename_i hodd
    have hpadded : Hex.IsDigits ('0' :: digits) := by
      intro c hmem
      rcases List.mem_cons.mp hmem with rfl | hmem
      · rfl
      · exact h c hmem
    obtain ⟨bytes, hbytes, hlength, hnumber⟩ := Hex.decode?_of_isDigits hpadded (by
      simp only [List.length_cons]
      omega)
    rw [Hex.number_cons_zero] at hnumber
    refine ⟨bytes, hbytes, ?_, hnumber⟩
    simp only [List.length_cons] at hlength
    omega
  · obtain ⟨bytes, hbytes, hlength, hnumber⟩ := Hex.decode?_of_isDigits h (by omega)
    exact ⟨bytes, hbytes, by omega, hnumber⟩

/-- Digits behind the mark are read as the number they spell, if they are at most 64. -/
theorem wordOfHex_mark {digits : List Char} (h : Hex.IsDigits digits) :
    wordOfHex ('0' :: 'x' :: digits) =
      if digits.length ≤ 64 then .ok (BitVec.ofNat 256 (Hex.number digits))
      else .error .tooWide := by
  obtain ⟨bytes, hbytes, hlength, hnumber⟩ := decode?_padded h
  have hwidth : bytes.length ≤ 32 ↔ digits.length ≤ 64 := by omega
  simp only [wordOfHex, hexDigits?, hbytes, Word.ofBytes?, hnumber, hwidth]
  by_cases hfit : digits.length ≤ 64
  · rw [if_pos hfit, if_pos hfit]
  · rw [if_neg hfit, if_neg hfit]

/-- Text without a sign is read as digits behind the mark. -/
theorem signedWordOfHex_markHex (digits : List Char) :
    signedWordOfHex (markHex digits).toList = wordOfHex ('0' :: 'x' :: digits) := by
  rw [markHex, String.toList_ofList, signedWordOfHex]
  intro magnitude h
  cases h

/-- A sign in front negates what is read behind it. -/
theorem signedWordOfHex_minus_markHex (digits : List Char) :
    signedWordOfHex ("-" ++ markHex digits).toList = do
      let word ← wordOfHex ('0' :: 'x' :: digits)
      return -word := by
  have htext : ("-" ++ markHex digits).toList = '-' :: '0' :: 'x' :: digits := by
    simp [markHex]
  rw [htext, signedWordOfHex]
  simp only [Word.negate_eq]

theorem wordOfHex_hexDigits (w : Word) : wordOfHex ('0' :: 'x' :: w.hexDigits) = .ok w := by
  rw [wordOfHex_mark w.isDigits_hexDigits, if_pos w.length_hexDigits_le, w.number_hexDigits]
  exact congrArg Except.ok (BitVec.ofNat_toNat 256 w)

end Json

end RecordCodec
