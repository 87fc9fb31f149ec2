import RecordCodec.Proofs.Json.Hex

/-!
# Text that spells bytes

Behind the mark, byte strings and numbers are to be written in digits alone: two for each
byte, and any count for a number, which gets a zero in front if it is odd. The reader of a
pair of characters takes a plus sign for its first digit, so text is read strictly unless
it has a plus sign, all its plus signs stand where pairs begin, and all its other
characters are digits. Such text is read as if zeros stood in place of the signs.
-/

namespace RecordCodec

namespace Hex

/-- The bytes that pairs of digits stand for, from left to right. -/
inductive Spells : List Char → Bytes → Prop
  | nil : Spells [] []
  | pair {high low : Char} {h l : Nat} {text : List Char} {bytes : Bytes}
      (hhigh : value? high = some h) (hlow : value? low = some l) (hrest : Spells text bytes) :
      Spells (high :: low :: text) (UInt8.ofNat (16 * h + l) :: bytes)

/-- A zero in place of a plus sign. -/
def unsign (c : Char) : Char := if c = '+' then '0' else c

/-- Plus signs stand only where pairs of characters begin. -/
def SignsLead (text : List Char) : Prop := ∀ i, text[i]? = some '+' → i % 2 = 0

/-- Pairs of digits, some of which have a plus sign for the first of them. -/
structure Signed (text : List Char) : Prop where
  sign : '+' ∈ text
  lead : SignsLead text
  digits : IsDigits (text.map unsign)
  even : text.length % 2 = 0

theorem digit_of_ascii : ∀ k < 128, ∀ n < 16, value? (Char.ofNat k) = some n →
    digit n = (Char.ofNat k).toLower := by decide +kernel

/-- The digit of a number is written in lower case. -/
theorem digit_of_value? {c : Char} {n : Nat} (h : value? c = some n) : digit n = c.toLower := by
  have hrange := value?_eq_some h
  have hchar : Char.ofNat c.toNat = c := Char.ofNat_toNat c
  have hdigit := digit_of_ascii c.toNat (by omega) n (value?_lt h)
  rw [hchar] at hdigit
  exact hdigit h

theorem isDigits_cons {c : Char} {text : List Char} :
    IsDigits (c :: text) ↔ (∃ n, value? c = some n) ∧ IsDigits text := by
  rw [IsDigits, List.forall_mem_cons, Option.isSome_iff_exists]
  rfl

theorem IsDigits.no_sign {text : List Char} (h : IsDigits text) : '+' ∉ text := by
  intro hmem
  cases h '+' hmem

theorem unsign_of_ne {c : Char} (h : c ≠ '+') : unsign c = c := if_neg h

theorem map_unsign {text : List Char} (h : '+' ∉ text) : text.map unsign = text := by
  have hsame : ∀ c ∈ text, unsign c = id c := by
    intro c hmem
    apply unsign_of_ne
    rintro rfl
    exact h hmem
  rw [List.map_congr_left hsame, List.map_id]

namespace Spells

variable {text : List Char} {bytes : Bytes}

theorem isDigits (h : Spells text bytes) : IsDigits text := by
  induction h with
  | nil => simp [IsDigits]
  | pair hhigh hlow _ ih => exact isDigits_cons.mpr ⟨⟨_, hhigh⟩, isDigits_cons.mpr ⟨⟨_, hlow⟩, ih⟩⟩

theorem length_eq (h : Spells text bytes) : text.length = 2 * bytes.length := by
  induction h with
  | nil => rfl
  | pair _ _ _ ih =>
    simp only [List.length_cons, ih]
    omega

/-- Written again, the bytes give the digits in lower case. -/
theorem encode_eq (h : Spells text bytes) : encode bytes = text.map Char.toLower := by
  induction h with
  | nil => rfl
  | @pair high low h l _ _ hhigh hlow _ ih =>
    have hh := value?_lt hhigh
    have hl := value?_lt hlow
    have hbyte : (UInt8.ofNat (16 * h + l)).toNat = 16 * h + l := by
      rw [UInt8.toNat_ofNat', Nat.mod_eq_of_lt (by omega)]
    have hfirst : (16 * h + l) / 16 = h := by omega
    have hsecond : (16 * h + l) % 16 = l := by omega
    rw [encode_cons, hbyte, hfirst, hsecond, digit_of_value? hhigh, digit_of_value? hlow, ih]
    rfl

end Spells

/-- An even number of digits spells bytes. -/
theorem exists_spells : {text : List Char} → IsDigits text → text.length % 2 = 0 →
    ∃ bytes, Spells text bytes
  | [], _, _ => ⟨[], .nil⟩
  | [_], _, heven => by cases heven
  | _ :: _ :: rest, hdigits, heven => by
    obtain ⟨⟨_, hhigh⟩, hdigits⟩ := isDigits_cons.mp hdigits
    obtain ⟨⟨_, hlow⟩, hdigits⟩ := isDigits_cons.mp hdigits
    have hrest : rest.length % 2 = 0 := by
      simp only [List.length_cons] at heven
      omega
    obtain ⟨bytes, hbytes⟩ := exists_spells hdigits hrest
    exact ⟨_, .pair hhigh hlow hbytes⟩

/-- A pair is read as its digits spell, a plus sign in front as a zero. -/
theorem pair?_eq_some_iff {high low : Char} {b : UInt8} :
    pair? high low = some b ↔ low ≠ '+' ∧ ∃ h l, value? (unsign high) = some h ∧
      value? (unsign low) = some l ∧ b = UInt8.ofNat (16 * h + l) := by
  have hlow : (value? low).isSome → low ≠ '+' := by
    rintro hsome rfl
    cases hsome
  by_cases hsign : high = '+'
  · have hzero : value? (unsign high) = some 0 := by
      rw [hsign]
      rfl
    rw [pair?, if_pos hsign, hzero, Option.map_eq_some_iff]
    constructor
    · rintro ⟨l, hl, rfl⟩
      have hne := hlow (by simp [hl])
      refine ⟨hne, 0, l, rfl, ?_, by simp⟩
      rw [unsign_of_ne hne, hl]
    · rintro ⟨hne, h, l, hh, hl, rfl⟩
      rw [unsign_of_ne hne] at hl
      cases hh
      exact ⟨l, hl, by simp⟩
  · rw [pair?, if_neg hsign, unsign_of_ne hsign]
    simp only [Option.bind_eq_bind, Option.bind_eq_some_iff, Option.pure_def, Option.some.injEq]
    constructor
    · rintro ⟨h, hh, l, hl, rfl⟩
      have hne := hlow (by simp [hl])
      refine ⟨hne, h, l, hh, ?_, rfl⟩
      rw [unsign_of_ne hne, hl]
    · rintro ⟨hne, h, l, hh, hl, rfl⟩
      rw [unsign_of_ne hne] at hl
      exact ⟨h, hh, l, hl, rfl⟩

theorem signsLead_cons_cons {high low : Char} {text : List Char} :
    SignsLead (high :: low :: text) ↔ low ≠ '+' ∧ SignsLead text := by
  constructor
  · intro h
    constructor
    · rintro rfl
      exact absurd (h 1 rfl) (by decide)
    · intro i hi
      have heven := h (i + 2) hi
      omega
  · rintro ⟨hlow, h⟩ i hi
    match i, hi with
    | 0, _ => rfl
    | 1, hi => exact absurd (Option.some.inj hi) hlow
    | i + 2, hi =>
      have heven := h i hi
      omega

/-- Text is read as what it spells once its signs, which stand where pairs begin, are zeros. -/
theorem decode?_eq_some_iff : {text : List Char} → {bytes : Bytes} →
    (decode? text = some bytes ↔ SignsLead text ∧ Spells (text.map unsign) bytes)
  | [], bytes => by
    constructor
    · rintro ⟨⟩
      exact ⟨by simp [SignsLead], .nil⟩
    · rintro ⟨-, ⟨⟩⟩
      rfl
  | [_], bytes => by
    constructor
    · rintro ⟨⟩
    · rintro ⟨-, ⟨⟩⟩
  | high :: low :: rest, bytes => by
    have hrest (bytes : Bytes) : decode? rest = some bytes ↔
        SignsLead rest ∧ Spells (rest.map unsign) bytes := decode?_eq_some_iff
    rw [decode?, signsLead_cons_cons]
    simp only [Option.bind_eq_bind, Option.bind_eq_some_iff, Option.pure_def, Option.some.injEq,
      pair?_eq_some_iff, hrest]
    constructor
    · rintro ⟨_, ⟨hlow, h, l, hh, hl, rfl⟩, _, ⟨hlead, hrest⟩, rfl⟩
      exact ⟨⟨hlow, hlead⟩, .pair hh hl hrest⟩
    · rintro ⟨⟨hlow, hlead⟩, hspells⟩
      cases hspells with
      | pair hh hl hrest => exact ⟨_, ⟨hlow, _, _, hh, hl, rfl⟩, _, ⟨hlead, hrest⟩, rfl⟩

theorem length_of_decode? {text : List Char} {bytes : Bytes} (h : decode? text = some bytes) :
    text.length = 2 * bytes.length := by
  rw [← (decode?_eq_some_iff.mp h).2.length_eq, List.length_map]

/-- Only signs keep what is read from being what is spelled. -/
theorem spells_of_not_signed {text : List Char} {bytes : Bytes} (h : decode? text = some bytes)
    (hsigned : ¬ Signed text) : Spells text bytes := by
  obtain ⟨hlead, hspells⟩ := decode?_eq_some_iff.mp h
  have heven := length_of_decode? h
  have hsign : '+' ∉ text := fun hmem =>
    hsigned ⟨hmem, hlead, hspells.isDigits, by omega⟩
  rwa [map_unsign hsign] at hspells

theorem Signed.exists_decode? {text : List Char} (h : Signed text) :
    ∃ bytes, decode? text = some bytes := by
  have heven : (text.map unsign).length % 2 = 0 := by rw [List.length_map, h.even]
  obtain ⟨bytes, hspells⟩ := exists_spells h.digits heven
  exact ⟨bytes, decode?_eq_some_iff.mpr ⟨h.lead, hspells⟩⟩

theorem Spells.decode? {text : List Char} {bytes : Bytes} (h : Spells text bytes) :
    decode? text = some bytes := by
  have hsign := h.isDigits.no_sign
  refine decode?_eq_some_iff.mpr ⟨?_, by rwa [map_unsign hsign]⟩
  intro i hi
  exact absurd (List.mem_of_getElem? hi) hsign

end Hex

namespace Json

open Hex (IsDigits Spells Signed)

/-- A zero in front makes the number of digits even. -/
def padded (digits : List Char) : List Char :=
  if digits.length % 2 = 1 then '0' :: digits else digits

/-- Bytes are read from the mark and an even number of digits, and from no other text. They
are what the digits spell, and written again they give the digits in lower case. -/
structure ReadsBytesStrictly (text : String) : Prop where
  accepted : (∃ bytes, (string text).toBytes = .ok bytes) ↔
    ∃ digits, text = markHex digits ∧ IsDigits digits ∧ digits.length % 2 = 0
  spelled : ∀ bytes digits, (string text).toBytes = .ok bytes → text = markHex digits →
    Spells digits bytes ∧ Hex.encode bytes = digits.map Char.toLower

/-- A word is read from the mark and at most 64 digits, and from no other text. It is the
number that the digits spell. -/
def ReadsWordStrictly (text : String) : Prop :=
  ∀ word, wordOfHex text.toList = .ok word ↔ ∃ digits, text = markHex digits ∧
    IsDigits digits ∧ digits.length ≤ 64 ∧ word = BitVec.ofNat 256 (Hex.number digits)

theorem hexDigits?_eq_some_iff {text digits : List Char} :
    hexDigits? text = some digits ↔ text = '0' :: 'x' :: digits := by
  unfold hexDigits?
  split
  · simp
  · rename_i hunmarked
    simpa using hunmarked digits

theorem eq_markHex_iff {text : String} {digits : List Char} :
    text = markHex digits ↔ hexDigits? text.toList = some digits := by
  rw [hexDigits?_eq_some_iff, ← String.toList_inj, markHex, String.toList_ofList]

theorem markHex_injective {digits others : List Char} (h : markHex digits = markHex others) :
    digits = others := by
  have hdigits := eq_markHex_iff.mp (Eq.refl (markHex digits))
  rw [eq_markHex_iff.mp h] at hdigits
  exact (Option.some.inj hdigits).symm

theorem toBytes_string_eq_ok {text : String} {bytes : Bytes} :
    (string text).toBytes = .ok bytes ↔
      ∃ digits, text = markHex digits ∧ Hex.decode? digits = some bytes := by
  simp only [eq_markHex_iff, toBytes, bytesOfHex]
  cases hexDigits? text.toList with
  | none => simp
  | some digits => cases hbytes : Hex.decode? digits <;> simp [hbytes]

theorem wordOfHex_eq_ok {text : String} {word : Word} :
    wordOfHex text.toList = .ok word ↔ ∃ digits, text = markHex digits ∧
      ∃ bytes, Hex.decode? (padded digits) = some bytes ∧ Word.ofBytes? bytes = some word := by
  simp only [eq_markHex_iff, wordOfHex]
  cases hexDigits? text.toList with
  | none => simp
  | some digits =>
    have hpadded : (if digits.length % 2 = 1 then '0' :: digits else digits) = padded digits := rfl
    simp only [hpadded]
    cases hbytes : Hex.decode? (padded digits) with
    | none => simp [hbytes]
    | some bytes => cases hword : Word.ofBytes? bytes <;> simp [hbytes, hword]

theorem isDigits_padded {digits : List Char} : IsDigits (padded digits) ↔ IsDigits digits := by
  unfold padded
  split
  · exact Hex.isDigits_cons.trans (and_iff_right ⟨0, rfl⟩)
  · rfl

theorem length_padded (digits : List Char) :
    (padded digits).length = 2 * ((digits.length + 1) / 2) := by
  unfold padded
  split
  · simp only [List.length_cons]
    omega
  · omega

/-- Bytes are read strictly from all text but pairs of digits with signs. -/
theorem readsBytesStrictly_iff (text : String) :
    ReadsBytesStrictly text ↔ ¬ ∃ digits, text = markHex digits ∧ Signed digits := by
  constructor
  · rintro hstrict ⟨digits, htext, hsigned⟩
    obtain ⟨bytes, hbytes⟩ := hsigned.exists_decode?
    obtain ⟨others, hothers, hdigits, -⟩ :=
      hstrict.accepted.mp ⟨bytes, toBytes_string_eq_ok.mpr ⟨digits, htext, hbytes⟩⟩
    rw [← markHex_injective (htext.symm.trans hothers)] at hdigits
    exact hdigits.no_sign hsigned.sign
  · intro hsigned
    have hread {bytes : Bytes} {digits : List Char} (hbytes : (string text).toBytes = .ok bytes)
        (htext : text = markHex digits) : Spells digits bytes := by
      obtain ⟨others, hothers, hdecode⟩ := toBytes_string_eq_ok.mp hbytes
      rw [← markHex_injective (htext.symm.trans hothers)] at hdecode
      exact Hex.spells_of_not_signed hdecode fun h => hsigned ⟨digits, htext, h⟩
    constructor
    · constructor
      · rintro ⟨bytes, hbytes⟩
        obtain ⟨digits, htext, -⟩ := toBytes_string_eq_ok.mp hbytes
        have hspells := hread hbytes htext
        exact ⟨digits, htext, hspells.isDigits, by simp [hspells.length_eq]⟩
      · rintro ⟨digits, htext, hdigits, heven⟩
        obtain ⟨bytes, hspells⟩ := Hex.exists_spells hdigits heven
        exact ⟨bytes, toBytes_string_eq_ok.mpr ⟨digits, htext, hspells.decode?⟩⟩
    · intro bytes digits hbytes htext
      have hspells := hread hbytes htext
      exact ⟨hspells, hspells.encode_eq⟩

/-- Words are read strictly from all text but that with signs behind the zero in front. -/
theorem readsWordStrictly_iff (text : String) :
    ReadsWordStrictly text ↔
      ¬ ∃ digits, text = markHex digits ∧ digits.length ≤ 64 ∧ Signed (padded digits) := by
  constructor
  · rintro hstrict ⟨digits, htext, hlength, hsigned⟩
    obtain ⟨bytes, hbytes⟩ := hsigned.exists_decode?
    have hcount := Hex.length_of_decode? hbytes
    rw [length_padded] at hcount
    have hword : Word.ofBytes? bytes = some (BitVec.ofNat 256 (Bytes.toNat bytes)) :=
      if_pos (by omega)
    obtain ⟨others, hothers, hdigits, -⟩ :=
      (hstrict _).mp (wordOfHex_eq_ok.mpr ⟨digits, htext, bytes, hbytes, hword⟩)
    rw [← markHex_injective (htext.symm.trans hothers), ← isDigits_padded] at hdigits
    exact hdigits.no_sign hsigned.sign
  · intro hsigned word
    have hmark {digits : List Char} (htext : text = markHex digits) :
        text.toList = '0' :: 'x' :: digits :=
      hexDigits?_eq_some_iff.mp (eq_markHex_iff.mp htext)
    constructor
    · intro hword
      obtain ⟨digits, htext, bytes, hbytes, hfits⟩ := wordOfHex_eq_ok.mp hword
      obtain ⟨hwidth, -⟩ := Option.ite_none_right_eq_some.mp hfits
      have hcount := Hex.length_of_decode? hbytes
      rw [length_padded] at hcount
      have hlength : digits.length ≤ 64 := by omega
      have hspells := Hex.spells_of_not_signed hbytes fun h => hsigned ⟨digits, htext, hlength, h⟩
      have hdigits := isDigits_padded.mp hspells.isDigits
      rw [hmark htext, wordOfHex_mark hdigits, if_pos hlength] at hword
      exact ⟨digits, htext, hdigits, hlength, (Except.ok.inj hword).symm⟩
    · rintro ⟨digits, htext, hdigits, hlength, rfl⟩
      rw [hmark htext, wordOfHex_mark hdigits, if_pos hlength]

/-- Hexadecimal text is read strictly, unless a pair of its digits begins with a sign. -/
theorem hex_read_strictly_iff (text : String) :
    (ReadsBytesStrictly text ↔ ¬ ∃ digits, text = markHex digits ∧ Signed digits) ∧
    (ReadsWordStrictly text ↔
      ¬ ∃ digits, text = markHex digits ∧ digits.length ≤ 64 ∧ Signed (padded digits)) :=
  ⟨readsBytesStrictly_iff text, readsWordStrictly_iff text⟩

/-- A sign in front of a digit is read, as a byte and as a number. -/
theorem hex_read_signed :
    (string "0x+f").toBytes = .ok [0x0f] ∧ wordOfHex "0x+f".toList = .ok 0x0f ∧
      ¬ ReadsBytesStrictly "0x+f" ∧ ¬ ReadsWordStrictly "0x+f" := by
  have hbytes : (string "0x+f").toBytes = .ok [0x0f] := rfl
  have hword : wordOfHex "0x+f".toList = .ok 0x0f := rfl
  have hsign {digits : List Char} (htext : "0x+f" = markHex digits) : ¬ IsDigits digits := by
    have hdigits : hexDigits? "0x+f".toList = some ['+', 'f'] := rfl
    rw [eq_markHex_iff, hdigits, Option.some.injEq] at htext
    intro h
    exact h.no_sign (htext ▸ List.mem_cons_self)
  refine ⟨hbytes, hword, ?_, ?_⟩
  · intro hstrict
    obtain ⟨digits, htext, hdigits, -⟩ := hstrict.accepted.mp ⟨_, hbytes⟩
    exact hsign htext hdigits
  · intro hstrict
    obtain ⟨digits, htext, hdigits, -⟩ := (hstrict _).mp hword
    exact hsign htext hdigits

end Json

end RecordCodec
