import RecordCodec.Proofs.Encoding.Success
import RecordCodec.Proofs.Json.RoundTrip
import RecordCodec.Proofs.Schema.WellFormed

/-!
# Integers from JSON to bytes

An integer stands in JSON as a number or as hexadecimal text with an optional sign. On
its way to the bytes it passes through a word, and only the number that is left in the
word is held against the range of the type. Without a sign nothing is lost on the way.
With one, text of up to 64 digits spells numbers beyond those that a word stands for,
and they come out of the word reduced modulo `2 ^ 256`.
-/

namespace RecordCodec

/-- The number that a word stands for, with or without a sign. -/
def Word.number (signed : Bool) (w : Word) : Int := if signed then w.toInt else w.toNat

@[simp] theorem Word.number_true (w : Word) : w.number true = w.toInt := rfl

@[simp] theorem Word.number_false (w : Word) : w.number false = w.toNat := rfl

/-- The number that bytes spell, with or without a sign. -/
def Bytes.number (signed : Bool) (bytes : Bytes) : Int :=
  if signed then bytes.toInt else Bytes.toNat bytes

@[simp] theorem Bytes.number_true (bytes : Bytes) : bytes.number true = bytes.toInt := rfl

@[simp] theorem Bytes.number_false (bytes : Bytes) :
    bytes.number false = Bytes.toNat bytes := rfl

namespace Primitive

/-- The numbers that an integer type holds. -/
def InRange (type : Primitive) (z : Int) : Prop :=
  if type.isSigned then -2 ^ (type.bitSize - 1) ≤ z ∧ z < 2 ^ (type.bitSize - 1)
  else 0 ≤ z ∧ z < 2 ^ type.bitSize

instance (type : Primitive) (z : Int) : Decidable (type.InRange z) :=
  inferInstanceAs (Decidable
    (if type.isSigned then -2 ^ (type.bitSize - 1) ≤ z ∧ z < 2 ^ (type.bitSize - 1)
    else 0 ≤ z ∧ z < 2 ^ type.bitSize))

theorem inRange_of_signed {type : Primitive} {z : Int} (h : type.isSigned = true) :
    type.InRange z ↔ -2 ^ (type.bitSize - 1) ≤ z ∧ z < 2 ^ (type.bitSize - 1) := by
  rw [InRange, if_pos h]

theorem inRange_of_unsigned {type : Primitive} {z : Int} (h : type.isSigned = false) :
    type.InRange z ↔ 0 ≤ z ∧ z < 2 ^ type.bitSize := by
  rw [InRange, h, if_neg (by decide)]

/-- The value of an integer type that a word stands for. -/
def integer (type : Primitive) (w : Word) : Value :=
  if type.isSigned then .int w else .uint w

/-- A value of the kind of an integer type is one of its words. -/
theorem exists_integer {type : Primitive} (h : type.IsInteger) {value : Value}
    (hkind : value.kind = (Leaf.primitive type).kind) : ∃ w, value = type.integer w := by
  rw [Leaf.kind_of_isInteger h] at hkind
  split at hkind
  · rename_i hsigned
    cases value with
    | int w => exact ⟨w, (if_pos hsigned).symm⟩
    | _ => cases hkind
  · rename_i hsigned
    cases value with
    | uint w => exact ⟨w, (if_neg hsigned).symm⟩
    | _ => cases hkind

/-- Integers are encoded by whether they have a sign, whatever their type. -/
theorem encode_integer {type : Primitive} (h : type.IsInteger) (path : Path) (w : Word) :
    (Leaf.primitive type).encode path (type.integer w) =
      if type.isSigned then Leaf.encodeSigned path type.bitSize w
      else Leaf.encodeUnsigned path type.bitSize w := by
  cases type with
  | uint | int => rfl
  | fixedPoint signed bits decimals =>
    cases signed with
    | false => rfl
    | true => rfl
  | bool | address => exact h.elim

section

variable {type : Primitive} (htype : type.WellFormed)

include htype

/-- A number in the range of a type goes into a word and out again. -/
theorem number_ofInt {z : Int} (h : type.InRange z) :
    (Word.ofInt z).number type.isSigned = z := by
  obtain ⟨hpos, _, hle⟩ := htype
  cases hsigned : type.isSigned with
  | false =>
    have hrange := (inRange_of_unsigned hsigned).mp h
    have hpow : (2 : Int) ^ type.bitSize ≤ 2 ^ 256 :=
      mod_cast Nat.pow_le_pow_right (by decide) hle
    rw [Word.number_false, Word.ofInt, BitVec.toNat_ofInt]
    omega
  | true =>
    have hrange := (inRange_of_signed hsigned).mp h
    rw [Word.number_true, Word.ofInt, BitVec.toInt_ofInt]
    exact Word.bmod_word_of_bmod hpos hle ((Word.bmod_eq_self_iff hpos).mpr hrange)

/-- The bytes of a word whose number is in range spell that number. -/
theorem number_ofNat {w : Word} (h : type.InRange (w.number type.isSigned)) :
    (Bytes.ofNat (type.bitSize / 8) w.toNat).number type.isSigned = w.number type.isSigned := by
  obtain ⟨hpos, hbytes, hle⟩ := htype
  cases hsigned : type.isSigned with
  | false =>
    rw [hsigned, inRange_of_unsigned hsigned, Word.number_false] at h
    have hlt : w.toNat < 2 ^ type.bitSize := mod_cast h.2
    rw [Bytes.number_false, Word.number_false, Bytes.toNat_ofNat, Word.pow_eq hbytes,
      Nat.mod_eq_of_lt hlt]
  | true =>
    rw [hsigned, inRange_of_signed hsigned, Word.number_true] at h
    rw [Bytes.number_true, Word.number_true, Bytes.toInt, Bytes.length_ofNat, Bytes.toNat_ofNat,
      Word.pow_eq hbytes, Word.bmod_natCast_mod, Word.bmod_toNat w hle]
    exact (Word.bmod_eq_self_iff hpos).mpr h

/-- An integer is encoded when its number is in the range of the type. -/
theorem encode_integer_eq_ok (hinteger : type.IsInteger) {path : Path} {w : Word}
    {bytes : Bytes} :
    (Leaf.primitive type).encode path (type.integer w) = .ok bytes ↔
      type.InRange (w.number type.isSigned) ∧
        bytes = Bytes.ofNat (type.bitSize / 8) w.toNat := by
  obtain ⟨hpos, _, hle⟩ := htype
  rw [encode_integer hinteger]
  cases hsigned : type.isSigned with
  | false =>
    rw [inRange_of_unsigned hsigned, Word.number_false, if_neg (by decide),
      Leaf.encodeUnsigned_eq_ok, Word.fitsUnsigned_iff, and_iff_right (Int.natCast_nonneg _)]
    norm_cast
  | true =>
    rw [inRange_of_signed hsigned, Word.number_true, if_pos rfl, Leaf.encodeSigned_eq_ok,
      Word.fitsSigned_iff_range hpos hle]

end

end Primitive

namespace Json

/-- An integer as it can be written in JSON. -/
inductive Numeral where
  | number (n : Int)
  /-- The number `n` written with a fraction or an exponent, or minus zero. -/
  | real (literal : String) (n : Int)
  | hex (negative : Bool) (digits : List Char)

namespace Numeral

def toJson : Numeral → Json
  | number n => .int n
  | real literal _ => .real literal
  | hex negative digits => .string (if negative then "-" ++ markHex digits else markHex digits)

/-- The integer that is written, of any size. -/
def value : Numeral → Int
  | number n => n
  | real _ n => n
  | hex negative digits => if negative then -(Hex.number digits : Int) else Hex.number digits

/-- Text has digits, and a sign only where signs are taken. -/
def WellFormed (signed : Bool) : Numeral → Prop
  | hex negative digits => digits ≠ [] ∧ Hex.IsDigits digits ∧ (negative → signed)
  | _ => True

/-- Whether a word is made of the numeral: JSON numbers have 64 bits, text has 64 digits. -/
def Held (signed : Bool) : Numeral → Prop
  | number n => if signed then -2 ^ 63 ≤ n ∧ n < 2 ^ 63 else 0 ≤ n ∧ n < 2 ^ 64
  | real _ _ => False
  | hex _ digits => digits.length ≤ 64

/-- The integer is out of the range of the type, and what is left of it in a word is not. -/
def Wraps (type : Primitive) (numeral : Numeral) : Prop :=
  type.isSigned ∧ numeral.Held true ∧ ¬ type.InRange numeral.value ∧
    type.InRange (numeral.value.bmod (2 ^ 256))

end Numeral

theorem toSigned_numeral {numeral : Numeral} (h : numeral.WellFormed true) {w : Word} :
    numeral.toJson.toSigned = .ok w ↔ numeral.Held true ∧ w = Word.ofInt numeral.value := by
  cases numeral with
  | number n =>
    refine Outcome.check_eq_ok.trans (and_congr_right fun hrange => ?_)
    change -2 ^ 63 ≤ n ∧ n < 2 ^ 63 at hrange
    rw [Word.ofSigned128_ofInt (by omega)]
    rfl
  | real literal n => simp [Numeral.toJson, toSigned, Numeral.Held]
  | hex negative digits =>
    obtain ⟨_, hdigits, _⟩ := h
    cases negative with
    | false =>
      change signedWordOfHex (markHex digits).toList = _ ↔ digits.length ≤ 64 ∧ _
      rw [signedWordOfHex_markHex, wordOfHex_mark hdigits, Outcome.check_eq_ok]
      rfl
    | true =>
      change signedWordOfHex ("-" ++ markHex digits).toList = _ ↔ digits.length ≤ 64 ∧ _
      have hnegated : -BitVec.ofNat 256 (Hex.number digits) =
          Word.ofInt (Numeral.hex true digits).value := by
        change _ = BitVec.ofInt 256 (-(Hex.number digits : Int))
        rw [BitVec.ofInt_neg, BitVec.ofInt_natCast]
      rw [signedWordOfHex_minus_markHex, wordOfHex_mark hdigits, ← hnegated, Outcome.bind_eq_ok]
      simp only [Outcome.check_eq_ok]
      constructor
      · rintro ⟨_, ⟨hlength, rfl⟩, ⟨⟩⟩
        exact ⟨hlength, rfl⟩
      · rintro ⟨hlength, rfl⟩
        exact ⟨_, ⟨hlength, rfl⟩, rfl⟩

theorem toUnsigned_numeral {numeral : Numeral} (h : numeral.WellFormed false) {w : Word} :
    numeral.toJson.toUnsigned = .ok w ↔ numeral.Held false ∧ w = Word.ofInt numeral.value := by
  cases numeral with
  | number n => exact Outcome.check_eq_ok
  | real literal n => simp [Numeral.toJson, toUnsigned, Numeral.Held]
  | hex negative digits =>
    obtain ⟨_, hdigits, hsign⟩ := h
    cases negative with
    | false =>
      change wordOfHex (markHex digits).toList = _ ↔ digits.length ≤ 64 ∧ _
      rw [markHex, String.toList_ofList, wordOfHex_mark hdigits, Outcome.check_eq_ok]
      rfl
    | true => cases hsign rfl

/-- Without a sign, a word holds all of the number that it is made of. -/
theorem Numeral.number_ofInt_unsigned {numeral : Numeral} (h : numeral.WellFormed false)
    (hheld : numeral.Held false) : (Word.ofInt numeral.value).number false = numeral.value := by
  have hrange : 0 ≤ numeral.value ∧ numeral.value < 2 ^ 256 := by
    cases numeral with
    | number n =>
      have hn : 0 ≤ n ∧ n < 2 ^ 64 := hheld
      change 0 ≤ n ∧ n < 2 ^ 256
      omega
    | real literal n => exact hheld.elim
    | hex negative digits =>
      obtain ⟨_, _, hsign⟩ := h
      have hlength : digits.length ≤ 64 := hheld
      cases negative with
      | false =>
        have hlt : Hex.number digits < 2 ^ 256 :=
          Nat.lt_of_lt_of_le (Hex.number_lt digits) (Nat.pow_le_pow_right (by decide) hlength)
        have hlt' : (Hex.number digits : Int) < 2 ^ 256 := mod_cast hlt
        exact ⟨Int.natCast_nonneg _, hlt'⟩
      | true => cases hsign rfl
  change ((BitVec.ofInt 256 numeral.value).toNat : Int) = _
  rw [BitVec.toNat_ofInt]
  omega

end Json

theorem Shape.ofJson_leaf_eq_ok {type : Leaf} {path : Path} {json : Json} {value : Value} :
    (Shape.leaf type).ofJson path json = .ok value ↔ type.ofJson json = .ok value := by
  rw [ofJson]
  cases type.ofJson json <;> simp

namespace Primitive

open Json (Numeral)

section

variable {type : Primitive} {numeral : Numeral}

/-- A numeral that a word is made of is read as the value of that word. -/
theorem ofJson_numeral_eq_ok (hinteger : type.IsInteger)
    (hnumeral : numeral.WellFormed type.isSigned) {value : Value} :
    (Leaf.primitive type).ofJson numeral.toJson = .ok value ↔
      numeral.Held type.isSigned ∧ value = type.integer (Word.ofInt numeral.value) := by
  rw [Leaf.ofJson_of_isInteger hinteger, integer]
  cases hsigned : type.isSigned with
  | false =>
    rw [hsigned] at hnumeral
    rw [if_neg (by decide), if_neg (by decide), Outcome.map_eq_ok]
    simp only [Json.toUnsigned_numeral hnumeral, and_assoc, exists_and_left, exists_eq_left]
  | true =>
    rw [hsigned] at hnumeral
    rw [if_pos rfl, if_pos rfl, Outcome.map_eq_ok]
    simp only [Json.toSigned_numeral hnumeral, and_assoc, exists_and_left, exists_eq_left]

variable (htype : type.WellFormed) (hnumeral : numeral.WellFormed type.isSigned)

include htype hnumeral

/-- What is left in the word and in range is the integer itself, unless it wraps around. -/
theorem number_ofInt_of_not_wraps (hheld : numeral.Held type.isSigned)
    (hleft : type.InRange ((Word.ofInt numeral.value).number type.isSigned))
    (hwraps : ¬ numeral.Wraps type) :
    (Word.ofInt numeral.value).number type.isSigned = numeral.value := by
  cases hsigned : type.isSigned with
  | false =>
    rw [hsigned] at hnumeral hheld
    exact Json.Numeral.number_ofInt_unsigned hnumeral hheld
  | true =>
    rw [hsigned] at hheld hleft
    by_cases hrange : type.InRange numeral.value
    · rw [← hsigned]
      exact number_ofInt htype hrange
    · rw [Word.number_true, Word.ofInt, BitVec.toInt_ofInt] at hleft
      exact absurd ⟨hsigned, hheld, hrange, hleft⟩ hwraps

variable (hinteger : type.IsInteger)

include hinteger

/-- From JSON to bytes: the number left in the word decides, and its low bytes are taken. -/
theorem encode_ofJson_numeral_eq_ok {path place : Path} {bytes : Bytes} :
    (∃ value, (Shape.leaf (.primitive type)).ofJson path numeral.toJson = .ok value ∧
        (Shape.leaf (.primitive type)).encode place value = .ok bytes) ↔
      numeral.Held type.isSigned ∧
        type.InRange ((Word.ofInt numeral.value).number type.isSigned) ∧
        bytes = Bytes.ofNat (type.bitSize / 8) (Word.ofInt numeral.value).toNat := by
  simp only [Shape.ofJson_leaf_eq_ok, ofJson_numeral_eq_ok hinteger hnumeral, Shape.encode,
    and_assoc, exists_and_left, exists_eq_left, encode_integer_eq_ok htype hinteger]

/-- JSON that denotes an integer is encoded as this integer or not at all, unless the integer
wraps around. All integers in range that are read are encoded. -/
theorem encode_ofJson_denotes (path place : Path) :
    ((∀ value bytes, (Shape.leaf (.primitive type)).ofJson path numeral.toJson = .ok value →
        (Shape.leaf (.primitive type)).encode place value = .ok bytes →
        type.InRange numeral.value ∧ bytes.length = type.bitSize / 8 ∧
          bytes.number type.isSigned = numeral.value) ↔ ¬ numeral.Wraps type) ∧
    (type.InRange numeral.value → numeral.Held type.isSigned → ∃ value bytes,
      (Shape.leaf (.primitive type)).ofJson path numeral.toJson = .ok value ∧
        (Shape.leaf (.primitive type)).encode place value = .ok bytes) := by
  constructor
  · constructor
    · rintro hdenotes ⟨hsigned, hheld, hout, hleft⟩
      have hword : (Word.ofInt numeral.value).number type.isSigned =
          numeral.value.bmod (2 ^ 256) := by
        rw [hsigned, Word.number_true, Word.ofInt, BitVec.toInt_ofInt]
      rw [← hword] at hleft
      rw [← hsigned] at hheld
      obtain ⟨value, hread, hencode⟩ :=
        (encode_ofJson_numeral_eq_ok htype hnumeral hinteger).mpr ⟨hheld, hleft, rfl⟩
      exact hout (hdenotes value _ hread hencode).1
    · intro hwraps value bytes hread hencode
      obtain ⟨hheld, hleft, rfl⟩ :=
        (encode_ofJson_numeral_eq_ok htype hnumeral hinteger).mp ⟨value, hread, hencode⟩
      have hword := number_ofInt_of_not_wraps htype hnumeral hheld hleft hwraps
      have hspelled := number_ofNat htype hleft
      rw [hword] at hleft hspelled
      exact ⟨hleft, Bytes.length_ofNat _ _, hspelled⟩
  · intro hrange hheld
    have hleft := hrange
    rw [← number_ofInt htype hrange] at hleft
    obtain ⟨value, hread, hencode⟩ :=
      (encode_ofJson_numeral_eq_ok htype hnumeral hinteger).mpr ⟨hheld, hleft, rfl⟩
    exact ⟨value, _, hread, hencode⟩

end

/-- Text with a sign for a type of two bytes. -/
theorem encode_ofJson_denotes_minus_two :
    let type : Primitive := .int 16
    let numeral : Numeral := .hex true ['2']
    type.WellFormed ∧ type.IsInteger ∧ numeral.WellFormed type.isSigned ∧
      (Shape.leaf (.primitive type)).ofJson (.ofName "v") numeral.toJson = .ok (.int (-2)) ∧
      (Shape.leaf (.primitive type)).encode (.ofName "v") (.int (-2)) = .ok [0xff, 0xfe] ∧
      type.InRange (-2) ∧ Bytes.number true [0xff, 0xfe] = -2 := by
  intro type numeral
  have htype : type.WellFormed := by
    simp [type, WellFormed, bitSize]
  have hinteger : type.IsInteger := trivial
  have hdigits : Hex.IsDigits ['2'] := by
    intro c hmem
    rw [List.mem_singleton.mp hmem]
    rfl
  have hnumeral : numeral.WellFormed type.isSigned := ⟨by simp, hdigits, fun _ => rfl⟩
  have hrange : type.InRange numeral.value := by decide
  have hread : (Shape.leaf (.primitive type)).ofJson (.ofName "v") numeral.toJson =
      .ok (.int (-2)) := by
    have hheld : numeral.Held type.isSigned := (by decide : 1 ≤ 64)
    exact Shape.ofJson_leaf_eq_ok.mpr
      ((ofJson_numeral_eq_ok hinteger hnumeral).mpr ⟨hheld, rfl⟩)
  have hencode : (Shape.leaf (.primitive type)).encode (.ofName "v") (.int (-2)) =
      .ok [0xff, 0xfe] := by decide
  obtain ⟨hdenotes, _⟩ :=
    encode_ofJson_denotes htype hnumeral hinteger (.ofName "v") (.ofName "v")
  obtain ⟨hin, _, hspelled⟩ :=
    hdenotes.mpr (fun hwraps => hwraps.2.2.1 hrange) _ _ hread hencode
  exact ⟨htype, hinteger, hnumeral, hread, hencode, hin, hspelled⟩

/-- The negation of 64 digits `f` is out of the range of a byte, and is encoded as one. -/
theorem encode_ofJson_wrapped :
    let type : Primitive := .int 8
    let numeral : Numeral := .hex true (List.replicate 64 'f')
    numeral.WellFormed type.isSigned ∧ ¬ type.InRange numeral.value ∧
      (Shape.leaf (.primitive type)).ofJson (.ofName "v") numeral.toJson = .ok (.int 1) ∧
      (Shape.leaf (.primitive type)).encode (.ofName "v") (.int 1) = .ok [1] := by
  intro type numeral
  have hinteger : type.IsInteger := trivial
  have hdigits : Hex.IsDigits (List.replicate 64 'f') := by
    intro c hmem
    rw [List.eq_of_mem_replicate hmem]
    rfl
  have hnumeral : numeral.WellFormed type.isSigned := ⟨by simp, hdigits, fun _ => rfl⟩
  have hout : ¬ type.InRange numeral.value := by decide
  have hread : (Shape.leaf (.primitive type)).ofJson (.ofName "v") numeral.toJson =
      .ok (.int 1) := by
    have hheld : numeral.Held type.isSigned := Nat.le_of_eq List.length_replicate
    have hword : Word.ofInt numeral.value = 1 := by decide
    exact Shape.ofJson_leaf_eq_ok.mpr
      ((ofJson_numeral_eq_ok hinteger hnumeral).mpr ⟨hheld, hword ▸ rfl⟩)
  exact ⟨hnumeral, hout, hread, by decide⟩

end Primitive

end RecordCodec
