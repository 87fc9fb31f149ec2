import Mathlib.Data.List.TakeWhile
import RecordCodec.FieldType.Parser
import RecordCodec.FieldType.Printer
import RecordCodec.Proofs.Text.Numeral

/-!
# The grammar of field types

A grammar says which texts spell a type, without saying how to read one: a base, in one of
its spellings, in front of any number of array suffixes. All numbers in it are numerals.

Reading accepts exactly what the grammar derives and yields the type it is derived for. What
is refused is reported for its base, if what comes before the first bracket spells none, and
for its suffixes otherwise. A type that is written out is read back as it was.
-/

namespace RecordCodec

namespace BaseType

/-- A whole number of bytes, at most a word. -/
def IsWidth (bits : Nat) : Prop := 8 ∣ bits ∧ 8 ≤ bits ∧ bits ≤ 256

instance (bits : Nat) : Decidable (IsWidth bits) :=
  inferInstanceAs (Decidable (8 ∣ bits ∧ 8 ≤ bits ∧ bits ≤ 256))

/-- The name in front of the sizes of fixed-point numbers. -/
def fixedPointName (signed : Bool) : List Char := (if signed then "fixed" else "ufixed").toList

/-- The spellings of a base. A size that is left out is 256 bits for integers, and 128 bits
with 18 decimals for fixed-point numbers. -/
inductive SpelledBy : BaseType → List Char → Prop
  | tuple : SpelledBy .tuple "tuple".toList
  | bool : SpelledBy (.leaf (.primitive .bool)) "bool".toList
  | address : SpelledBy (.leaf (.primitive .address)) "address".toList
  | bytes : SpelledBy (.leaf .bytes) "bytes".toList
  | string : SpelledBy (.leaf .string) "string".toList
  | uintDefault : SpelledBy (.leaf (.primitive (.uint 256))) "uint".toList
  | intDefault : SpelledBy (.leaf (.primitive (.int 256))) "int".toList
  | fixedPointDefault (signed : Bool) :
      SpelledBy (.leaf (.primitive (.fixedPoint signed 128 18))) (fixedPointName signed)
  | fixedBytes {size : Nat} (hsize : 1 ≤ size ∧ size ≤ 32) :
      SpelledBy (.leaf (.fixedBytes size)) ("bytes".toList ++ Numeral.render size)
  | uint {bits : Nat} (hbits : IsWidth bits) :
      SpelledBy (.leaf (.primitive (.uint bits))) ("uint".toList ++ Numeral.render bits)
  | int {bits : Nat} (hbits : IsWidth bits) :
      SpelledBy (.leaf (.primitive (.int bits))) ("int".toList ++ Numeral.render bits)
  | fixedPoint {signed : Bool} {bits decimals : Nat} (hbits : IsWidth bits)
      (hdecimals : decimals ≤ 80) :
      SpelledBy (.leaf (.primitive (.fixedPoint signed bits decimals)))
        (fixedPointName signed ++ (Numeral.render bits ++ 'x' :: Numeral.render decimals))

end BaseType

/-- The spelling of array suffixes, in the order in which they are written. -/
inductive Dimension.AllSpelledBy : List Dimension → List Char → Prop
  | nil : AllSpelledBy [] []
  | dynamic {dims : List Dimension} {rest : List Char} (hdims : AllSpelledBy dims rest) :
      AllSpelledBy (.dynamic :: dims) ('[' :: ']' :: rest)
  | fixed {size : Nat} {dims : List Dimension} {rest : List Char}
      (hsize : 1 ≤ size ∧ size < UInt64.size) (hdims : AllSpelledBy dims rest) :
      AllSpelledBy (.fixed size :: dims) ('[' :: (Numeral.render size ++ ']' :: rest))

/-- The text is a spelling of the base followed by the suffixes. -/
def FieldType.SpelledBy (type : FieldType) (text : List Char) : Prop :=
  ∃ base suffixes, text = base ++ suffixes ∧ type.base.SpelledBy base ∧
    Dimension.AllSpelledBy type.dims suffixes

namespace Text

/-- A text without blanks has none at its ends. -/
theorem trim_eq_self {text : List Char} (h : ∀ c ∈ text, isBlank c = false) :
    trim text = text := by
  have hkeep : ∀ chars : List Char, (∀ c ∈ chars, isBlank c = false) →
      chars.dropWhile isBlank = chars := by
    intro chars hchars
    rw [List.dropWhile_eq_self_iff]
    intro hlength
    simp [hchars]
  have hreverse : ∀ c ∈ text.reverse, isBlank c = false := by simpa using h
  rw [trim, hkeep text h, hkeep _ hreverse, List.reverse_reverse]

/-- Blanks are control characters and spaces, or lie beyond ASCII. -/
theorem isBlank_eq_false {c : Char} (hfirst : 0x20 < c.toNat) (hlast : c.toNat < 0x80) :
    isBlank c = false := by
  simp only [isBlank, blankRanges, List.any_cons, List.any_nil, Bool.or_false,
    Bool.or_eq_false_iff, Bool.and_eq_false_iff, decide_eq_false_iff_not]
  omega

theorem isBlank_of_isAlphanum {c : Char} (h : c.isAlphanum) : isBlank c = false := by
  change (decide (c.val ≥ 'A'.val ∧ c.val ≤ 'Z'.val) || c.val ≥ 'a'.val && c.val ≤ 'z'.val ||
    c.val ≥ '0'.val && c.val ≤ '9'.val) = true at h
  simp only [Bool.or_eq_true, Bool.and_eq_true, decide_eq_true_eq, UInt32.le_iff_toNat_le,
    ge_iff_le, Char.toNat_val, Char.reduceToNat] at h
  exact isBlank_eq_false (by omega) (by omega)

end Text

namespace Numeral

theorem isAlphanum_of_mem_render {n : Nat} : ∀ c ∈ render n, c.isAlphanum := by
  intro c hmem
  simp [Char.isAlphanum, isDigit_of_mem_render hmem]

theorem ne_of_mem_render {n : Nat} {c : Char} (hc : c.isDigit = false) : ∀ d ∈ render n, d ≠ c := by
  rintro d hmem rfl
  rw [isDigit_of_mem_render hmem] at hc
  cases hc

end Numeral

theorem BaseType.isAlphanum_fixedPointName (signed : Bool) :
    ∀ c ∈ fixedPointName signed, c.isAlphanum := by
  cases signed <;> exact List.all_eq_true.mp rfl

/-- Letters and digits are all that a base is spelled with. -/
theorem BaseType.SpelledBy.isAlphanum {base : BaseType} {text : List Char}
    (h : base.SpelledBy text) : ∀ c ∈ text, c.isAlphanum := by
  have hdigits := fun n => Numeral.isAlphanum_of_mem_render (n := n)
  cases h with
  | tuple | bool | address | bytes | string | uintDefault | intDefault =>
    exact List.all_eq_true.mp rfl
  | fixedPointDefault signed => exact isAlphanum_fixedPointName signed
  | fixedBytes _ | uint _ | int _ =>
    exact List.forall_mem_append.mpr ⟨List.all_eq_true.mp rfl, hdigits _⟩
  | @fixedPoint signed bits decimals _ _ =>
    have hdecimals : ∀ c ∈ 'x' :: Numeral.render decimals, c.isAlphanum :=
      List.forall_mem_cons.mpr ⟨rfl, hdigits decimals⟩
    have hsizes := List.forall_mem_append.mpr ⟨hdigits bits, hdecimals⟩
    exact List.forall_mem_append.mpr ⟨isAlphanum_fixedPointName signed, hsizes⟩

theorem Dimension.AllSpelledBy.isBlank_eq_false {dims : List Dimension} {text : List Char}
    (h : AllSpelledBy dims text) : ∀ c ∈ text, Text.isBlank c = false := by
  induction h with
  | nil => simp
  | dynamic _ ih => simpa using ⟨rfl, rfl, ih⟩
  | @fixed size dims rest _ _ ih =>
    have hdigits : ∀ c ∈ Numeral.render size, Text.isBlank c = false := fun c hmem =>
      Text.isBlank_of_isAlphanum (Numeral.isAlphanum_of_mem_render c hmem)
    have hrest : ∀ c ∈ ']' :: rest, Text.isBlank c = false :=
      List.forall_mem_cons.mpr ⟨rfl, ih⟩
    exact List.forall_mem_cons.mpr ⟨rfl, List.forall_mem_append.mpr ⟨hdigits, hrest⟩⟩

theorem FieldType.SpelledBy.trim_eq_self {type : FieldType} {text : List Char}
    (h : type.SpelledBy text) : Text.trim text = text := by
  obtain ⟨base, suffixes, rfl, hbase, hsuffixes⟩ := h
  apply Text.trim_eq_self
  exact List.forall_mem_append.mpr
    ⟨fun c hmem => Text.isBlank_of_isAlphanum (hbase.isAlphanum c hmem), hsuffixes.isBlank_eq_false⟩

namespace BaseType

theorem width?_eq_some_iff {text : List Char} {bits : Nat} :
    width? text = some bits ↔ text = Numeral.render bits ∧ IsWidth bits := by
  simp only [width?, Option.bind_eq_bind, Option.bind_eq_some_iff, Numeral.parse?_eq_some_iff,
    Option.ite_none_right_eq_some, Option.some.injEq, IsWidth]
  constructor
  · rintro ⟨n, htext, ⟨hpos, hle, hmod⟩, rfl⟩
    exact ⟨htext, by omega⟩
  · rintro ⟨htext, hbits⟩
    exact ⟨bits, htext, by omega, rfl⟩

theorem uint?_eq_some_iff {text : List Char} {type : Leaf} :
    uint? text = some type ↔
      ∃ bits, text = Numeral.render bits ∧ IsWidth bits ∧ .primitive (.uint bits) = type := by
  simp only [uint?, Option.bind_eq_bind, Option.bind_eq_some_iff, width?_eq_some_iff,
    Option.pure_def, Option.some.injEq, and_assoc]

theorem int?_eq_some_iff {text : List Char} {type : Leaf} :
    int? text = some type ↔
      ∃ bits, text = Numeral.render bits ∧ IsWidth bits ∧ .primitive (.int bits) = type := by
  simp only [int?, Option.bind_eq_bind, Option.bind_eq_some_iff, width?_eq_some_iff,
    Option.pure_def, Option.some.injEq, and_assoc]

theorem fixedBytes?_eq_some_iff {text : List Char} {type : Leaf} :
    fixedBytes? text = some type ↔
      ∃ size, text = Numeral.render size ∧ (1 ≤ size ∧ size ≤ 32) ∧ .fixedBytes size = type := by
  simp only [fixedBytes?, Option.bind_eq_bind, Option.bind_eq_some_iff,
    Numeral.parse?_eq_some_iff, Option.ite_none_right_eq_some, Option.some.injEq]

/-- The first `x` is the one behind the digits of the width. -/
theorem fixedPoint?_append (signed : Bool) (bits : Nat) (rest : List Char) :
    fixedPoint? signed (Numeral.render bits ++ 'x' :: rest) = (do
      let width ← width? (Numeral.render bits)
      let decimals ← Numeral.parse? rest
      if decimals ≤ 80 then some (.primitive (.fixedPoint signed width decimals)) else none) := by
  have hdigits : ∀ c ∈ Numeral.render bits, (c != 'x') = true := fun c hmem =>
    bne_iff_ne.mpr (Numeral.ne_of_mem_render rfl c hmem)
  rw [fixedPoint?, List.takeWhile_append_of_pos hdigits, List.dropWhile_append_of_pos hdigits]
  simp

theorem fixedPoint?_eq_some_iff {signed : Bool} {text : List Char} {type : Leaf} :
    fixedPoint? signed text = some type ↔
      ∃ bits decimals, text = Numeral.render bits ++ 'x' :: Numeral.render decimals ∧
        IsWidth bits ∧ decimals ≤ 80 ∧ .primitive (.fixedPoint signed bits decimals) = type := by
  constructor
  · intro h
    unfold fixedPoint? at h
    split at h
    · cases h
    · rename_i mark rest hrest
      have hmark : mark = 'x' := by
        have hhead := List.head?_dropWhile_not (· != 'x') text
        simpa [hrest] using hhead
      simp only [Option.bind_eq_bind, Option.bind_eq_some_iff, width?_eq_some_iff,
        Numeral.parse?_eq_some_iff, Option.ite_none_right_eq_some, Option.some.injEq] at h
      obtain ⟨bits, ⟨hfront, hbits⟩, decimals, rfl, hdecimals, htype⟩ := h
      refine ⟨bits, decimals, ?_, hbits, hdecimals, htype⟩
      calc text = text.takeWhile (· != 'x') ++ text.dropWhile (· != 'x') :=
            List.takeWhile_append_dropWhile.symm
        _ = Numeral.render bits ++ 'x' :: Numeral.render decimals := by rw [hfront, hrest, hmark]
  · rintro ⟨bits, decimals, rfl, hbits, hdecimals, rfl⟩
    have hwidth : width? (Numeral.render bits) = some bits := width?_eq_some_iff.mpr ⟨rfl, hbits⟩
    simp [fixedPoint?_append, hwidth, Numeral.parse?_render, hdecimals]

theorem spelledBy_of_mem_keywords {text : List Char} {base : BaseType}
    (h : (text, base) ∈ keywords) : base.SpelledBy text := by
  simp only [keywords, List.mem_cons, List.not_mem_nil, or_false, Prod.mk.injEq] at h
  rcases h with ⟨rfl, rfl⟩ | ⟨rfl, rfl⟩ | ⟨rfl, rfl⟩ | ⟨rfl, rfl⟩ | ⟨rfl, rfl⟩ | ⟨rfl, rfl⟩ |
    ⟨rfl, rfl⟩ | ⟨rfl, rfl⟩ | ⟨rfl, rfl⟩
  · exact .tuple
  · exact .bool
  · exact .address
  · exact .bytes
  · exact .string
  · exact .uintDefault
  · exact .intDefault
  · exact .fixedPointDefault true
  · exact .fixedPointDefault false

theorem spelledBy_of_sized? {text : List Char} {type : Leaf} (h : sized? text = some type) :
    (BaseType.leaf type).SpelledBy text := by
  obtain ⟨⟨name, read⟩, hmem, hread⟩ := List.exists_of_findSome?_eq_some h
  obtain ⟨rest, hrest, htype⟩ := Option.bind_eq_some_iff.mp hread
  obtain rfl := List.append_eq_of_isPrefixOf?_eq_some hrest
  simp only [families, List.mem_cons, List.not_mem_nil, or_false, Prod.mk.injEq] at hmem
  rcases hmem with ⟨rfl, rfl⟩ | ⟨rfl, rfl⟩ | ⟨rfl, rfl⟩ | ⟨rfl, rfl⟩ | ⟨rfl, rfl⟩
  · obtain ⟨size, rfl, hsize, rfl⟩ := fixedBytes?_eq_some_iff.mp htype
    exact .fixedBytes hsize
  · obtain ⟨bits, rfl, hbits, rfl⟩ := uint?_eq_some_iff.mp htype
    exact .uint hbits
  · obtain ⟨bits, rfl, hbits, rfl⟩ := int?_eq_some_iff.mp htype
    exact .int hbits
  · obtain ⟨bits, decimals, rfl, hbits, hdecimals, rfl⟩ := fixedPoint?_eq_some_iff.mp htype
    exact .fixedPoint hbits hdecimals
  · obtain ⟨bits, decimals, rfl, hbits, hdecimals, rfl⟩ := fixedPoint?_eq_some_iff.mp htype
    exact .fixedPoint hbits hdecimals

/-- Keywords have no digits. -/
theorem lookup_keywords_eq_none {text : List Char} {c : Char} (hmem : c ∈ text)
    (hdigit : c.isDigit) : keywords.lookup text = none := by
  have hletters : ∀ keyword ∈ keywords, keyword.1.all fun c => !c.isDigit :=
    List.all_eq_true.mp rfl
  rw [List.lookup_eq_none_iff]
  intro keyword hkeyword
  rw [bne_iff_ne]
  rintro rfl
  have hletter := List.all_eq_true.mp (hletters keyword hkeyword) c hmem
  rw [hdigit] at hletter
  cases hletter

/-- What follows the name of a family is read by this family, since no other name fits. -/
theorem sized?_append {name : List Char} {read : List Char → Option Leaf}
    (hfamily : (name, read) ∈ families) {rest : List Char} {type : Leaf}
    (h : read rest = some type) : sized? (name ++ rest) = some type := by
  simp only [families, List.mem_cons, List.not_mem_nil, or_false, Prod.mk.injEq] at hfamily
  rcases hfamily with ⟨rfl, rfl⟩ | ⟨rfl, rfl⟩ | ⟨rfl, rfl⟩ | ⟨rfl, rfl⟩ | ⟨rfl, rfl⟩ <;>
    simp [sized?, families, List.isPrefixOf?, h]

theorem parse?_append {name : List Char} {read : List Char → Option Leaf}
    (hfamily : (name, read) ∈ families) {n : Nat} {rest : List Char} {type : Leaf}
    (h : read (Numeral.render n ++ rest) = some type) :
    parse? (name ++ (Numeral.render n ++ rest)) = some (.leaf type) := by
  obtain ⟨c, digits, hrender⟩ := List.exists_cons_of_ne_nil (Numeral.render_ne_nil n)
  have hmem : c ∈ Numeral.render n := by simp [hrender]
  have hinside : c ∈ name ++ (Numeral.render n ++ rest) := by simp [hmem]
  rw [parse?, lookup_keywords_eq_none hinside (Numeral.isDigit_of_mem_render hmem),
    sized?_append hfamily h]
  rfl

theorem SpelledBy.parse? {base : BaseType} {text : List Char} (h : base.SpelledBy text) :
    parse? text = some base := by
  have hlast : ∀ n, Numeral.render n = Numeral.render n ++ [] := fun n => (List.append_nil _).symm
  cases h with
  | tuple | bool | address | bytes | string | uintDefault | intDefault => rfl
  | fixedPointDefault signed => cases signed <;> rfl
  | @fixedBytes size hsize =>
    have hfamily : ("bytes".toList, fixedBytes?) ∈ families := by simp [families]
    rw [hlast]
    exact parse?_append hfamily
      (fixedBytes?_eq_some_iff.mpr ⟨size, List.append_nil _, hsize, rfl⟩)
  | @uint bits hbits =>
    have hfamily : ("uint".toList, uint?) ∈ families := by simp [families]
    rw [hlast]
    exact parse?_append hfamily (uint?_eq_some_iff.mpr ⟨bits, List.append_nil _, hbits, rfl⟩)
  | @int bits hbits =>
    have hfamily : ("int".toList, int?) ∈ families := by simp [families]
    rw [hlast]
    exact parse?_append hfamily (int?_eq_some_iff.mpr ⟨bits, List.append_nil _, hbits, rfl⟩)
  | @fixedPoint signed bits decimals hbits hdecimals =>
    have hfamily : (fixedPointName signed, fixedPoint? signed) ∈ families := by
      cases signed <;> simp [families, fixedPointName]
    exact parse?_append hfamily
      (fixedPoint?_eq_some_iff.mpr ⟨bits, decimals, rfl, hbits, hdecimals, rfl⟩)

theorem parse?_eq_some_iff {text : List Char} {base : BaseType} :
    parse? text = some base ↔ base.SpelledBy text := by
  constructor
  · intro h
    unfold BaseType.parse? at h
    split at h
    · rename_i keyword hkeyword
      cases h
      obtain ⟨front, back, hkeywords, _⟩ := List.lookup_eq_some_iff.mp hkeyword
      exact spelledBy_of_mem_keywords (by simp [hkeywords])
    · obtain ⟨type, htype, rfl⟩ := Option.map_eq_some_iff.mp h
      exact spelledBy_of_sized? htype
  · exact SpelledBy.parse?

end BaseType

namespace Dimension

theorem parse?_eq_some_iff {size : List Char} {dim : Dimension} :
    parse? size = some dim ↔ (size = [] ∧ dim = .dynamic) ∨
      ∃ n, size = Numeral.render n ∧ (1 ≤ n ∧ n < UInt64.size) ∧ dim = .fixed n := by
  cases size with
  | nil =>
    have hne : ∀ n, [] ≠ Numeral.render n := fun n => (Numeral.render_ne_nil n).symm
    simp [parse?, hne, eq_comm]
  | cons c size =>
    simp only [parse?, Option.bind_eq_bind, Option.bind_eq_some_iff, Numeral.parse?_eq_some_iff,
      Option.ite_none_right_eq_some, Option.some.injEq, reduceCtorEq, false_and, false_or]
    constructor
    · rintro ⟨n, hsize, hn, rfl⟩
      exact ⟨n, hsize, hn, rfl⟩
    · rintro ⟨n, hsize, hn, rfl⟩
      exact ⟨n, hsize, hn, rfl⟩

/-- Inside a pair of brackets, what comes before the first closing one is the size. -/
theorem readList_some_eq_some {size text : List Char} {dims : List Dimension} :
    readList (some size) text = some dims ↔ ∃ inside rest first others,
      text = inside ++ ']' :: rest ∧ ']' ∉ inside ∧ parse? (size ++ inside) = some first ∧
        readList none rest = some others ∧ dims = first :: others := by
  induction text generalizing size with
  | nil => simp [readList]
  | cons c text ih =>
    rw [readList]
    split
    · rename_i hc
      subst hc
      simp only [Option.bind_eq_bind, Option.bind_eq_some_iff, Option.pure_def, Option.some.injEq]
      constructor
      · rintro ⟨first, hfirst, others, hothers, rfl⟩
        exact ⟨[], text, first, others, rfl, by simp, by simpa using hfirst, hothers, rfl⟩
      · rintro ⟨inside, rest, first, others, htext, hinside, hfirst, hothers, rfl⟩
        cases inside with
        | nil =>
          cases htext
          exact ⟨first, by simpa using hfirst, others, hothers, rfl⟩
        | cons d inside =>
          cases htext
          simp at hinside
    · rename_i hc
      rw [ih]
      constructor
      · rintro ⟨inside, rest, first, others, rfl, hinside, hfirst, hothers, rfl⟩
        refine ⟨c :: inside, rest, first, others, rfl, ?_, by simpa using hfirst, hothers, rfl⟩
        simp [hinside, Ne.symm hc]
      · rintro ⟨inside, rest, first, others, htext, hinside, hfirst, hothers, rfl⟩
        cases inside with
        | nil =>
          cases htext
          exact absurd rfl hc
        | cons d inside =>
          cases htext
          exact ⟨inside, rest, first, others, rfl, fun h => hinside (List.mem_cons_of_mem _ h),
            by simpa using hfirst, hothers, rfl⟩

theorem allSpelledBy_of_parseList? {text : List Char} {dims : List Dimension}
    (h : parseList? text = some dims) : AllSpelledBy dims text := by
  induction hlength : text.length using Nat.strongRecOn generalizing text dims with
  | ind n ih =>
    cases text with
    | nil =>
      cases h
      exact .nil
    | cons c text =>
      rw [parseList?, readList] at h
      split at h
      · rename_i hc
        subst hc
        obtain ⟨inside, rest, first, others, rfl, _, hfirst, hothers, rfl⟩ :=
          readList_some_eq_some.mp h
        have hshort : rest.length < n := by
          simp only [List.length_cons, List.length_append] at hlength
          omega
        have hrest := ih rest.length hshort hothers rfl
        rw [List.nil_append] at hfirst
        rcases parse?_eq_some_iff.mp hfirst with ⟨rfl, rfl⟩ | ⟨size, rfl, hsize, rfl⟩
        · exact .dynamic hrest
        · exact .fixed hsize hrest
      · cases h

theorem AllSpelledBy.parseList? {text : List Char} {dims : List Dimension}
    (h : AllSpelledBy dims text) : parseList? text = some dims := by
  induction h with
  | nil => rfl
  | @dynamic dims rest _ ih =>
    have hinside : readList (some []) (']' :: rest) = some (.dynamic :: dims) :=
      readList_some_eq_some.mpr ⟨[], rest, .dynamic, dims, rfl, by simp, rfl, ih, rfl⟩
    exact hinside
  | @fixed size dims rest hsize _ ih =>
    have hfirst : parse? (Numeral.render size) = some (.fixed size) :=
      parse?_eq_some_iff.mpr (.inr ⟨size, rfl, hsize, rfl⟩)
    have hclosing : ']' ∉ Numeral.render size := fun hmem =>
      Numeral.ne_of_mem_render rfl ']' hmem rfl
    have hinside : readList (some []) (Numeral.render size ++ ']' :: rest) =
        some (.fixed size :: dims) :=
      readList_some_eq_some.mpr ⟨_, rest, .fixed size, dims, rfl, hclosing, hfirst, ih, rfl⟩
    exact hinside

theorem parseList?_eq_some_iff {text : List Char} {dims : List Dimension} :
    parseList? text = some dims ↔ AllSpelledBy dims text :=
  ⟨allSpelledBy_of_parseList?, AllSpelledBy.parseList?⟩

end Dimension

namespace FieldType

/-- No base has a bracket in it, and suffixes start with one. -/
theorem chars_append {base : BaseType} {dims : List Dimension} {front suffixes : List Char}
    (hbase : base.SpelledBy front) (hdims : Dimension.AllSpelledBy dims suffixes) :
    baseChars (front ++ suffixes) = front ∧ suffixChars (front ++ suffixes) = suffixes := by
  have hfront : ∀ c ∈ front, (c != '[') = true := by
    intro c hmem
    rw [bne_iff_ne]
    rintro rfl
    cases hbase.isAlphanum '[' hmem
  rw [baseChars, suffixChars, List.takeWhile_append_of_pos hfront,
    List.dropWhile_append_of_pos hfront]
  cases hdims with
  | nil => simp
  | dynamic _ => simp
  | fixed _ _ => simp

theorem spelledBy_iff {type : FieldType} {text : List Char} :
    type.SpelledBy text ↔ type.base.SpelledBy (baseChars text) ∧
      Dimension.AllSpelledBy type.dims (suffixChars text) := by
  constructor
  · rintro ⟨front, suffixes, rfl, hbase, hdims⟩
    obtain ⟨hfront, hsuffixes⟩ := chars_append hbase hdims
    rw [hfront, hsuffixes]
    exact ⟨hbase, hdims⟩
  · rintro ⟨hbase, hdims⟩
    exact ⟨_, _, List.takeWhile_append_dropWhile.symm, hbase, hdims⟩

theorem parse_eq_ok_iff {field text : String} {type : FieldType} :
    parse field text = .ok type ↔ type.SpelledBy (Text.trim text.toList) := by
  rw [spelledBy_iff, ← BaseType.parse?_eq_some_iff, ← Dimension.parseList?_eq_some_iff]
  obtain ⟨base, dims⟩ := type
  dsimp only [parse]
  split
  · rename_i hbase
    simp [hbase]
  · rename_i _ hbase
    split
    · rename_i hdims
      simp [hdims]
    · rename_i _ hdims
      simp [hbase, hdims]

/-- A base that cannot be read is reported before anything that is wrong with the suffixes. -/
theorem parse_eq_error {field text : String} {error : SchemaError}
    (h : parse field text = .error error) :
    ((¬ ∃ base : BaseType, base.SpelledBy (baseChars (Text.trim text.toList))) ∧
        error = .unsupportedType field (String.ofList (Text.trim text.toList))) ∨
      ((∃ base : BaseType, base.SpelledBy (baseChars (Text.trim text.toList))) ∧
        error = .invalidDimension field (String.ofList (Text.trim text.toList))) := by
  dsimp only [parse] at h
  split at h
  · rename_i hbase
    cases h
    refine .inl ⟨?_, rfl⟩
    rintro ⟨base, hspelled⟩
    rw [hspelled.parse?] at hbase
    cases hbase
  · rename_i base hbase
    split at h
    · cases h
      exact .inr ⟨⟨base, BaseType.parse?_eq_some_iff.mp hbase⟩, rfl⟩
    · cases h

end FieldType

theorem BaseType.spelledBy_render_fixedPoint {signed : Bool} {bits decimals : Nat}
    (hbits : IsWidth bits) (hdecimals : decimals ≤ 80) :
    SpelledBy (.leaf (.primitive (.fixedPoint signed bits decimals)))
      (Primitive.fixedPoint signed bits decimals).render := by
  change SpelledBy _
    (fixedPointName signed ++ Numeral.render bits ++ 'x' :: Numeral.render decimals)
  rw [List.append_assoc]
  exact .fixedPoint hbits hdecimals

/-- The canonical text of a base is one of its spellings, if it has any. -/
theorem BaseType.SpelledBy.render {base : BaseType} {text : List Char} (h : base.SpelledBy text) :
    base.SpelledBy base.render := by
  cases h with
  | tuple => exact .tuple
  | bool => exact .bool
  | address => exact .address
  | bytes => exact .bytes
  | string => exact .string
  | uintDefault => exact .uint (by decide)
  | intDefault => exact .int (by decide)
  | fixedPointDefault signed => exact spelledBy_render_fixedPoint (by decide) (by decide)
  | fixedBytes hsize => exact .fixedBytes hsize
  | uint hbits => exact .uint hbits
  | int hbits => exact .int hbits
  | fixedPoint hbits hdecimals => exact spelledBy_render_fixedPoint hbits hdecimals

/-- Suffixes have no other spelling than the canonical one. -/
theorem Dimension.AllSpelledBy.eq_flatMap_render {dims : List Dimension} {text : List Char}
    (h : AllSpelledBy dims text) : text = dims.flatMap Dimension.render := by
  induction h with
  | nil => rfl
  | dynamic _ ih => simp [Dimension.render, ih]
  | fixed _ _ ih => simp [Dimension.render, ih]

namespace FieldType

theorem SpelledBy.render {type : FieldType} {text : List Char} (h : type.SpelledBy text) :
    type.SpelledBy type.render.toList := by
  obtain ⟨base, suffixes, _, hbase, hdims⟩ := h
  rw [FieldType.render, String.toList_ofList]
  refine ⟨_, _, rfl, hbase.render, ?_⟩
  rwa [← hdims.eq_flatMap_render]

/-- A text is read as the type that the grammar derives it for, without the blanks around it,
as a base with suffixes. Otherwise the base is reported if it is at fault, and the dimensions
if it is not. Every type of the grammar is read back from its canonical text. -/
theorem parse_follows_grammar (field text : String) :
    (∀ type : FieldType, parse field text = .ok type ↔ ∃ base suffixes,
      Text.trim text.toList = base ++ suffixes ∧ type.base.SpelledBy base ∧
        Dimension.AllSpelledBy type.dims suffixes) ∧
    (∀ (type : FieldType) base suffixes, Text.trim text.toList = base ++ suffixes →
      type.base.SpelledBy base → Dimension.AllSpelledBy type.dims suffixes →
        suffix text = String.ofList suffixes) ∧
    (∀ error, parse field text = .error error ↔
      (¬ ∃ type : FieldType, type.SpelledBy (Text.trim text.toList)) ∧
      (((¬ ∃ base : BaseType, base.SpelledBy ((Text.trim text.toList).takeWhile (· != '['))) ∧
          error = .unsupportedType field (String.ofList (Text.trim text.toList))) ∨
        ((∃ base : BaseType, base.SpelledBy ((Text.trim text.toList).takeWhile (· != '['))) ∧
          error = .invalidDimension field (String.ofList (Text.trim text.toList))))) ∧
    ∀ (type : FieldType) spelling, type.SpelledBy spelling →
      parse field type.render = .ok type := by
  refine ⟨fun type => parse_eq_ok_iff, ?_, ?_, ?_⟩
  · intro type base suffixes hsplit hbase hdims
    rw [suffix, hsplit, (chars_append hbase hdims).2]
  · intro error
    constructor
    · intro h
      refine ⟨?_, parse_eq_error h⟩
      rintro ⟨type, hspelled⟩
      rw [parse_eq_ok_iff.mpr hspelled] at h
      cases h
    · rintro ⟨hnone, hreported⟩
      cases houtcome : parse field text with
      | ok type => exact absurd ⟨type, parse_eq_ok_iff.mp houtcome⟩ hnone
      | error other =>
        -- Whether the base is at fault decides which of the two errors it is.
        rcases parse_eq_error houtcome with ⟨hbase, rfl⟩ | ⟨hbase, rfl⟩ <;>
          rcases hreported with ⟨hother, rfl⟩ | ⟨hother, rfl⟩
        · rfl
        · exact absurd hother hbase
        · exact absurd hbase hother
        · rfl
  · intro type spelling hspelled
    have hrendered := hspelled.render
    rw [parse_eq_ok_iff, hrendered.trim_eq_self]
    exact hrendered

/-- Blanks around a sized base with two suffixes. -/
theorem parse_follows_grammar_prices :
    let type : FieldType := ⟨.leaf (.primitive (.fixedPoint false 64 10)), [.fixed 2, .dynamic]⟩
    Text.trim " ufixed64x10[2][] ".toList = "ufixed64x10".toList ++ "[2][]".toList ∧
      type.base.SpelledBy "ufixed64x10".toList ∧
      Dimension.AllSpelledBy type.dims "[2][]".toList ∧
      parse "price" " ufixed64x10[2][] " = .ok type ∧
      suffix " ufixed64x10[2][] " = "[2][]" ∧
      parse "price" type.render = .ok type := by
  intro type
  have hsplit : Text.trim " ufixed64x10[2][] ".toList =
      "ufixed64x10".toList ++ "[2][]".toList := rfl
  have hbase : type.base.SpelledBy "ufixed64x10".toList :=
    @BaseType.SpelledBy.fixedPoint false 64 10 (by decide) (by decide)
  have hdims : Dimension.AllSpelledBy type.dims "[2][]".toList :=
    @Dimension.AllSpelledBy.fixed 2 [.dynamic] ['[', ']'] (by decide) (.dynamic .nil)
  obtain ⟨haccepts, hsuffix, _, hrender⟩ := parse_follows_grammar "price" " ufixed64x10[2][] "
  exact ⟨hsplit, hbase, hdims, (haccepts type).mpr ⟨_, _, hsplit, hbase, hdims⟩,
    hsuffix type _ _ hsplit hbase hdims, hrender type _ ⟨_, _, rfl, hbase, hdims⟩⟩

end FieldType

end RecordCodec
