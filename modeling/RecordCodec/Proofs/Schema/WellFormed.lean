import RecordCodec.Proofs.Outcome
import RecordCodec.Schema.Shape

/-!
# Well-formed shapes

Resolving a schema yields only shapes whose parts all occupy room on the wire:
leaves of a fixed width are one to 32 whole bytes wide, fixed dimensions are
positive and tuples have components. The last theorem says so; the others follow
the reading of a type from its text down to single sizes.
-/

namespace RecordCodec

/-- The width is at least one byte, whole bytes, and at most a word. -/
def Primitive.WellFormed (type : Primitive) : Prop :=
  0 < type.bitSize ∧ 8 ∣ type.bitSize ∧ type.bitSize ≤ 256

def Leaf.WellFormed : Leaf → Prop
  | .primitive type => type.WellFormed
  | .fixedBytes size => 0 < size ∧ size ≤ 32
  | .bytes | .string => True

def BaseType.WellFormed : BaseType → Prop
  | .leaf type => type.WellFormed
  | .tuple => True

def Dimension.WellFormed : Dimension → Prop
  | .fixed size => 0 < size
  | .dynamic => True

inductive Shape.WellFormed : Shape → Prop
  | leaf {type : Leaf} (htype : type.WellFormed) : WellFormed (.leaf type)
  | tuple {components : List (String × Shape)} (hne : components ≠ [])
      (hcomponents : ∀ component ∈ components, WellFormed component.2) :
      WellFormed (.tuple components)
  | array {dim : Dimension} {element : Shape} (hdim : dim.WellFormed)
      (helement : WellFormed element) : WellFormed (.array dim element)

namespace BaseType

theorem width?_eq_some {text : List Char} {bits : Nat} (h : width? text = some bits) :
    0 < bits ∧ 8 ∣ bits ∧ bits ≤ 256 := by
  simp only [width?, Option.bind_eq_bind, Option.bind_eq_some_iff] at h
  obtain ⟨n, _, hn⟩ := h
  split at hn
  · rename_i hwidth
    cases hn
    exact ⟨hwidth.1, Nat.dvd_of_mod_eq_zero hwidth.2.2, hwidth.2.1⟩
  · cases hn

theorem uint?_wellFormed {size : List Char} {type : Leaf} (h : uint? size = some type) :
    type.WellFormed := by
  simp only [uint?, Option.bind_eq_bind, Option.bind_eq_some_iff] at h
  obtain ⟨bits, hbits, htype⟩ := h
  cases htype
  exact width?_eq_some hbits

theorem int?_wellFormed {size : List Char} {type : Leaf} (h : int? size = some type) :
    type.WellFormed := by
  simp only [int?, Option.bind_eq_bind, Option.bind_eq_some_iff] at h
  obtain ⟨bits, hbits, htype⟩ := h
  cases htype
  exact width?_eq_some hbits

theorem fixedBytes?_wellFormed {size : List Char} {type : Leaf}
    (h : fixedBytes? size = some type) : type.WellFormed := by
  simp only [fixedBytes?, Option.bind_eq_bind, Option.bind_eq_some_iff] at h
  obtain ⟨n, _, htype⟩ := h
  split at htype
  · rename_i hn
    cases htype
    exact hn
  · cases htype

theorem fixedPoint?_wellFormed {signed : Bool} {size : List Char} {type : Leaf}
    (h : fixedPoint? signed size = some type) : type.WellFormed := by
  unfold fixedPoint? at h
  split at h
  · cases h
  · simp only [Option.bind_eq_bind, Option.bind_eq_some_iff] at h
    obtain ⟨bits, hbits, decimals, _, htype⟩ := h
    split at htype
    · cases htype
      exact width?_eq_some hbits
    · cases htype

/-- Whichever family of sized types a text names, its size is within bounds. -/
theorem sized?_wellFormed {text : List Char} {type : Leaf} (h : sized? text = some type) :
    type.WellFormed := by
  obtain ⟨⟨name, read⟩, hmem, hread⟩ := List.exists_of_findSome?_eq_some h
  obtain ⟨rest, _, htype⟩ := Option.bind_eq_some_iff.mp hread
  simp only [families, List.mem_cons, List.not_mem_nil, or_false, Prod.mk.injEq] at hmem
  rcases hmem with ⟨_, rfl⟩ | ⟨_, rfl⟩ | ⟨_, rfl⟩ | ⟨_, rfl⟩ | ⟨_, rfl⟩
  · exact fixedBytes?_wellFormed htype
  · exact uint?_wellFormed htype
  · exact int?_wellFormed htype
  · exact fixedPoint?_wellFormed htype
  · exact fixedPoint?_wellFormed htype

theorem keywords_wellFormed {text : List Char} {base : BaseType} (h : (text, base) ∈ keywords) :
    base.WellFormed := by
  simp only [keywords, List.mem_cons, List.not_mem_nil, or_false, Prod.mk.injEq] at h
  rcases h with ⟨_, rfl⟩ | ⟨_, rfl⟩ | ⟨_, rfl⟩ | ⟨_, rfl⟩ | ⟨_, rfl⟩ | ⟨_, rfl⟩ | ⟨_, rfl⟩ |
    ⟨_, rfl⟩ | ⟨_, rfl⟩
  all_goals trivial

theorem parse?_wellFormed {text : List Char} {base : BaseType} (h : parse? text = some base) :
    base.WellFormed := by
  unfold parse? at h
  split at h
  · rename_i keyword hkeyword
    cases h
    obtain ⟨front, back, hkeywords, _⟩ := List.lookup_eq_some_iff.mp hkeyword
    have hmem : (text, base) ∈ keywords := by simp [hkeywords]
    exact keywords_wellFormed hmem
  · obtain ⟨type, htype, rfl⟩ := Option.map_eq_some_iff.mp h
    exact sized?_wellFormed htype

end BaseType

namespace Dimension

theorem parse?_wellFormed {size : List Char} {dim : Dimension} (h : parse? size = some dim) :
    dim.WellFormed := by
  unfold parse? at h
  split at h
  · cases h
    trivial
  · simp only [Option.bind_eq_bind, Option.bind_eq_some_iff] at h
    obtain ⟨n, _, hdim⟩ := h
    split at hdim
    · rename_i hn
      cases hdim
      exact hn.1
    · cases hdim

theorem readList_wellFormed {size? : Option (List Char)} {text : List Char}
    {dims : List Dimension} (h : readList size? text = some dims) :
    ∀ dim ∈ dims, dim.WellFormed := by
  induction text generalizing size? dims with
  | nil =>
    cases size? with
    | none =>
      cases h
      simp
    | some size => cases h
  | cons c rest ih =>
    cases size? with
    | none =>
      rw [readList] at h
      split at h
      · exact ih h
      · cases h
    | some size =>
      rw [readList] at h
      split at h
      · simp only [Option.bind_eq_bind, Option.bind_eq_some_iff] at h
        obtain ⟨first, hfirst, others, hothers, hdims⟩ := h
        cases hdims
        intro dim hdim
        rcases List.mem_cons.mp hdim with rfl | hdim
        · exact parse?_wellFormed hfirst
        · exact ih hothers dim hdim
      · exact ih h

end Dimension

namespace FieldType

theorem parse_wellFormed {field text : String} {type : FieldType}
    (h : parse field text = .ok type) :
    type.base.WellFormed ∧ ∀ dim ∈ type.dims, dim.WellFormed := by
  dsimp only [parse] at h
  split at h
  · cases h
  · rename_i base hbase
    split at h
    · cases h
    · rename_i dims hdims
      cases h
      exact ⟨BaseType.parse?_wellFormed hbase, Dimension.readList_wellFormed hdims⟩

end FieldType

namespace Shape

theorem WellFormed.enclose {element : Shape} (helement : element.WellFormed)
    {dims : List Dimension} (hdims : ∀ dim ∈ dims, dim.WellFormed) :
    (element.enclose dims).WellFormed := by
  induction dims generalizing element with
  | nil => exact helement
  | cons dim dims ih =>
    rw [enclose_cons]
    exact ih (.array (hdims dim (by simp)) helement) fun dim h => hdims dim (by simp [h])

end Shape

namespace Schema

/-- Of a field only the type as such is read, and tuples are known to have components. -/
theorem fieldType_eq_ok {schema : Schema} {type : FieldType} (h : schema.fieldType = .ok type) :
    FieldType.parse schema.name schema.type = .ok type ∧
      (type.base = .tuple → schema.components ≠ []) := by
  unfold fieldType at h
  obtain ⟨parsed, hparsed, h⟩ := Outcome.bind_eq_ok.mp h
  split at h
  · cases h
  · rename_i hmissing
    split at h
    · cases h
    · cases h
      refine ⟨hparsed, ?_⟩
      intro htuple hempty
      simp [FieldType.isTuple, htuple, hempty] at hmissing

theorem length_resolveAll {schemas : List Schema} {components : List (String × Shape)}
    (h : resolveAll schemas = .ok components) : components.length = schemas.length := by
  induction schemas generalizing components with
  | nil =>
    cases h
    rfl
  | cons schema schemas ih =>
    rw [resolveAll] at h
    obtain ⟨shape, _, h⟩ := Outcome.bind_eq_ok.mp h
    obtain ⟨shapes, hshapes, h⟩ := Outcome.bind_eq_ok.mp h
    cases h
    simp [ih hshapes]

mutual

/-- Resolving a schema yields a well-formed shape. -/
theorem resolve_wellFormed : {schema : Schema} → {shape : Shape} →
    schema.resolve = .ok shape → shape.WellFormed
  | ⟨name, type, components⟩, shape, h => by
    rw [resolve] at h
    obtain ⟨fieldType, hfieldType, h⟩ := Outcome.bind_eq_ok.mp h
    obtain ⟨hparse, hcomponents⟩ := fieldType_eq_ok hfieldType
    obtain ⟨hbase, hdims⟩ := FieldType.parse_wellFormed hparse
    cases hcase : fieldType.base with
    | leaf leaf =>
      rw [hcase] at h hbase
      cases h
      exact Shape.WellFormed.enclose (.leaf hbase) hdims
    | tuple =>
      rw [hcase] at h
      obtain ⟨shapes, hshapes, h⟩ := Outcome.bind_eq_ok.mp h
      cases h
      refine Shape.WellFormed.enclose (.tuple ?_ (resolveAll_wellFormed hshapes)) hdims
      intro hnil
      have hlength := length_resolveAll hshapes
      rw [hnil] at hlength
      exact hcomponents hcase (List.length_eq_zero_iff.mp hlength.symm)

theorem resolveAll_wellFormed : {schemas : List Schema} → {components : List (String × Shape)} →
    resolveAll schemas = .ok components → ∀ component ∈ components, component.2.WellFormed
  | [], components, h => by
    cases h
    simp
  | schema :: schemas, components, h => by
    rw [resolveAll] at h
    obtain ⟨shape, hshape, h⟩ := Outcome.bind_eq_ok.mp h
    obtain ⟨shapes, hshapes, h⟩ := Outcome.bind_eq_ok.mp h
    cases h
    intro component hmem
    rcases List.mem_cons.mp hmem with rfl | hmem
    · exact resolve_wellFormed hshape
    · exact resolveAll_wellFormed hshapes component hmem

end

end Schema

end RecordCodec
