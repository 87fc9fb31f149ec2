import RecordCodec.Proofs.Encoding.Conformance
import RecordCodec.Proofs.Json.Integer
import RecordCodec.Proofs.Json.Interchange

/-!
# What conversion leaves to the encoder

A value that a shape reads from JSON is of the right kind in every place, and its tuples have
a value for each component. So what the encoder can still refuse are the ranges of numbers,
the lengths of byte strings and arrays of a fixed size, and lengths that have no room in a
header.
-/

namespace RecordCodec

namespace Leaf

theorem kind_of_ofJson {type : Leaf} {json : Json} {value : Value}
    (h : type.ofJson json = .ok value) : value.kind = type.kind := by
  cases type with
  | primitive type =>
    cases type with
    | bool =>
      cases json with
      | bool flag =>
        cases h
        rfl
      | _ => cases h
    | address =>
      obtain ⟨payload, -, h⟩ := Outcome.bind_eq_ok.mp h
      obtain ⟨-, rfl⟩ := Outcome.check_eq_ok.mp h
      rfl
    | uint | int | fixedPoint =>
      rw [ofJson_of_isInteger (by trivial)] at h
      rw [kind_of_isInteger (by trivial)]
      split at h
      · rename_i hsigned
        obtain ⟨word, -, rfl⟩ := Outcome.map_eq_ok.mp h
        exact (if_pos hsigned).symm
      · rename_i hsigned
        obtain ⟨word, -, rfl⟩ := Outcome.map_eq_ok.mp h
        exact (if_neg hsigned).symm
  | fixedBytes size =>
    obtain ⟨payload, -, rfl⟩ := Outcome.map_eq_ok.mp h
    rfl
  | bytes =>
    obtain ⟨payload, -, rfl⟩ := Outcome.map_eq_ok.mp h
    rfl
  | string =>
    cases json with
    | string text =>
      cases h
      rfl
    | _ => cases h

end Leaf

theorem Json.Holds.length_eq {names : List String} {json : Json} {parts : List (Option Json)}
    (h : json.Holds names parts) : parts.length = names.length := by
  cases h with
  | items hlength => rw [List.length_map, hlength]
  | members => rw [List.length_map]

namespace Shape

/-- A tuple is read from the parts of an array or an object. -/
theorem ofJson_tuple_eq_ok {components : List (String × Shape)} {path : Path} {json : Json}
    {value : Value} (h : (tuple components).ofJson path json = .ok value) :
    ∃ parts values, parts.length = components.length ∧
      partsOfJson components path parts = .ok values ∧ value = .tuple values := by
  have hparts {parts : List (Option Json)} (hholds : json.Holds (components.map Prod.fst) parts) :
      ∃ parts values, parts.length = components.length ∧
        partsOfJson components path parts = .ok values ∧ value = .tuple values := by
    have hlength := hholds.length_eq
    rw [List.length_map] at hlength
    rw [ofJson_tuple_of_holds hholds] at h
    obtain ⟨values, hvalues, hvalue⟩ := Outcome.bind_eq_ok.mp h
    cases hvalue
    exact ⟨parts, values, hlength, hvalues, rfl⟩
  cases json with
  | array items =>
    rw [ofJson] at h
    split at h
    · rename_i hlength
      exact hparts (.items (by rw [hlength, List.length_map]))
    · cases h
  | object members => exact hparts .members
  | _ => cases h

theorem forall_mem_of_itemsOfJson {element : Shape} {motive : Value → Prop}
    (h : ∀ path json value, element.ofJson path json = .ok value → motive value) {path : Path}
    {i : Nat} {items : List Json} {values : List Value}
    (hitems : itemsOfJson element.ofJson path i items = .ok values) :
    ∀ value ∈ values, motive value := by
  induction items generalizing i values with
  | nil =>
    cases hitems
    simp
  | cons item items ih =>
    rw [itemsOfJson] at hitems
    obtain ⟨first, hfirst, hitems⟩ := Outcome.bind_eq_ok.mp hitems
    obtain ⟨rest, hrest, hitems⟩ := Outcome.bind_eq_ok.mp hitems
    cases hitems
    exact List.forall_mem_cons.mpr ⟨h _ _ _ hfirst, ih hrest⟩

mutual

/-- What a shape reads from JSON is a value that it admits. -/
theorem admits_of_ofJson : (shape : Shape) → (path : Path) → (json : Json) → (value : Value) →
    shape.ofJson path json = .ok value → shape.Admits value
  | leaf type, path, json, value, h => by
    rw [Admits]
    exact Leaf.kind_of_ofJson (ofJson_leaf_eq_ok.mp h)
  | tuple components, path, json, value, h => by
    obtain ⟨parts, values, hlength, hvalues, rfl⟩ := ofJson_tuple_eq_ok h
    rw [Admits]
    exact admitsAll_of_partsOfJson components path parts values hlength hvalues
  | array dim element, path, json, value, h => by
    cases json with
    | array items =>
      rw [ofJson] at h
      obtain ⟨values, hvalues, hvalue⟩ := Outcome.bind_eq_ok.mp h
      cases hvalue
      rw [Admits]
      exact forall_mem_of_itemsOfJson (fun path json value =>
        admits_of_ofJson element path json value) hvalues
    | _ => cases h

theorem admitsAll_of_partsOfJson : (components : List (String × Shape)) → (path : Path) →
    (parts : List (Option Json)) → (values : List Value) → parts.length = components.length →
      partsOfJson components path parts = .ok values → AdmitsAll components values
  | [], path, [], values, _, h => by
    cases h
    rw [AdmitsAll]
    trivial
  | (name, shape) :: components, path, none :: parts, values, _, h => by cases h
  | (name, shape) :: components, path, some item :: parts, values, hlength, h => by
    rw [partsOfJson] at h
    obtain ⟨first, hfirst, h⟩ := Outcome.bind_eq_ok.mp h
    obtain ⟨rest, hrest, h⟩ := Outcome.bind_eq_ok.mp h
    cases h
    rw [AdmitsAll]
    exact ⟨admits_of_ofJson shape _ item first hfirst,
      admitsAll_of_partsOfJson components path parts rest (Nat.succ.inj hlength) hrest⟩

end

end Shape

namespace Place

/-- The value is of the kind that the shape asks for, and a tuple has a value for each
component. -/
def Agrees (place : Place) : Prop :=
  place.value.kind = place.shape.kind ∧
    ∀ components, place.shape = .tuple components → place.value.length = components.length

/-- What an error says of a number out of range, and of a byte string or an array of a fixed
size that has another length. -/
inductive OutOfBounds (path : Path) (place : Place) : EncodeError → Prop
  | range {type : Primitive} (htype : type.IsInteger)
      (hshape : place.shape = .leaf (.primitive type)) :
      OutOfBounds path place (.valueOutOfRange (path.along place.steps) type.bitSize)
  | payload {size : Nat} (hshape : place.shape = .leaf (.fixedBytes size))
      (h : place.value.length ≠ size) :
      OutOfBounds path place (.lengthMismatch (path.along place.steps) size place.value.length)
  | elements {size : Nat} {element : Shape} (hshape : place.shape = .array (.fixed size) element)
      (h : place.value.length ≠ size) :
      OutOfBounds path place (.lengthMismatch (path.along place.steps) size place.value.length)

/-- What an error says of a place that agrees with its shape. -/
inductive Refused (path : Path) (place : Place) : EncodeError → Prop
  | bounds {error : EncodeError} (h : place.OutOfBounds path error) : Refused path place error
  | header (hkind : place.value.kind = place.shape.kind) (hheader : place.shape.HasHeader)
      (h : 2 ^ 32 ≤ place.value.length) :
      Refused path place (.tooLong (path.along place.steps) place.value.length)

variable {path : Path} {place : Place} {error : EncodeError}

theorem OutOfBounds.behind {step : Step} (h : place.OutOfBounds (path.push step) error) :
    (place.behind step).OutOfBounds path error := by
  cases h with
  | range htype hshape =>
    rw [Path.along_push]
    exact .range htype hshape
  | payload hshape h =>
    rw [Path.along_push]
    exact .payload hshape h
  | elements hshape h =>
    rw [Path.along_push]
    exact .elements hshape h

theorem Refused.behind {step : Step} (h : place.Refused (path.push step) error) :
    (place.behind step).Refused path error := by
  cases h with
  | bounds h => exact .bounds h.behind
  | header hkind hheader h =>
    rw [Path.along_push]
    exact .header hkind hheader h

theorem Refused.outOfBounds (h : place.Refused path error) (hheader : place.HeaderFits) :
    place.OutOfBounds path error := by
  cases h with
  | bounds h => exact h
  | header hkind hhas h => exact absurd (hheader hkind hhas) (Nat.not_lt.mpr h)

theorem Refused.ne_typeMismatch (h : place.Refused path error) (inside : Path)
    (expected found : Kind) : error ≠ .typeMismatch inside expected found := by
  rintro rfl
  obtain ⟨⟨⟩⟩ := h

end Place

/-- If encoding fails, its error refuses one of the places. -/
def Refuses (path : Path) (places : List Place) (x : Except EncodeError Bytes) : Prop :=
  ∀ error, x = .error error → ∃ place ∈ places, place.Refused path error

namespace Refuses

variable {path : Path} {x y : Except EncodeError Bytes} {front back : List Place}

theorem ok {out : Bytes} : Refuses path back (.ok out) := by
  rintro error ⟨⟩

theorem mono (h : Refuses path front x) (hsubset : front ⊆ back) : Refuses path back x := by
  intro error hx
  obtain ⟨place, hmem, hrefused⟩ := h error hx
  exact ⟨place, hsubset hmem, hrefused⟩

theorem seq (hx : Refuses path front x) (hy : Refuses path back y) :
    Refuses path (front ++ back) (x >>= fun first => y >>= fun rest => pure (first ++ rest)) := by
  intro error herror
  rcases Outcome.bind_eq_error.mp herror with hfirst | ⟨first, -, hrest⟩
  · exact hx.mono (List.subset_append_left _ _) error hfirst
  · rcases Outcome.bind_eq_error.mp hrest with hrest | ⟨rest, -, hnever⟩
    · exact hy.mono (List.subset_append_right _ _) error hrest
    · cases hnever

/-- What is refused in a part is refused in the whole, one step further up. -/
theorem behind {step : Step} (h : Refuses (path.push step) back x) :
    Refuses path (back.map (.behind step)) x := by
  intro error hx
  obtain ⟨place, hmem, hrefused⟩ := h error hx
  exact ⟨_, List.mem_map_of_mem hmem, hrefused.behind⟩

/-- A check of the value itself. -/
theorem check {p : Prop} [Decidable p] {out : Bytes} {error : Path → EncodeError} {shape : Shape}
    {value : Value} (h : ¬ p → Place.Refused path ⟨[], shape, value⟩ (error (path.along []))) :
    Refuses path [⟨[], shape, value⟩] (if p then .ok out else .error (error path)) := by
  intro other hother
  obtain ⟨hp, rfl⟩ := Outcome.check_eq_error.mp hother
  rw [Path.along_nil] at h
  exact ⟨_, List.mem_singleton_self _, h hp⟩

theorem header {shape : Shape} {value : Value} (hkind : value.kind = shape.kind)
    (hheader : shape.HasHeader) :
    Refuses path [⟨[], shape, value⟩] (Header.encode path value.length) := by
  rw [Header.encode]
  apply check
  intro hlarge
  exact .header hkind hheader (Nat.not_lt.mp hlarge)

end Refuses

namespace Leaf

variable {path : Path}

theorem refuses_encodeCounted {type : Leaf} {value : Value} {payload : Bytes}
    (hkind : value.kind = type.kind) (hlength : value.length = payload.length)
    (hheader : (Shape.leaf type).HasHeader) :
    Refuses path [⟨[], .leaf type, value⟩] (encodeCounted path payload) := by
  intro error herror
  rcases Outcome.bind_eq_error.mp herror with hfirst | ⟨first, -, hnever⟩
  · have hheader : Refuses path [⟨[], .leaf type, value⟩] (Header.encode path value.length) :=
      .header hkind hheader
    rw [← hlength] at hfirst
    exact hheader error hfirst
  · cases hnever

theorem refuses_encode_integer {type : Primitive} (htype : type.IsInteger) (w : Word) :
    Refuses path [⟨[], .leaf (.primitive type), type.integer w⟩]
      ((primitive type).encode path (type.integer w)) := by
  rw [Primitive.encode_integer htype]
  split
  · rw [encodeSigned]
    apply Refuses.check
    intro _
    exact .bounds (.range htype rfl)
  · rw [encodeUnsigned]
    apply Refuses.check
    intro _
    exact .bounds (.range htype rfl)

theorem refuses_encode_primitive {type : Primitive} {value : Value}
    (hkind : value.kind = (primitive type).kind) :
    Refuses path [⟨[], .leaf (.primitive type), value⟩] ((primitive type).encode path value) := by
  cases type with
  | bool =>
    cases value with
    | bool flag => exact .ok
    | _ => cases hkind
  | address =>
    cases value with
    | address account => exact .ok
    | _ => cases hkind
  | uint | int | fixedPoint =>
    obtain ⟨w, rfl⟩ := Primitive.exists_integer (by trivial) hkind
    exact refuses_encode_integer (by trivial) w

theorem refuses_encode {type : Leaf} {value : Value} (hkind : value.kind = type.kind) :
    Refuses path [⟨[], .leaf type, value⟩] (type.encode path value) := by
  cases type with
  | primitive type => exact refuses_encode_primitive hkind
  | fixedBytes size =>
    cases value with
    | fixedBytes payload =>
      rw [encode]
      apply Refuses.check
      intro hlength
      exact .bounds (.payload rfl hlength)
    | _ => cases hkind
  | bytes =>
    cases value with
    | bytes payload => exact refuses_encodeCounted hkind rfl trivial
    | _ => cases hkind
  | string =>
    cases value with
    | string text => exact refuses_encodeCounted hkind rfl trivial
    | _ => cases hkind

end Leaf

namespace Shape

variable {path : Path}

theorem refuses_encodeElements {element : Shape} {values : List Value}
    (h : ∀ value ∈ values, ∀ path, Refuses path (element.places value) (element.encode path value))
    (i : Nat) :
    Refuses path (elementPlaces element.places i values)
      (encodeElements element.encode path i values) := by
  induction values generalizing i with
  | nil => exact .ok
  | cons value values ih =>
    obtain ⟨hvalue, hvalues⟩ := List.forall_mem_cons.mp h
    exact .seq (.behind (hvalue _)) (ih hvalues (i + 1))

theorem refuses_encodeCount {dim : Dimension} {element : Shape} {values : List Value} :
    Refuses path [⟨[], .array dim element, .array values⟩]
      (dim.encodeCount path values.length) := by
  cases dim with
  | fixed size =>
    rw [Dimension.encodeCount]
    apply Refuses.check
    intro hlength
    exact .bounds (.elements rfl hlength)
  | dynamic => exact .header rfl trivial

mutual

/-- For a value that the shape admits, encoding refuses ranges and lengths, but no kinds. -/
theorem refuses_encode : (shape : Shape) → (path : Path) → (value : Value) →
    shape.Admits value → Refuses path (shape.places value) (shape.encode path value)
  | leaf type, path, value, h => by
    rw [Admits] at h
    rw [places_leaf, encode]
    exact Leaf.refuses_encode h
  | tuple components, path, value, h => by
    cases value with
    | tuple values =>
      rw [Admits] at h
      rw [encode, if_pos (length_eq_of_admitsAll h), places]
      exact (refuses_encodeComponents components path values h).mono (List.subset_cons_self _ _)
    | _ => simp [Admits] at h
  | array dim element, path, value, h => by
    cases value with
    | array values =>
      rw [Admits] at h
      rw [encode, places]
      exact .seq refuses_encodeCount (refuses_encodeElements (fun value hmem path =>
        refuses_encode element path value (h value hmem)) 0)
    | _ => simp [Admits] at h

theorem refuses_encodeComponents : (components : List (String × Shape)) → (path : Path) →
    (values : List Value) → AdmitsAll components values →
      Refuses path (componentPlaces components values) (encodeComponents components path values)
  | [], path, values, h => .ok
  | (name, shape) :: components, path, [], h => .ok
  | (name, shape) :: components, path, value :: values, h => by
    rw [AdmitsAll] at h
    rw [encodeComponents, componentPlaces]
    exact .seq (.behind (refuses_encode shape _ value h.1))
      (refuses_encodeComponents components path values h.2)

end

mutual

theorem agrees_of_admits : (shape : Shape) → (value : Value) → shape.Admits value →
    ∀ place ∈ shape.places value, place.Agrees
  | leaf type, value, h => by
    rw [Admits] at h
    rw [places_leaf, List.forall_mem_singleton]
    exact ⟨h, by rintro _ ⟨⟩⟩
  | tuple components, value, h => by
    cases value with
    | tuple values =>
      rw [Admits] at h
      have hhere : Place.Agrees ⟨[], .tuple components, .tuple values⟩ := by
        refine ⟨rfl, ?_⟩
        rintro _ ⟨⟩
        exact length_eq_of_admitsAll h
      rw [places]
      exact List.forall_mem_cons.mpr ⟨hhere, agrees_of_admitsAll components values h⟩
    | _ => simp [Admits] at h
  | array dim element, value, h => by
    cases value with
    | array values =>
      rw [Admits] at h
      rw [places, List.forall_mem_cons, forall_elementPlaces_iff fun _ _ => Iff.rfl]
      refine ⟨⟨rfl, by rintro _ ⟨⟩⟩, ?_⟩
      exact fun value hmem => agrees_of_admits element value (h value hmem)
    | _ => simp [Admits] at h

theorem agrees_of_admitsAll : (components : List (String × Shape)) → (values : List Value) →
    AdmitsAll components values → ∀ place ∈ componentPlaces components values, place.Agrees
  | [], values, h => by simp [componentPlaces]
  | (name, shape) :: components, [], h => by simp [componentPlaces]
  | (name, shape) :: components, value :: values, h => by
    rw [AdmitsAll] at h
    rw [componentPlaces, List.forall_mem_append, List.forall_mem_map]
    exact ⟨agrees_of_admits shape value h.1, agrees_of_admitsAll components values h.2⟩

end

/-- What is read from JSON agrees with the shape in every place. So encoding it refuses no
kind and no tuple, and if lengths have room in their headers, then only what is out of
bounds. -/
theorem ofJson_agrees_with_encode {shape : Shape} {path : Path} {json : Json} {value : Value}
    (h : shape.ofJson path json = .ok value) :
    (∀ place ∈ shape.places value, place.Agrees) ∧
      ∀ error, shape.encode path value = .error error →
        (∀ inside expected found, error ≠ .typeMismatch inside expected found) ∧
        (∃ place ∈ shape.places value, place.Refused path error) ∧
        ((∀ place ∈ shape.places value, place.HeaderFits) →
          ∃ place ∈ shape.places value, place.OutOfBounds path error) := by
  have hadmits := admits_of_ofJson shape path json value h
  refine ⟨agrees_of_admits shape value hadmits, ?_⟩
  intro error herror
  obtain ⟨place, hmem, hrefused⟩ := refuses_encode shape path value hadmits error herror
  refine ⟨hrefused.ne_typeMismatch, ⟨place, hmem, hrefused⟩, ?_⟩
  intro hheaders
  exact ⟨place, hmem, hrefused.outOfBounds (hheaders place hmem)⟩

/-- A row with a byte too many is read, and only its encoding refuses it. -/
theorem ofJson_agrees_with_encode_long_row :
    let shape : Shape := .tuple [("count", .leaf (.primitive (.uint 8))),
      ("rows", .array (.fixed 2) (.leaf (.fixedBytes 2)))]
    let json : Json :=
      .object [("rows", .array [.string "0x0102", .string "0x010203"]), ("count", .int 7)]
    let value : Value := .tuple [.uint 7, .array [.fixedBytes [1, 2], .fixedBytes [1, 2, 3]]]
    let error : EncodeError := .lengthMismatch ⟨"r", [.component "rows", .index 1]⟩ 2 3
    shape.ofJson (.ofName "r") json = .ok value ∧
      shape.encode (.ofName "r") value = .error error ∧
      (∀ place ∈ shape.places value, place.HeaderFits) ∧
      ∃ place ∈ shape.places value, place.OutOfBounds (.ofName "r") error := by
  intro shape json value error
  have hread : shape.ofJson (.ofName "r") json = .ok value := rfl
  have hencode : shape.encode (.ofName "r") value = .error error := rfl
  have hheaders : ∀ place ∈ shape.places value, place.HeaderFits := by
    simp [shape, value, places, componentPlaces, elementPlaces, Place.behind, Place.HeaderFits,
      HasHeader]
  obtain ⟨-, hrefused⟩ := ofJson_agrees_with_encode hread
  obtain ⟨-, -, hbounds⟩ := hrefused error hencode
  exact ⟨hread, hencode, hheaders, hbounds hheaders⟩

end Shape

end RecordCodec
