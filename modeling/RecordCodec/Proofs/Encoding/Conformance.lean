import RecordCodec.Proofs.Encoding.Success
import RecordCodec.Proofs.Schema.WellFormed
import RecordCodec.Proofs.Word.Sign

/-!
# Values that conform

What a shape asks of a value can be said place by place: the kind of the value, its length
where the shape has one, and for numbers the range of their type. A value conforms if it
does so in every place that it shares with the shape.

The places are listed as reading goes, each before those inside it. Encoding accepts what
conforms, and otherwise reports what is wrong with the first place that is not as it should
be, whatever is wrong behind it. So an error can be told from the value alone, without
following the encoder.
-/

namespace RecordCodec

/-- The bytes or parts that a value has, none for those of a fixed width. -/
def Value.length : Value → Nat
  | fixedBytes payload => payload.length
  | bytes payload => payload.length
  | string text => (Text.utf8 text).length
  | array items => items.length
  | tuple items => items.length
  | _ => 0

namespace Shape

/-- The kind of value that the shape takes. -/
def kind : Shape → Kind
  | leaf type => type.kind
  | tuple _ => .tuple
  | array _ _ => .array

/-- How long the value has to be, where the shape says so. -/
def length? : Shape → Option Nat
  | leaf (.fixedBytes size) => some size
  | tuple components => some components.length
  | array (.fixed size) _ => some size
  | _ => none

/-- The range of a number. A signed one is the two's complement number of its word. -/
def Holds : Shape → Value → Prop
  | leaf (.primitive type), .uint word => word.toNat < 2 ^ type.bitSize
  | leaf (.primitive type), .int word =>
    -2 ^ (type.bitSize - 1) ≤ word.toInt ∧ word.toInt < 2 ^ (type.bitSize - 1)
  | _, _ => True

/-- The length of the value is written in front of it. -/
def HasHeader : Shape → Prop
  | leaf .bytes => True
  | leaf .string => True
  | array .dynamic _ => True
  | _ => False

/-- A value as such is what the shape asks for, whatever its parts are. -/
structure Fits (shape : Shape) (value : Value) : Prop where
  kind : value.kind = shape.kind
  length : ∀ n ∈ shape.length?, value.length = n
  range : shape.Holds value

theorem Fits.of_any_length {shape : Shape} {value : Value} (hkind : value.kind = shape.kind)
    (hlength : shape.length? = none) (hrange : shape.Holds value) : shape.Fits value :=
  ⟨hkind, by simp [hlength], hrange⟩

theorem Fits.of_length {shape : Shape} {value : Value} {n : Nat} (hkind : value.kind = shape.kind)
    (hlength : shape.length? = some n) (h : value.length = n) (hrange : shape.Holds value) :
    shape.Fits value := by
  refine ⟨hkind, ?_, hrange⟩
  intro m hm
  rw [hlength] at hm
  cases hm
  exact h

/-- A value and all its parts are what the shape asks for. -/
inductive Conforms : Shape → Value → Prop
  | leaf {type : Leaf} {value : Value} (h : (leaf type).Fits value) :
      Conforms (.leaf type) value
  | tuple {components : List (String × Shape)} {values : List Value}
      (h : (tuple components).Fits (.tuple values))
      (hparts : ∀ pair ∈ components.zip values, Conforms pair.1.2 pair.2) :
      Conforms (.tuple components) (.tuple values)
  | array {dim : Dimension} {element : Shape} {values : List Value}
      (h : (array dim element).Fits (.array values))
      (hparts : ∀ value ∈ values, Conforms element value) :
      Conforms (.array dim element) (.array values)

theorem Conforms.fits {shape : Shape} {value : Value} (h : shape.Conforms value) :
    shape.Fits value := by
  cases h with
  | leaf h => exact h
  | tuple h => exact h
  | array h => exact h

end Shape

namespace Path

/-- Further down by some steps. -/
def along (path : Path) (steps : List Step) : Path := { path with steps := path.steps ++ steps }

@[simp] theorem along_nil (path : Path) : path.along [] = path := by
  simp [along]

theorem along_push (path : Path) (step : Step) (steps : List Step) :
    (path.push step).along steps = path.along (step :: steps) := by
  simp [along, push]

/-- The text of a path is its root followed by its steps. -/
theorem text_eq (path : Path) :
    path.text = path.root ++ String.join (path.steps.map Step.text) := by
  obtain ⟨root, steps⟩ := path
  unfold text
  induction steps generalizing root with
  | nil => simp
  | cons step steps ih =>
    rw [List.map_cons, String.join_cons, ← String.append_assoc]
    exact ih (root ++ step.text)

end Path

/-- Where the error was found. -/
def EncodeError.path : EncodeError → Path
  | typeMismatch path _ _ => path
  | valueOutOfRange path _ => path
  | lengthMismatch path _ _ => path
  | tooLong path _ => path

/-- Where a value is inside another, with what the shape asks for there. -/
structure Place where
  steps : List Step
  shape : Shape
  value : Value

namespace Place

/-- A place inside a part. -/
def behind (step : Step) (place : Place) : Place := { place with steps := step :: place.steps }

def Fits (place : Place) : Prop := place.shape.Fits place.value

/-- A length that is to be written in a header has room in it. -/
def HeaderFits (place : Place) : Prop :=
  place.value.kind = place.shape.kind → place.shape.HasHeader → place.value.length < 2 ^ 32

/-- What an error says of a place. The kind of the value is looked at first. -/
inductive Violates (path : Path) (place : Place) : EncodeError → Prop
  | kind (h : place.value.kind ≠ place.shape.kind) :
      Violates path place
        (.typeMismatch (path.along place.steps) place.shape.kind place.value.kind)
  | length {n : Nat} (hkind : place.value.kind = place.shape.kind)
      (hlength : place.shape.length? = some n) (h : place.value.length ≠ n) :
      Violates path place (.lengthMismatch (path.along place.steps) n place.value.length)
  | range {type : Primitive} (hkind : place.value.kind = place.shape.kind)
      (hshape : place.shape = .leaf (.primitive type)) (h : ¬ place.shape.Holds place.value) :
      Violates path place (.valueOutOfRange (path.along place.steps) type.bitSize)

theorem Violates.not_fits {path : Path} {place : Place} {error : EncodeError}
    (h : place.Violates path error) : ¬ place.Fits := by
  intro hfits
  cases h with
  | kind h => exact h hfits.kind
  | length _ hlength h => exact h (hfits.length _ hlength)
  | range _ _ h => exact h hfits.range

theorem Violates.behind {path : Path} {step : Step} {place : Place} {error : EncodeError}
    (h : place.Violates (path.push step) error) : (place.behind step).Violates path error := by
  cases h with
  | kind h =>
    rw [Path.along_push]
    exact .kind h
  | length hkind hlength h =>
    rw [Path.along_push]
    exact .length hkind hlength h
  | range hkind hshape h =>
    rw [Path.along_push]
    exact .range hkind hshape h

theorem Violates.path_eq {path : Path} {place : Place} {error : EncodeError}
    (h : place.Violates path error) : error.path = path.along place.steps := by
  cases h <;> rfl

end Place

namespace Shape

/-- The places inside the elements of an array, from index `i` on. -/
def elementPlaces (places : Value → List Place) : (i : Nat) → List Value → List Place
  | _, [] => []
  | i, value :: values =>
    (places value).map (.behind (.index i)) ++ elementPlaces places (i + 1) values

mutual

/-- The places that a shape and a value share, each before those inside it and these from
left to right. -/
def places : Shape → Value → List Place
  | tuple components, .tuple values =>
    ⟨[], tuple components, .tuple values⟩ :: componentPlaces components values
  | array dim element, .array values =>
    ⟨[], array dim element, .array values⟩ :: elementPlaces element.places 0 values
  | shape, value => [⟨[], shape, value⟩]

def componentPlaces : List (String × Shape) → List Value → List Place
  | (name, shape) :: components, value :: values =>
    (shape.places value).map (.behind (.component name)) ++ componentPlaces components values
  | _, _ => []

end

end Shape

/-- The error reports the first place that is not as it should be. -/
def FirstViolation (path : Path) (places : List Place) (error : EncodeError) : Prop :=
  FirstFailure Place.Fits (fun place => place.Violates path error) places

namespace Shape

theorem forall_elementPlaces_iff {motive : Place → Prop} {element : Shape} {values : List Value}
    {i : Nat} (hbehind : ∀ step place, motive (place.behind step) ↔ motive place) :
    (∀ place ∈ elementPlaces element.places i values, motive place) ↔
      ∀ value ∈ values, ∀ place ∈ element.places value, motive place := by
  induction values generalizing i with
  | nil => simp [elementPlaces]
  | cons value values ih =>
    rw [elementPlaces, List.forall_mem_append, List.forall_mem_map, List.forall_mem_cons, ih]
    simp only [hbehind]

theorem forall_componentPlaces_iff {motive : Place → Prop} {components : List (String × Shape)}
    {values : List Value} (hbehind : ∀ step place, motive (place.behind step) ↔ motive place) :
    (∀ place ∈ componentPlaces components values, motive place) ↔
      ∀ pair ∈ components.zip values, ∀ place ∈ pair.1.2.places pair.2, motive place := by
  induction components generalizing values with
  | nil => simp [componentPlaces]
  | cons component components ih =>
    cases values with
    | nil => simp [componentPlaces]
    | cons value values =>
      rw [componentPlaces, List.forall_mem_append, List.forall_mem_map, List.zip_cons_cons,
        List.forall_mem_cons, ih]
      simp only [hbehind]

@[simp] theorem places_leaf (type : Leaf) (value : Value) :
    (leaf type).places value = [⟨[], leaf type, value⟩] := by
  rw [places] <;> simp

/-- A value of another kind shares no parts with the shape. -/
theorem places_of_kind_ne {shape : Shape} {value : Value} (h : value.kind ≠ shape.kind) :
    shape.places value = [⟨[], shape, value⟩] := by
  cases shape with
  | leaf type => exact places_leaf type value
  | tuple components => cases value <;> first | rfl | exact absurd rfl h
  | array dim element => cases value <;> first | rfl | exact absurd rfl h

theorem conforms_iff_of_kind_ne {shape : Shape} {value : Value} (h : value.kind ≠ shape.kind) :
    shape.Conforms value ↔ ∀ place ∈ shape.places value, place.Fits := by
  rw [places_of_kind_ne h, List.forall_mem_singleton]
  exact iff_of_false (fun hconforms => h hconforms.fits.kind) fun hfits => h hfits.kind

/-- A value conforms if it is what the shape asks for in all places. -/
theorem WellFormed.conforms_iff {shape : Shape} (hshape : shape.WellFormed) {value : Value} :
    shape.Conforms value ↔ ∀ place ∈ shape.places value, place.Fits := by
  induction hshape generalizing value with
  | leaf htype =>
    rw [places_leaf, List.forall_mem_singleton]
    exact ⟨fun h => h.fits, fun h => .leaf h⟩
  | tuple hne hcomponents ih =>
    cases value with
    | tuple values =>
      rw [places, List.forall_mem_cons, forall_componentPlaces_iff fun _ _ => Iff.rfl]
      constructor
      · rintro (_ | ⟨hfits, hparts⟩ | _)
        refine ⟨hfits, fun pair hmem => ?_⟩
        exact (ih _ (List.of_mem_zip hmem).1).mp (hparts pair hmem)
      · rintro ⟨hfits, hparts⟩
        refine .tuple hfits fun pair hmem => ?_
        exact (ih _ (List.of_mem_zip hmem).1).mpr (hparts pair hmem)
    | _ => exact conforms_iff_of_kind_ne (by rintro ⟨⟩)
  | array hdim helement ih =>
    cases value with
    | array values =>
      rw [places, List.forall_mem_cons, forall_elementPlaces_iff fun _ _ => Iff.rfl]
      constructor
      · rintro (_ | _ | ⟨hfits, hparts⟩)
        exact ⟨hfits, fun value hmem => ih.mp (hparts value hmem)⟩
      · rintro ⟨hfits, hparts⟩
        exact .array hfits fun value hmem => ih.mpr (hparts value hmem)
    | _ => exact conforms_iff_of_kind_ne (by rintro ⟨⟩)

end Shape

/-- Encoding succeeds if all places are as they should be, and otherwise its error reports
the first that is not. -/
inductive Judged (path : Path) : List Place → Except EncodeError Bytes → Prop
  | ok {out : Bytes} {places : List Place} (h : ∀ place ∈ places, place.Fits) :
      Judged path places (.ok out)
  | error {error : EncodeError} {places : List Place} (h : FirstViolation path places error) :
      Judged path places (.error error)

namespace Judged

variable {path : Path} {x y : Except EncodeError Bytes} {front back : List Place}

theorem seq (hx : Judged path front x) (hy : Judged path back y) :
    Judged path (front ++ back) (x >>= fun first => y >>= fun rest => pure (first ++ rest)) := by
  cases hx with
  | error h => exact .error (h.append back)
  | ok hfront =>
    cases hy with
    | ok hback => exact .ok (List.forall_mem_append.mpr ⟨hfront, hback⟩)
    | error h => exact .error (h.behind hfront)

/-- What is said of a part is said of the whole, one step further up. -/
theorem behind {step : Step} (h : Judged (path.push step) back x) :
    Judged path (back.map (.behind step)) x := by
  cases h with
  | ok h => exact .ok (List.forall_mem_map.mpr h)
  | error h =>
    exact .error (h.map _ (fun _ hfits => hfits) fun _ hviolates => hviolates.behind)

variable {shape : Shape} {value : Value}

theorem fits {out : Bytes} (h : shape.Fits value) :
    Judged path [⟨[], shape, value⟩] (.ok out) :=
  .ok (List.forall_mem_singleton.mpr h)

/-- Parts decide if the value around them is as it should be. -/
theorem inside (h : Judged path back x) (hfits : shape.Fits value) :
    Judged path (⟨[], shape, value⟩ :: back) x := by
  cases h with
  | ok h => exact .ok (List.forall_mem_cons.mpr ⟨hfits, h⟩)
  | error h =>
    have hhere : ∀ place ∈ [Place.mk [] shape value], place.Fits :=
      List.forall_mem_singleton.mpr hfits
    exact .error (FirstFailure.behind h hhere)

/-- An error for the value itself, whatever its parts are. -/
theorem here {error : EncodeError} {inside : List Place}
    (h : Place.Violates path ⟨[], shape, value⟩ error) :
    Judged path (⟨[], shape, value⟩ :: inside) (.error error) :=
  .error ⟨[], _, inside, rfl, by simp, h⟩

theorem kind (h : value.kind ≠ shape.kind) :
    Judged path [⟨[], shape, value⟩] (.error (.typeMismatch path shape.kind value.kind)) := by
  have hviolates : Place.Violates path ⟨[], shape, value⟩ _ := .kind h
  rw [Path.along_nil] at hviolates
  exact here hviolates

theorem length {n : Nat} {inside : List Place} (hkind : value.kind = shape.kind)
    (hlength : shape.length? = some n) (h : value.length ≠ n) :
    Judged path (⟨[], shape, value⟩ :: inside)
      (.error (.lengthMismatch path n value.length)) := by
  have hviolates : Place.Violates path ⟨[], shape, value⟩ _ := .length hkind hlength h
  rw [Path.along_nil] at hviolates
  exact here hviolates

theorem range {type : Primitive} (hkind : value.kind = (Shape.leaf (.primitive type)).kind)
    (h : ¬ (Shape.leaf (.primitive type)).Holds value) :
    Judged path [⟨[], .leaf (.primitive type), value⟩]
      (.error (.valueOutOfRange path type.bitSize)) := by
  have hviolates : Place.Violates path ⟨[], .leaf (.primitive type), value⟩ _ :=
    .range hkind rfl h
  rw [Path.along_nil] at hviolates
  exact here hviolates

end Judged

namespace Leaf

variable {path : Path}

theorem judged_encodeUnsigned {type : Primitive} (hkind : (primitive type).kind = .uint)
    (word : Word) :
    Judged path [⟨[], .leaf (.primitive type), .uint word⟩]
      (encodeUnsigned path type.bitSize word) := by
  by_cases hfits : word.FitsUnsigned type.bitSize
  · rw [encodeUnsigned, if_pos hfits]
    exact .fits (.of_any_length hkind.symm rfl (Word.fitsUnsigned_iff.mp hfits))
  · rw [encodeUnsigned, if_neg hfits]
    exact .range hkind.symm fun hrange => hfits (Word.fitsUnsigned_iff.mpr hrange)

theorem judged_encodeSigned {type : Primitive} (htype : type.WellFormed)
    (hkind : (primitive type).kind = .int) (word : Word) :
    Judged path [⟨[], .leaf (.primitive type), .int word⟩]
      (encodeSigned path type.bitSize word) := by
  have hiff := Word.fitsSigned_iff_range (w := word) htype.1 htype.2.2
  by_cases hfits : word.FitsSigned type.bitSize
  · rw [encodeSigned, if_pos hfits]
    exact .fits (.of_any_length hkind.symm rfl (hiff.mp hfits))
  · rw [encodeSigned, if_neg hfits]
    exact .range hkind.symm fun hrange => hfits (hiff.mpr hrange)

theorem encode_of_kind_ne {type : Leaf} {value : Value} (h : value.kind ≠ type.kind) :
    type.encode path value = .error (.typeMismatch path type.kind value.kind) := by
  unfold encode
  split <;> first | rfl | exact absurd rfl h

theorem judged_encode_primitive {type : Primitive} (htype : type.WellFormed) {value : Value}
    (hkind : value.kind = (primitive type).kind) :
    Judged path [⟨[], .leaf (.primitive type), value⟩]
      ((primitive type).encode path value) := by
  cases type with
  | uint bits =>
    cases value with
    | uint word => exact judged_encodeUnsigned hkind.symm word
    | _ => cases hkind
  | int bits =>
    cases value with
    | int word => exact judged_encodeSigned htype hkind.symm word
    | _ => cases hkind
  | bool =>
    cases value with
    | bool flag => exact .fits (.of_any_length rfl rfl trivial)
    | _ => cases hkind
  | address =>
    cases value with
    | address account => exact .fits (.of_any_length rfl rfl trivial)
    | _ => cases hkind
  | fixedPoint signed bits decimals =>
    cases signed with
    | false =>
      cases value with
      | uint word => exact judged_encodeUnsigned hkind.symm word
      | _ => cases hkind
    | true =>
      cases value with
      | int word => exact judged_encodeSigned htype hkind.symm word
      | _ => cases hkind

theorem encodeCounted_of_lt {payload : Bytes} (h : payload.length < 2 ^ 32) :
    ∃ out, encodeCounted path payload = .ok out :=
  ⟨_, encodeCounted_eq_ok.mpr ⟨_, Header.encode_eq_ok.mpr ⟨h, rfl⟩, rfl⟩⟩

theorem judged_encode {type : Leaf} (htype : type.WellFormed) {value : Value}
    (hheader : Place.HeaderFits ⟨[], .leaf type, value⟩) :
    Judged path [⟨[], .leaf type, value⟩] (type.encode path value) := by
  by_cases hkind : value.kind = type.kind
  · cases type with
    | primitive type => exact judged_encode_primitive htype hkind
    | fixedBytes size =>
      cases value with
      | fixedBytes payload =>
        by_cases hlength : payload.length = size
        · rw [encode, if_pos hlength]
          exact .fits (.of_length rfl rfl hlength trivial)
        · rw [encode, if_neg hlength]
          exact .length rfl rfl hlength
      | _ => cases hkind
    | bytes =>
      cases value with
      | bytes payload =>
        obtain ⟨out, hout⟩ := encodeCounted_of_lt (hheader rfl trivial)
        rw [encode, hout]
        exact .fits (.of_any_length rfl rfl trivial)
      | _ => cases hkind
    | string =>
      cases value with
      | string text =>
        obtain ⟨out, hout⟩ := encodeCounted_of_lt (hheader rfl trivial)
        rw [encode, hout]
        exact .fits (.of_any_length rfl rfl trivial)
      | _ => cases hkind
  · rw [encode_of_kind_ne hkind]
    exact .kind (show value.kind ≠ (Shape.leaf type).kind from hkind)

end Leaf

namespace Shape

variable {path : Path}

/-- The elements of an array, each judged by its places. -/
theorem judged_encodeElements {element : Shape}
    (h : ∀ path value, (∀ place ∈ element.places value, place.HeaderFits) →
      Judged path (element.places value) (element.encode path value))
    {i : Nat} {values : List Value}
    (hheaders : ∀ value ∈ values, ∀ place ∈ element.places value, place.HeaderFits) :
    Judged path (elementPlaces element.places i values)
      (encodeElements element.encode path i values) := by
  induction values generalizing i with
  | nil => exact .ok (by simp [elementPlaces])
  | cons value values ih =>
    obtain ⟨hvalue, hvalues⟩ := List.forall_mem_cons.mp hheaders
    exact .seq (.behind (h _ value hvalue)) (ih hvalues)

theorem judged_encodeComponents {components : List (String × Shape)}
    (h : ∀ component ∈ components, ∀ path value,
      (∀ place ∈ component.2.places value, place.HeaderFits) →
        Judged path (component.2.places value) (component.2.encode path value))
    {values : List Value}
    (hheaders : ∀ pair ∈ components.zip values, ∀ place ∈ pair.1.2.places pair.2,
      place.HeaderFits) :
    Judged path (componentPlaces components values)
      (encodeComponents components path values) := by
  induction components generalizing values with
  | nil => exact .ok (by simp [componentPlaces])
  | cons component components ih =>
    obtain ⟨name, shape⟩ := component
    cases values with
    | nil => exact .ok (by simp [componentPlaces])
    | cons value values =>
      obtain ⟨hfirst, hothers⟩ := List.forall_mem_cons.mp h
      obtain ⟨hvalue, hvalues⟩ := List.forall_mem_cons.mp hheaders
      exact .seq (.behind (hfirst _ value hvalue)) (ih hothers hvalues)

theorem judged_encodeCount {dim : Dimension} {element : Shape} {values : List Value}
    (hheader : Place.HeaderFits ⟨[], .array dim element, .array values⟩) :
    Judged path [⟨[], .array dim element, .array values⟩]
      (dim.encodeCount path values.length) := by
  cases dim with
  | fixed size =>
    by_cases hlength : values.length = size
    · rw [Dimension.encodeCount, if_pos hlength]
      exact .fits (.of_length rfl rfl hlength trivial)
    · rw [Dimension.encodeCount, if_neg hlength]
      exact .length rfl rfl hlength
  | dynamic =>
    have hcount : values.length < 2 ^ 32 := hheader rfl trivial
    rw [Dimension.encodeCount, Header.encode_eq_ok.mpr ⟨hcount, rfl⟩]
    exact .fits (.of_any_length rfl rfl trivial)

/-- The places of a value judge how it is encoded, at any path. -/
theorem WellFormed.judged_encode {shape : Shape} (hshape : shape.WellFormed) (path : Path)
    (value : Value) (hheaders : ∀ place ∈ shape.places value, place.HeaderFits) :
    Judged path (shape.places value) (shape.encode path value) := by
  induction hshape generalizing path value with
  | leaf htype =>
    rw [places_leaf, List.forall_mem_singleton] at hheaders
    rw [places_leaf, Shape.encode]
    exact Leaf.judged_encode htype hheaders
  | @tuple components hne hcomponents ih =>
    cases value with
    | tuple values =>
      rw [places, List.forall_mem_cons, forall_componentPlaces_iff fun _ _ => Iff.rfl] at hheaders
      rw [places, Shape.encode]
      by_cases hlength : values.length = components.length
      · rw [if_pos hlength]
        exact (judged_encodeComponents ih hheaders.2).inside (.of_length rfl rfl hlength trivial)
      · rw [if_neg hlength]
        exact .length rfl rfl hlength
    | _ => exact .kind (by rintro ⟨⟩)
  | array hdim helement ih =>
    cases value with
    | array values =>
      rw [places, List.forall_mem_cons, forall_elementPlaces_iff fun _ _ => Iff.rfl] at hheaders
      rw [places, Shape.encode]
      exact .seq (judged_encodeCount hheaders.1) (judged_encodeElements ih hheaders.2)
    | _ => exact .kind (by rintro ⟨⟩)

end Shape

namespace Schema

/-- What is encoded by the shape of a schema is what conforms to it. For any other value the
error reports the first place that is not as it should be, by its path from the root. -/
theorem encode_reports_first_violation {schema : Schema} {shape : Shape}
    (h : schema.resolve = .ok shape) (name : String) {value : Value}
    (hheaders : ∀ place ∈ shape.places value, place.HeaderFits) :
    ((∃ out, shape.encode (.ofName name) value = .ok out) ↔ shape.Conforms value) ∧
    ∀ error, shape.encode (.ofName name) value = .error error →
      ∃ front place rest, shape.places value = front ++ place :: rest ∧
        (∀ other ∈ front, other.Fits) ∧ place.Violates (.ofName name) error ∧
        error.path = ⟨name, place.steps⟩ ∧
        error.path.text = name ++ String.join (place.steps.map Step.text) := by
  have hshape := resolve_wellFormed h
  have hjudged := hshape.judged_encode (.ofName name) value hheaders
  rw [hshape.conforms_iff]
  cases houtcome : shape.encode (.ofName name) value with
  | ok out =>
    rw [houtcome] at hjudged
    cases hjudged with
    | ok hfits => exact ⟨iff_of_true ⟨out, rfl⟩ hfits, by rintro _ ⟨⟩⟩
  | error error =>
    rw [houtcome] at hjudged
    cases hjudged with
    | error hfirst =>
      obtain ⟨front, place, rest, hplaces, hfront, hviolates⟩ := hfirst
      constructor
      · apply iff_of_false
        · rintro ⟨out, ⟨⟩⟩
        · intro hfits
          exact hviolates.not_fits (hfits place (by simp [hplaces]))
      · rintro _ ⟨⟩
        refine ⟨front, place, rest, hplaces, hfront, hviolates, hviolates.path_eq, ?_⟩
        rw [Path.text_eq, hviolates.path_eq]
        rfl

/-- Of two rows the second is too long, and the flag behind them is a number. The row is
reported. -/
theorem encode_long_second_row : ∃ shape,
    Schema.resolve ⟨"r", "tuple", [⟨"count", "uint8", []⟩, ⟨"rows", "bytes2[2]", []⟩,
      ⟨"flag", "bool", []⟩]⟩ = .ok shape ∧
    let value : Value :=
      .tuple [.uint 7, .array [.fixedBytes [1, 2], .fixedBytes [1, 2, 3]], .uint 1]
    (∀ place ∈ shape.places value, place.HeaderFits) ∧
      shape.encode (.ofName "r") value =
        .error (.lengthMismatch ⟨"r", [.component "rows", .index 1]⟩ 2 3) ∧
      ¬ shape.Conforms value ∧
      ∃ front place rest, shape.places value = front ++ place :: rest ∧
        (∀ other ∈ front, other.Fits) ∧ place.steps = [.component "rows", .index 1] ∧
        place.Violates (.ofName "r")
          (.lengthMismatch ⟨"r", [.component "rows", .index 1]⟩ 2 3) := by
  let shape : Shape := .tuple [("count", .leaf (.primitive (.uint 8))),
    ("rows", .array (.fixed 2) (.leaf (.fixedBytes 2))), ("flag", .leaf (.primitive .bool))]
  let value : Value :=
    .tuple [.uint 7, .array [.fixedBytes [1, 2], .fixedBytes [1, 2, 3]], .uint 1]
  have hresolve : Schema.resolve ⟨"r", "tuple", [⟨"count", "uint8", []⟩,
      ⟨"rows", "bytes2[2]", []⟩, ⟨"flag", "bool", []⟩]⟩ = .ok shape := rfl
  have hheaders : ∀ place ∈ shape.places value, place.HeaderFits := by
    simp [shape, value, Shape.places, Shape.componentPlaces, Shape.elementPlaces, Place.behind,
      Place.HeaderFits, Shape.HasHeader]
  have hencode : shape.encode (.ofName "r") value =
      .error (.lengthMismatch ⟨"r", [.component "rows", .index 1]⟩ 2 3) := rfl
  obtain ⟨haccepts, hreports⟩ := encode_reports_first_violation hresolve "r" hheaders
  obtain ⟨front, place, rest, hplaces, hfront, hviolates, hpath, _⟩ := hreports _ hencode
  refine ⟨shape, hresolve, hheaders, hencode, ?_, front, place, rest, hplaces, hfront, ?_,
    hviolates⟩
  · rw [← haccepts, hencode]
    rintro ⟨out, ⟨⟩⟩
  · exact (congrArg Path.steps hpath).symm

end Schema

end RecordCodec
