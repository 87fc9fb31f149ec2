import RecordCodec.Json.Conversion
import RecordCodec.Proofs.Outcome

/-!
# Tuples by place or by name

A tuple is read from an array, whose items stand for the components in order, or from an
object, whose members stand for them by name. One form can be exchanged for the other at
any place of a value without a change of what is read, be it a value or an error: both come
down to the same parts, one for each component, read from left to right.
-/

namespace RecordCodec

namespace Json

/-- What a value holds for components of the given names: an array has one item for each,
and an object has their members or lacks them, whatever other members there are. -/
inductive Holds (names : List String) : Json → List (Option Json) → Prop
  | items {items : List Json} (h : items.length = names.length) :
      Holds names (.array items) (items.map some)
  | members {members : List (String × Json)} :
      Holds names (.object members) (names.map (member? members))

/-- An object in which all names have the items of an array holds the same parts. -/
theorem holds_of_members {names : List String} {items : List Json}
    {members : List (String × Json)} (hlength : items.length = names.length)
    (h : ∀ pair ∈ names.zip items, member? members pair.1 = some pair.2) :
    (object members).Holds names (items.map some) := by
  have hparts : names.map (member? members) = items.map some :=
    calc names.map (member? members)
        = ((names.zip items).map Prod.fst).map (member? members) := by
          rw [List.map_fst_zip (Nat.le_of_eq hlength.symm)]
      _ = (names.zip items).map (some ∘ Prod.snd) := by
          rw [List.map_map]
          exact List.map_congr_left h
      _ = items.map some := by
          rw [← List.map_map, List.map_snd_zip (Nat.le_of_eq hlength)]
  rw [← hparts]
  exact .members

/-- If the names are distinct there is such an object, also with other members in front. -/
theorem member?_append_zip {names : List String} (hnames : names.Nodup) {items : List Json}
    (hlength : items.length = names.length) (others : List (String × Json)) :
    ∀ pair ∈ names.zip items, member? (others ++ names.zip items) pair.1 = some pair.2 := by
  intro pair hmem
  obtain ⟨front, back, hzip⟩ := List.append_of_mem hmem
  -- The last member of a name counts, so those behind the pair must have other names.
  have hback : pair.1 ∉ back.map Prod.fst := by
    rw [← List.map_fst_zip (Nat.le_of_eq hlength.symm), hzip, List.map_append,
      List.map_cons] at hnames
    exact (List.nodup_cons.mp (List.nodup_append.mp hnames).2.1).1
  rw [member?, hzip]
  refine List.lookup_eq_some_iff.mpr ⟨back.reverse, front.reverse ++ others.reverse, by simp, ?_⟩
  intro other hother
  rw [bne_iff_ne]
  rintro heq
  exact hback (heq ▸ List.mem_map_of_mem (List.mem_reverse.mp hother))

end Json

namespace Shape

mutual

/-- Values that differ only in which of their tuples are given by place and which by name. -/
inductive Alike : Shape → Json → Json → Prop
  | same {shape : Shape} {json : Json} : Alike shape json json
  | elements {dim : Dimension} {element : Shape} {items others : List Json}
      (hlength : items.length = others.length)
      (h : ∀ pair ∈ items.zip others, Alike element pair.1 pair.2) :
      Alike (array dim element) (.array items) (.array others)
  | parts {components : List (String × Shape)} {json other : Json}
      {parts others : List (Option Json)}
      (hjson : json.Holds (components.map Prod.fst) parts)
      (hother : other.Holds (components.map Prod.fst) others)
      (h : PartsAlike components parts others) : Alike (tuple components) json other
  /-- Of arrays with a wrong number of items, no item is looked at. -/
  | miscounted {components : List (String × Shape)} {items others : List Json}
      (hcount : items.length ≠ components.length) (hlength : items.length = others.length) :
      Alike (tuple components) (.array items) (.array others)

/-- The parts of two values are alike, and missing in both or in none of them. -/
inductive PartsAlike : List (String × Shape) → List (Option Json) → List (Option Json) → Prop
  | nil : PartsAlike [] [] []
  | missing {name : String} {shape : Shape} {components : List (String × Shape)}
      {parts others : List (Option Json)} (h : PartsAlike components parts others) :
      PartsAlike ((name, shape) :: components) (none :: parts) (none :: others)
  | present {name : String} {shape : Shape} {components : List (String × Shape)}
      {item other : Json} {parts others : List (Option Json)} (hitem : Alike shape item other)
      (h : PartsAlike components parts others) :
      PartsAlike ((name, shape) :: components) (some item :: parts) (some other :: others)

end

mutual

/-- The value with every tuple that is an array given by name instead. -/
def byName : Shape → Json → Json
  | tuple components, .array items =>
    if items.length = components.length then
      .object ((components.map Prod.fst).zip (partsByName components items))
    else .array items
  | array _ element, .array items => .array (items.map element.byName)
  | _, json => json

def partsByName : List (String × Shape) → List Json → List Json
  | (_, shape) :: components, item :: items =>
    shape.byName item :: partsByName components items
  | _, _ => []

end

/-- Every tuple has a name of its own for each component. -/
inductive DistinctNames : Shape → Prop
  | leaf {type : Leaf} : DistinctNames (.leaf type)
  | tuple {components : List (String × Shape)} (hnames : (components.map Prod.fst).Nodup)
      (hcomponents : ∀ component ∈ components, DistinctNames component.2) :
      DistinctNames (.tuple components)
  | array {dim : Dimension} {element : Shape} (helement : DistinctNames element) :
      DistinctNames (.array dim element)

/-- The components of a tuple from the parts that a value holds for them. -/
def partsOfJson :
    List (String × Shape) → Path → List (Option Json) → Except ConversionError (List Value)
  | (name, shape) :: components, path, some item :: parts => do
    let first ← shape.ofJson (path.component name) item
    let rest ← partsOfJson components path parts
    return first :: rest
  | (name, _) :: _, path, none :: _ => .error ⟨path.component name, .missing⟩
  | _, _, _ => .ok []

theorem listedOfJson_eq (components : List (String × Shape)) (path : Path) (items : List Json) :
    listedOfJson components path items = partsOfJson components path (items.map some) := by
  induction components generalizing items with
  | nil => rfl
  | cons component components ih =>
    cases items with
    | nil => rfl
    | cons item items => rw [listedOfJson, List.map_cons, partsOfJson, ih]

theorem namedOfJson_eq (components : List (String × Shape)) (path : Path)
    (members : List (String × Json)) :
    namedOfJson components path members =
      partsOfJson components path ((components.map Prod.fst).map (Json.member? members)) := by
  induction components with
  | nil => rfl
  | cons component components ih =>
    rw [namedOfJson, List.map_cons, List.map_cons]
    cases hitem : Json.member? members component.1 with
    | none => rfl
    | some item => rw [partsOfJson, ih]

/-- In either form a tuple is read from the parts that the value holds. -/
theorem ofJson_tuple_of_holds {components : List (String × Shape)} {json : Json}
    {parts : List (Option Json)} (h : json.Holds (components.map Prod.fst) parts) (path : Path) :
    (tuple components).ofJson path json = do
      let values ← partsOfJson components path parts
      return .tuple values := by
  cases h with
  | items hlength =>
    rw [List.length_map] at hlength
    rw [ofJson, if_pos hlength, listedOfJson_eq]
  | members => rw [ofJson, namedOfJson_eq]

theorem itemsOfJson_congr {element : Shape} {items others : List Json}
    (hlength : items.length = others.length)
    (h : ∀ pair ∈ items.zip others, ∀ path, element.ofJson path pair.1 = element.ofJson path pair.2)
    (path : Path) (i : Nat) :
    itemsOfJson element.ofJson path i items = itemsOfJson element.ofJson path i others := by
  induction items generalizing others i with
  | nil =>
    cases others with
    | nil => rfl
    | cons other others => cases hlength
  | cons item items ih =>
    cases others with
    | nil => cases hlength
    | cons other others =>
      obtain ⟨hitem, hitems⟩ := List.forall_mem_cons.mp h
      rw [itemsOfJson, itemsOfJson, hitem, ih (Nat.succ.inj hlength) hitems]

mutual

theorem ofJson_eq_of_alike : {shape : Shape} → {json other : Json} → shape.Alike json other →
    ∀ path, shape.ofJson path json = shape.ofJson path other
  | _, _, _, .same, _ => rfl
  | .array _ element, _, _, .elements hlength h, path => by
    rw [ofJson, ofJson, itemsOfJson_congr hlength fun pair hmem =>
      ofJson_eq_of_alike (h pair hmem)]
  | .tuple components, _, _, .parts hjson hother h, path => by
    rw [ofJson_tuple_of_holds hjson, ofJson_tuple_of_holds hother, partsOfJson_eq_of_alike h]
  | .tuple components, _, _, .miscounted hcount hlength, path => by
    rw [ofJson, ofJson, if_neg hcount, if_neg (hlength ▸ hcount), hlength]

theorem partsOfJson_eq_of_alike : {components : List (String × Shape)} →
    {parts others : List (Option Json)} → PartsAlike components parts others →
    ∀ path, partsOfJson components path parts = partsOfJson components path others
  | _, _, _, .nil, _ => rfl
  | _, _, _, .missing _, _ => rfl
  | _, _, _, .present hitem h, path => by
    rw [partsOfJson, partsOfJson, ofJson_eq_of_alike hitem, partsOfJson_eq_of_alike h]

end

theorem length_partsByName {components : List (String × Shape)} {items : List Json}
    (h : items.length = components.length) :
    (partsByName components items).length = components.length := by
  induction components generalizing items with
  | nil => rfl
  | cons component components ih =>
    cases items with
    | nil => cases h
    | cons item items => rw [partsByName, List.length_cons, ih (Nat.succ.inj h), List.length_cons]

theorem partsAlike_byName {components : List (String × Shape)}
    (h : ∀ component ∈ components, ∀ json, component.2.Alike json (component.2.byName json))
    {items : List Json} (hlength : items.length = components.length) :
    PartsAlike components (items.map some) ((partsByName components items).map some) := by
  induction components generalizing items with
  | nil =>
    rw [List.length_eq_zero_iff.mp hlength]
    exact .nil
  | cons component components ih =>
    obtain ⟨hcomponent, hcomponents⟩ := List.forall_mem_cons.mp h
    cases items with
    | nil => cases hlength
    | cons item items => exact .present (hcomponent item) (ih hcomponents (Nat.succ.inj hlength))

/-- Parts that are given by place can be given by name, if each has a name of its own. -/
theorem alike_of_nodup {components : List (String × Shape)}
    (hnames : (components.map Prod.fst).Nodup) {items named : List Json}
    (hitems : items.length = components.length) (hnamed : named.length = components.length)
    (h : PartsAlike components (items.map some) (named.map some))
    (others : List (String × Json)) :
    (tuple components).Alike (.array items)
      (.object (others ++ (components.map Prod.fst).zip named)) := by
  rw [← List.length_map Prod.fst] at hitems hnamed
  exact .parts (.items hitems)
    (Json.holds_of_members hnamed (Json.member?_append_zip hnames hnamed others)) h

theorem DistinctNames.alike_byName {shape : Shape} (hshape : shape.DistinctNames) (json : Json) :
    shape.Alike json (shape.byName json) := by
  induction hshape generalizing json with
  | leaf => exact .same
  | @tuple components hnames _ ih =>
    cases json with
    | array items =>
      rw [byName]
      split
      · rename_i hlength
        exact alike_of_nodup hnames hlength (length_partsByName hlength)
          (partsAlike_byName ih hlength) []
      · exact .same
    | _ => exact .same
  | @array dim element _ ih =>
    cases json with
    | array items =>
      have hzip := @List.zip_map' _ _ _ id element.byName items
      rw [List.map_id] at hzip
      refine .elements (List.length_map _).symm ?_
      rw [hzip, List.forall_mem_map]
      exact fun item _ => ih item
    | _ => exact .same

/-- What is read does not depend on which tuples are given by place and which by name, and
with distinct names all of them can be given by name. -/
theorem ofJson_by_place_or_name {shape : Shape} (hnames : shape.DistinctNames)
    {json other : Json} (h : shape.Alike json other) (path : Path) :
    shape.ofJson path json = shape.ofJson path other ∧
      shape.ofJson path json = shape.ofJson path (shape.byName json) :=
  ⟨ofJson_eq_of_alike h path, ofJson_eq_of_alike (hnames.alike_byName json) path⟩

/-- Rows in an object with a member too many, the second of them by name. -/
theorem ofJson_rows_by_name :
    let row : Shape :=
      .tuple [("id", .leaf (.primitive (.uint 8))), ("ok", .leaf (.primitive .bool))]
    let shape : Shape := .tuple [("name", .leaf .string), ("rows", .array .dynamic row)]
    let json : Json := .array [.string "x", .array [.array [.int 1, .bool true],
      .array [.int 2, .bool false]]]
    let other : Json := .object [("rows", .array [.array [.int 1, .bool true],
      .object [("ok", .bool false), ("id", .int 2)]]), ("note", .null), ("name", .string "x")]
    shape.DistinctNames ∧ shape.Alike json other ∧
      shape.ofJson (.ofName "r") other = .ok (.tuple [.string "x",
        .array [.tuple [.uint 1, .bool true], .tuple [.uint 2, .bool false]]]) := by
  intro row shape json other
  have hrow : row.DistinctNames :=
    .tuple (by decide) (List.forall_mem_cons.mpr ⟨.leaf, List.forall_mem_singleton.mpr .leaf⟩)
  have hshape : shape.DistinctNames :=
    .tuple (by decide)
      (List.forall_mem_cons.mpr ⟨.leaf, List.forall_mem_singleton.mpr (.array hrow)⟩)
  have hsecond : row.Alike (.array [.int 2, .bool false])
      (.object [("ok", .bool false), ("id", .int 2)]) :=
    .parts (.items rfl) .members (.present .same (.present .same .nil))
  have hrows : (array .dynamic row).Alike
      (.array [.array [.int 1, .bool true], .array [.int 2, .bool false]])
      (.array [.array [.int 1, .bool true], .object [("ok", .bool false), ("id", .int 2)]]) :=
    .elements rfl (List.forall_mem_cons.mpr ⟨.same, List.forall_mem_singleton.mpr hsecond⟩)
  have hjson : shape.Alike json other :=
    .parts (.items rfl) .members (.present .same (.present hrows .nil))
  refine ⟨hshape, hjson, ?_⟩
  rw [← (ofJson_by_place_or_name hshape hjson (.ofName "r")).1]
  rfl

end Shape

end RecordCodec
