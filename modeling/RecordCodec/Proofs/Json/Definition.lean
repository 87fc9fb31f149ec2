import RecordCodec.Json.Definition
import RecordCodec.Proofs.Json.Parser

/-!
# Definitions and what they define

A schema is read back from every text of its definition, if the definition is not nested
too deep, and so are options. The order of the members of a definition does not matter,
nor do members of other names, and the values of the members may stand alone in an array.
-/

namespace RecordCodec

namespace Json

variable {members others : List (String × Json)}

theorem membersNamed_append (members others : List (String × Json)) (name : String) :
    membersNamed (members ++ others) name =
      membersNamed members name ++ membersNamed others name :=
  List.filterMap_append

/-- Members of other names have no value of this name. -/
theorem membersNamed_eq_nil {name : String} (h : ∀ member ∈ members, member.1 ≠ name) :
    membersNamed members name = [] := by
  refine List.filterMap_eq_nil_iff.mpr ?_
  intro member hmem
  exact if_neg (h member hmem)

/-- The member of a name is the same in every order of the members. -/
theorem unique?_perm (h : members.Perm others) (name : String) :
    unique? members name = unique? others name := by
  have hnamed : (membersNamed members name).Perm (membersNamed others name) := h.filterMap _
  unfold unique?
  generalize membersNamed members name = values at hnamed
  generalize membersNamed others name = values' at hnamed
  match values, values', hnamed with
  | [], _, hnamed => rw [List.nil_perm.mp hnamed]
  | [value], _, hnamed => rw [List.singleton_perm.mp hnamed]
  | _ :: _ :: _, [], hnamed => cases List.perm_nil.mp hnamed
  | _ :: _ :: _, [_], hnamed => cases List.perm_singleton.mp hnamed
  | _ :: _ :: _, _ :: _ :: _, _ => rfl

theorem unique?_append_of_ne {name : String} (h : ∀ member ∈ others, member.1 ≠ name) :
    unique? (members ++ others) name = unique? members name := by
  unfold unique?
  rw [membersNamed_append, membersNamed_eq_nil h, List.append_nil]

end Json

namespace Schema

/-- The names of the members that a definition is made of. -/
def memberNames : List String := ["name", "type", "components"]

/-- The order of the members does not matter, nor do members of other names. -/
theorem parts?_of_perm {members own others : List (String × Json)}
    (h : members.Perm (own ++ others)) (hothers : ∀ member ∈ others, member.1 ∉ memberNames) :
    parts? (.object members) = parts? (.object own) := by
  have hunique : ∀ name ∈ memberNames, Json.unique? members name = Json.unique? own name := by
    intro name hname
    rw [Json.unique?_perm h, Json.unique?_append_of_ne]
    rintro member hmem rfl
    exact hothers member hmem hname
  simp only [parts?, hunique "name" (by decide), hunique "type" (by decide),
    hunique "components" (by decide)]

theorem ofJson?_congr {json other : Json} (h : parts? json = parts? other) (depth : Nat) :
    ofJson? depth json = ofJson? depth other := by
  cases depth with
  | zero => rfl
  | succ depth => rw [ofJson?, ofJson?, h]

theorem ofJson?_of_perm {members own others : List (String × Json)}
    (h : members.Perm (own ++ others)) (hothers : ∀ member ∈ others, member.1 ∉ memberNames)
    (depth : Nat) : ofJson? depth (.object members) = ofJson? depth (.object own) :=
  ofJson?_congr (parts?_of_perm h hothers) depth

/-- The values of the members may stand alone in an array, in the order of the members. -/
theorem ofJson?_array (depth : Nat) (name type components : Json) :
    ofJson? depth (.array [name, type, components]) =
      ofJson? depth (.object [("name", name), ("type", type), ("components", components)]) := by
  apply ofJson?_congr
  rfl

mutual

/-- How many objects and arrays stand inside each other in the definition of a schema. -/
def depth : Schema → Nat
  | ⟨_, _, []⟩ => 1
  | ⟨_, _, schema :: schemas⟩ => max schema.depth (listDepth schemas) + 2

def listDepth : List Schema → Nat
  | [] => 0
  | schema :: schemas => max schema.depth (listDepth schemas)

end

theorem depth_cons (name type : String) (schema : Schema) (schemas : List Schema) :
    depth ⟨name, type, schema :: schemas⟩ = listDepth (schema :: schemas) + 2 := by
  rw [depth, listDepth]

theorem parts?_toJson (schema : Schema) :
    parts? schema.toJson = some (.string schema.name, .string schema.type,
      if schema.components = [] then none else some (.array (listToJson schema.components))) := by
  obtain ⟨name, type, components⟩ := schema
  cases components with
  | nil =>
    rw [toJson]
    rfl
  | cons component components =>
    rw [toJson, listToJson]
    rfl

mutual

/-- The definition of a schema is read back exactly if it is not too deep. -/
theorem ofJson?_toJson : (schema : Schema) → (depth : Nat) →
    ofJson? depth schema.toJson = if schema.depth ≤ depth then some schema else none
  | ⟨name, type, []⟩, 0 => rfl
  | ⟨name, type, []⟩, depth + 1 => by
    rw [ofJson?, parts?_toJson, Schema.depth, if_pos (Nat.le_add_left 1 depth)]
    simp [Json.text?, componentsOfJson?]
  | ⟨name, type, schema :: schemas⟩, 0 => by
    rw [depth_cons]
    rfl
  | ⟨name, type, schema :: schemas⟩, 1 => by
    rw [ofJson?, parts?_toJson, depth_cons]
    simp [Json.text?, componentsOfJson?]
  | ⟨name, type, schema :: schemas⟩, depth + 2 => by
    have hcomponents := mapM_ofJson?_listToJson (schema :: schemas) depth
    rw [ofJson?, parts?_toJson, depth_cons]
    simp only [Option.bind_eq_bind, Option.bind_some, Json.text?, reduceCtorEq, if_false,
      componentsOfJson?, hcomponents, Nat.add_le_add_iff_right]
    by_cases hdepth : listDepth (schema :: schemas) ≤ depth
    · rw [if_pos hdepth, if_pos hdepth]
      rfl
    · rw [if_neg hdepth, if_neg hdepth]
      rfl

theorem mapM_ofJson?_listToJson : (schemas : List Schema) → (depth : Nat) →
    (listToJson schemas).mapM (ofJson? depth) =
      if listDepth schemas ≤ depth then some schemas else none
  | [], depth => rfl
  | schema :: schemas, depth => by
    rw [listToJson, List.mapM_cons, ofJson?_toJson schema depth,
      mapM_ofJson?_listToJson schemas depth, listDepth]
    simp only [Nat.max_le]
    by_cases hfirst : schema.depth ≤ depth
    · by_cases hrest : listDepth schemas ≤ depth
      · simp [hfirst, hrest]
      · simp [hfirst, hrest]
    · simp [hfirst]

end

/-- Every text that spells the definition of a schema is read as the schema, if it is nested
as deep as that only. -/
theorem ofText?_of_spelled {schema : Schema} {text : String} {front blanks : List Char}
    (htext : text.toList = front ++ blanks) (hfront : Json.Spelled (.value schema.toJson) front)
    (hblanks : Json.Blank blanks) :
    ofText? text = if schema.depth ≤ maxDepth then some schema else none := by
  have hparse := Json.parse?_eq_some_iff.mpr ⟨front, blanks, htext, hfront, hblanks⟩
  rw [ofText?, hparse]
  exact ofJson?_toJson schema maxDepth

mutual

theorem written_toJson : (schema : Schema) → schema.toJson.Written
  | ⟨name, type, []⟩ => by
    rw [toJson]
    apply Json.written_object
    simp only [List.forall_mem_cons, List.not_mem_nil, false_imp_iff, implies_true, and_true]
    exact ⟨Json.written_string name, Json.written_string type⟩
  | ⟨name, type, schema :: schemas⟩ => by
    rw [toJson]
    apply Json.written_object
    have hcomponents : ∀ item ∈ schema.toJson :: listToJson schemas, item.Written :=
      List.forall_mem_cons.mpr ⟨written_toJson schema, written_listToJson schemas⟩
    simp only [List.forall_mem_cons, List.not_mem_nil, false_imp_iff, implies_true, and_true]
    exact ⟨Json.written_string name, Json.written_string type, Json.written_array hcomponents⟩

theorem written_listToJson : (schemas : List Schema) →
    ∀ item ∈ listToJson schemas, item.Written
  | [], _, hmem => by cases hmem
  | schema :: schemas, item, hmem => by
    rw [listToJson] at hmem
    rcases List.mem_cons.mp hmem with rfl | hmem
    · exact written_toJson schema
    · exact written_listToJson schemas item hmem

end

/-- Every schema that is not nested too deep is read from some text. -/
theorem exists_ofText? {schema : Schema} (h : schema.depth ≤ maxDepth) :
    ∃ text, ofText? text = some schema := by
  obtain ⟨text, htext⟩ := (written_toJson schema).exists_parse?
  refine ⟨text, ?_⟩
  rw [ofText?, htext]
  exact (ofJson?_toJson schema maxDepth).trans (if_pos h)

end Schema

namespace Options

theorem ofJson?_toJson (options : Options) : ofJson? options.toJson = some options := by
  obtain ⟨dedup⟩ := options
  cases dedup <;> rfl

/-- The order of the members does not matter, nor do members of other names. -/
theorem ofJson?_of_perm {members own others : List (String × Json)}
    (h : members.Perm (own ++ others)) (hothers : ∀ member ∈ others, member.1 ≠ "struct_dedup") :
    ofJson? (.object members) = ofJson? (.object own) := by
  have hunique : Json.unique? members "struct_dedup" = Json.unique? own "struct_dedup" := by
    rw [Json.unique?_perm h, Json.unique?_append_of_ne hothers]
  rw [ofJson?, ofJson?, hunique]

/-- Every text that spells the definition of options is read as the options. -/
theorem ofText?_of_spelled {options : Options} {text : String} {front blanks : List Char}
    (htext : text.toList = front ++ blanks) (hfront : Json.Spelled (.value options.toJson) front)
    (hblanks : Json.Blank blanks) : ofText? text = some options := by
  have hparse := Json.parse?_eq_some_iff.mpr ⟨front, blanks, htext, hfront, hblanks⟩
  rw [ofText?, hparse]
  exact ofJson?_toJson options

end Options

end RecordCodec
