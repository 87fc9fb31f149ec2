import RecordCodec.Proofs.Declaration.Order
import RecordCodec.Proofs.Schema.Validity

/-!
# Visits to the tuples of a schema

Declaring the records of a schema goes through its tuples, each behind those inside it. A
visit is a field together with the records that are there when its turn comes. It says what
the field is referred to by, and for a tuple, which members its record has: these depend on
how the components are referred to, and so on everything declared before.

Taken together, the visits to the tuples come down to pushing their records one after the
other. What is said of the whole walk follows from this by induction on the list of visits,
without the tree.
-/

namespace RecordCodec

instance : DecidablePred Schema.IsTuple := fun field =>
  match h : field.fieldType with
  | .ok type =>
    if htuple : type.isTuple then isTrue ⟨type, h, htuple⟩
    else isFalse (by
      rintro ⟨other, hother, hisTuple⟩
      rw [h] at hother
      cases hother
      exact htuple hisTuple)
  | .error _ => isFalse (by
      rintro ⟨other, hother, _⟩
      rw [h] at hother
      cases hother)

/-- A field, and the records that are declared when its turn comes. -/
structure Visit where
  field : Schema
  declared : List Declaration

namespace Visit

/-- What declaring the field returns: the name to refer to it by, if it has one, and the
records that are declared then. -/
def outcome (dedup : Dedup) (visit : Visit) : Option String × List Declaration :=
  match visit.field.declare dedup visit.declared with
  | .ok outcome => outcome
  | .error _ => (none, visit.declared)

def reference (dedup : Dedup) (visit : Visit) : Option String := (visit.outcome dedup).1

/-- Visits to siblings, each on top of what those before it leave. -/
def siblings (dedup : Dedup) : List Schema → List Declaration → List Visit
  | [], _ => []
  | field :: fields, declared =>
    ⟨field, declared⟩ :: siblings dedup fields ((Visit.mk field declared).outcome dedup).2

/-- The member that a component becomes: its type as it is written, or for a tuple the name
it is referred to by and its array suffixes. -/
def member (dedup : Dedup) (component : Visit) : Member :=
  ⟨component.field.name, Schema.memberType component.field.type (component.reference dedup)⟩

/-- The members of the record of a tuple, one for each component. -/
def members (dedup : Dedup) (visit : Visit) : List Member :=
  (siblings dedup visit.field.components visit.declared).map (member dedup)

/-- The record of a tuple, whether or not it is declared in the end. -/
def record (dedup : Dedup) (visit : Visit) : Declaration :=
  ⟨Text.capitalize visit.field.name, visit.members dedup⟩

end Visit

namespace Schema

mutual

/-- The tuples of a schema, each behind those inside it. -/
def tuples : Schema → List Schema
  | ⟨name, type, components⟩ =>
    tuplesIn components ++
      if IsTuple ⟨name, type, components⟩ then [⟨name, type, components⟩] else []

def tuplesIn : List Schema → List Schema
  | [] => []
  | schema :: schemas => schema.tuples ++ tuplesIn schemas

end

mutual

/-- The visits to the tuples of a schema, in the order of `tuples`. -/
def visits (dedup : Dedup) : Schema → List Declaration → List Visit
  | ⟨name, type, components⟩, declared =>
    visitsIn dedup components declared ++
      if IsTuple ⟨name, type, components⟩ then [⟨⟨name, type, components⟩, declared⟩] else []

def visitsIn (dedup : Dedup) : List Schema → List Declaration → List Visit
  | [], _ => []
  | schema :: schemas, declared =>
    schema.visits dedup declared ++
      visitsIn dedup schemas ((Visit.mk schema declared).outcome dedup).2

end

mutual

theorem map_field_visits (dedup : Dedup) : (schema : Schema) → (declared : List Declaration) →
    (schema.visits dedup declared).map Visit.field = schema.tuples
  | ⟨name, type, components⟩, declared => by
    rw [visits, tuples, List.map_append, map_field_visitsIn dedup components declared]
    split <;> rfl

theorem map_field_visitsIn (dedup : Dedup) : (schemas : List Schema) →
    (declared : List Declaration) →
      (visitsIn dedup schemas declared).map Visit.field = tuplesIn schemas
  | [], declared => by rw [visitsIn, tuplesIn, List.map_nil]
  | schema :: schemas, declared => by
    rw [visitsIn, tuplesIn, List.map_append, map_field_visits dedup schema,
      map_field_visitsIn dedup schemas]

end

theorem mem_visits_self (dedup : Dedup) : {schema : Schema} → (declared : List Declaration) →
    schema.IsTuple → Visit.mk schema declared ∈ schema.visits dedup declared
  | ⟨name, type, components⟩, declared, htuple => by
    rw [visits, if_pos htuple]
    exact List.mem_append_right _ (List.mem_singleton_self _)

theorem sibling_mem_visitsIn {dedup : Dedup} {fields : List Schema} {declared : List Declaration}
    {visit : Visit} (hmem : visit ∈ Visit.siblings dedup fields declared)
    (htuple : visit.field.IsTuple) : visit ∈ visitsIn dedup fields declared := by
  induction fields generalizing declared with
  | nil => simp [Visit.siblings] at hmem
  | cons field fields ih =>
    rw [Visit.siblings] at hmem
    rw [visitsIn]
    rcases List.mem_cons.mp hmem with rfl | hmem
    · exact List.mem_append_left _ (mem_visits_self dedup declared htuple)
    · exact List.mem_append_right _ (ih hmem)

mutual

/-- The tuples that the members of a record are made from are visited themselves, each where
the record is built. -/
theorem sibling_mem_visits {dedup : Dedup} {visit component : Visit} : {schema : Schema} →
    {declared : List Declaration} → visit ∈ schema.visits dedup declared →
      component ∈ Visit.siblings dedup visit.field.components visit.declared →
        component.field.IsTuple → component ∈ schema.visits dedup declared
  | ⟨name, type, components⟩, declared, hvisit, hcomponent, htuple => by
    rw [visits] at hvisit ⊢
    rcases List.mem_append.mp hvisit with hvisit | hvisit
    · exact List.mem_append_left _ (sibling_mem_visitsIn_of_mem hvisit hcomponent htuple)
    · have hself : visit = ⟨⟨name, type, components⟩, declared⟩ := by
        split at hvisit
        · exact List.mem_singleton.mp hvisit
        · cases hvisit
      rw [hself] at hcomponent
      exact List.mem_append_left _ (sibling_mem_visitsIn hcomponent htuple)

theorem sibling_mem_visitsIn_of_mem {dedup : Dedup} {visit component : Visit} :
    {fields : List Schema} → {declared : List Declaration} →
      visit ∈ visitsIn dedup fields declared →
        component ∈ Visit.siblings dedup visit.field.components visit.declared →
          component.field.IsTuple → component ∈ visitsIn dedup fields declared
  | [], declared, hvisit, _, _ => by simp [visitsIn] at hvisit
  | field :: fields, declared, hvisit, hcomponent, htuple => by
    rw [visitsIn] at hvisit ⊢
    rcases List.mem_append.mp hvisit with hvisit | hvisit
    · exact List.mem_append_left _ (sibling_mem_visits hvisit hcomponent htuple)
    · exact List.mem_append_right _ (sibling_mem_visitsIn_of_mem hvisit hcomponent htuple)

end

end Schema

/-- Declaring the fields of the visits comes down to pushing their records, one after the
other. -/
inductive Pushes (dedup : Dedup) : List Declaration → List Visit → List Declaration → Prop
  | nil (declared : List Declaration) : Pushes dedup declared [] declared
  | cons {declared result : List Declaration} {visit : Visit} {visits : List Visit}
      (hvisit : visit.field.declare dedup visit.declared =
        .ok (some (Declaration.push dedup (visit.record dedup) declared).1,
          (Declaration.push dedup (visit.record dedup) declared).2))
      (hvisits : Pushes dedup (Declaration.push dedup (visit.record dedup) declared).2
        visits result) :
      Pushes dedup declared (visit :: visits) result

theorem Pushes.append {dedup : Dedup} {declared between result : List Declaration}
    {front back : List Visit} (hfront : Pushes dedup declared front between)
    (hback : Pushes dedup between back result) : Pushes dedup declared (front ++ back) result := by
  induction hfront with
  | nil => exact hback
  | cons hvisit _ ih => exact .cons hvisit (ih hback)

namespace Visit

variable {dedup : Dedup} {field : Schema} {declared result : List Declaration}
  {reference : Option String}

theorem outcome_of_eq_ok (h : field.declare dedup declared = .ok (reference, result)) :
    (Visit.mk field declared).outcome dedup = (reference, result) := by
  rw [outcome, h]

theorem reference_of_eq_ok {visit : Visit}
    (h : visit.field.declare dedup visit.declared = .ok (reference, result)) :
    visit.reference dedup = reference := by
  rw [Visit.reference, outcome_of_eq_ok h]

/-- What declaring the components returns as members. -/
theorem map_member_siblings {fields : List Schema} {members : List Member}
    (h : Schema.declareAll dedup fields declared = .ok (members, result)) :
    (siblings dedup fields declared).map (member dedup) = members := by
  induction fields generalizing declared members with
  | nil =>
    cases h
    rfl
  | cons field fields ih =>
    obtain ⟨reference, between, rest, hfield, hfields, rfl⟩ := Schema.declareAll_cons_eq_ok h
    have houtcome := outcome_of_eq_ok hfield
    rw [siblings, List.map_cons, houtcome, ih hfields, member, Visit.reference, houtcome]

end Visit

namespace Schema

variable {dedup : Dedup} {declared result : List Declaration}

/-- Passing over a field that is no tuple misses nothing. -/
theorem components_eq_nil_of_declare {field : Schema} {reference : Option String}
    (h : field.declare dedup declared = .ok (reference, result)) (hleaf : ¬ field.IsTuple) :
    field.components = [] := by
  have hread := (judges_declare field declared).exists_ok_iff.mp ⟨_, h⟩
  obtain ⟨type, htype⟩ := hread field (mem_allFields field)
  refine components_eq_nil htype ?_
  by_contra htuple
  exact hleaf ⟨type, htype, by simpa using htuple⟩

mutual

/-- A whole walk pushes the records of its tuples, each behind those inside it. -/
theorem declare_pushes : {field : Schema} → {declared result : List Declaration} →
    {reference : Option String} → field.declare dedup declared = .ok (reference, result) →
      Pushes dedup declared (field.visits dedup declared) result
  | ⟨name, type, components⟩, declared, result, reference, h => by
    rw [visits]
    rcases declare_cases h with ⟨hleaf, rfl, rfl⟩ | ⟨htuple, members, between, hall, rfl, rfl⟩
    · have hnone : components = [] := components_eq_nil_of_declare h hleaf
      rw [if_neg hleaf, hnone, visitsIn]
      exact .nil _
    · rw [if_pos htuple]
      have hrecord : (Visit.mk ⟨name, type, components⟩ declared).record dedup =
          ⟨Text.capitalize name, members⟩ := by
        rw [Visit.record, Visit.members, Visit.map_member_siblings hall]
      refine (declareAll_pushes hall).append (.cons ?_ ?_)
      · rw [hrecord]
        exact h
      · rw [hrecord]
        exact .nil _

theorem declareAll_pushes : {fields : List Schema} → {declared result : List Declaration} →
    {members : List Member} → declareAll dedup fields declared = .ok (members, result) →
      Pushes dedup declared (visitsIn dedup fields declared) result
  | [], declared, result, members, h => by
    cases h
    rw [visitsIn]
    exact .nil _
  | field :: fields, declared, result, members, h => by
    obtain ⟨reference, between, rest, hfield, hfields, rfl⟩ := declareAll_cons_eq_ok h
    rw [visitsIn, Visit.outcome_of_eq_ok hfield]
    exact (declare_pushes hfield).append (declareAll_pushes hfields)

end

/-- The records of a tuple are those that the walk leaves. -/
theorem declare_of_declarations {schema : Schema}
    (h : schema.declarations dedup = .ok declared) (htuple : schema.IsTuple) :
    ∃ name, schema.declare dedup [] = .ok (some name, declared) := by
  rw [declarations] at h
  obtain ⟨⟨reference, result⟩, hdeclare, h⟩ := Outcome.bind_eq_ok.mp h
  rcases declare_cases hdeclare with ⟨hleaf, _⟩ | ⟨_, members, between, _, rfl, _⟩
  · exact absurd htuple hleaf
  · cases h
    exact ⟨_, hdeclare⟩

/-- A valid tuple is declared by its walk. -/
theorem exists_pushes {schema : Schema} (hvalid : ∀ field ∈ schema.allFields, field.Readable)
    (htuple : schema.IsTuple) (dedup : Dedup) :
    ∃ declared, schema.declarations dedup = .ok declared ∧ schema.Ordered dedup declared ∧
      Pushes dedup [] (schema.visits dedup []) declared := by
  obtain ⟨declared, hdeclared⟩ := (judges_declarations schema dedup).exists_ok_iff.mpr hvalid
  obtain ⟨name, hdeclare⟩ := declare_of_declarations hdeclared htuple
  exact ⟨declared, hdeclared, (declare_declares hdeclare (.self schema) .nil).ordered,
    declare_pushes hdeclare⟩

end Schema

end RecordCodec
