import RecordCodec.Declaration
import RecordCodec.Proofs.Outcome
import RecordCodec.Schema.Shape

/-!
# Validity of schemas

A schema is resolved by one recursion and its records are declared by another. Both judge
each field by its own type alone, a field before its components and these from left to
right, so they accept the same schemas and stop at the same field with the same error.

The second one does not look inside a field that is no tuple. It misses nothing there: a type
that is read and is no tuple has no components.
-/

namespace RecordCodec

namespace Schema

mutual

/-- The field and all fields inside it, each before its components. -/
def allFields : Schema → List Schema
  | ⟨name, type, components⟩ => ⟨name, type, components⟩ :: allFieldsIn components

def allFieldsIn : List Schema → List Schema
  | [] => []
  | schema :: schemas => schema.allFields ++ allFieldsIn schemas

end

theorem mem_allFields : (schema : Schema) → schema ∈ schema.allFields
  | ⟨name, type, components⟩ => by
    rw [allFields]
    exact List.mem_cons_self

/-- The type of the field is read, whatever is inside the field. -/
def Readable (field : Schema) : Prop := ∃ type, field.fieldType = .ok type

theorem not_readable {field : Schema} {error : SchemaError} (h : field.fieldType = .error error) :
    ¬ field.Readable := by
  rintro ⟨type, htype⟩
  rw [h] at htype
  cases htype

instance : DecidablePred Readable := fun field =>
  match h : field.fieldType with
  | .ok type => isTrue ⟨type, h⟩
  | .error _ => isFalse (not_readable h)

/-- The first field whose type is not read is refused with the error. -/
def FirstRefused (fields : List Schema) (error : SchemaError) : Prop :=
  FirstFailure Readable (fun field => field.fieldType = .error error) fields

namespace FirstRefused

variable {fields : List Schema} {error other : SchemaError}

theorem exists_find? (h : FirstRefused fields error) :
    ∃ field, fields.find? (fun field => ¬ field.Readable) = some field ∧
      field.fieldType = .error error := by
  obtain ⟨front, field, rest, rfl, hfront, hfield⟩ := h
  refine ⟨field, ?_, hfield⟩
  rw [List.find?_eq_some_iff_append]
  exact ⟨by simpa using not_readable hfield, front, rest, rfl, by simpa using hfront⟩

theorem error_unique (h : FirstRefused fields error) (hother : FirstRefused fields other) :
    error = other := by
  obtain ⟨field, hfind, hfield⟩ := h.exists_find?
  obtain ⟨field', hfind', hfield'⟩ := hother.exists_find?
  rw [hfind] at hfind'
  cases hfind'
  rw [hfield] at hfield'
  cases hfield'
  rfl

end FirstRefused

/-- A pass over fields succeeds if the types of all are read, and otherwise stops at the first
that is not, with its error. -/
inductive Judges {α : Type} : List Schema → Except SchemaError α → Prop
  | ok {fields : List Schema} {a : α} (h : ∀ field ∈ fields, field.Readable) :
      Judges fields (.ok a)
  | error {fields : List Schema} {error : SchemaError} (h : FirstRefused fields error) :
      Judges fields (.error error)

namespace Judges

variable {α β : Type} {fields front back : List Schema} {x : Except SchemaError α}

theorem exists_ok_iff (h : Judges fields x) :
    (∃ a, x = .ok a) ↔ ∀ field ∈ fields, field.Readable := by
  cases h with
  | @ok a hread => exact iff_of_true ⟨a, rfl⟩ hread
  | error hrefused =>
    obtain ⟨field, hmem, hfield⟩ := hrefused.exists_mem
    refine iff_of_false (by simp) ?_
    intro hread
    exact not_readable hfield (hread field hmem)

theorem eq_error_iff (h : Judges fields x) {error : SchemaError} :
    x = .error error ↔ FirstRefused fields error := by
  cases h with
  | @ok a hread =>
    refine iff_of_false (by simp) ?_
    intro hrefused
    obtain ⟨field, hmem, hfield⟩ := hrefused.exists_mem
    exact not_readable hfield (hread field hmem)
  | @error first hfirst =>
    constructor
    · rintro ⟨⟩
      exact hfirst
    · intro hrefused
      rw [hfirst.error_unique hrefused]

theorem fieldType (field : Schema) : Judges [field] field.fieldType := by
  cases h : field.fieldType with
  | ok type => exact .ok (List.forall_mem_singleton.mpr ⟨type, h⟩)
  | error error => exact .error ⟨[], field, [], rfl, by simp, h⟩

theorem bind {f : α → Except SchemaError β} (hx : Judges front x)
    (hf : ∀ a, x = .ok a → Judges back (f a)) : Judges (front ++ back) (x >>= f) := by
  cases hx with
  | error h => exact .error (h.append back)
  | @ok a hfront =>
    have hback := hf a rfl
    rw [Outcome.ok_bind]
    cases hfa : f a with
    | ok b =>
      rw [hfa] at hback
      exact .ok (List.forall_mem_append.mpr ⟨hfront, hback.exists_ok_iff.mp ⟨b, rfl⟩⟩)
    | error error =>
      rw [hfa] at hback
      exact .error ((hback.eq_error_iff.mp rfl).behind hfront)

/-- What is made of a result does not fail. -/
theorem bind_ok {f : α → Except SchemaError β} (hx : Judges fields x)
    (hf : ∀ a, ∃ b, f a = .ok b) : Judges fields (x >>= f) := by
  have hback : ∀ a, x = .ok a → Judges [] (f a) := by
    intro a _
    obtain ⟨b, hb⟩ := hf a
    rw [hb]
    exact .ok (by simp)
  simpa using hx.bind hback

end Judges

/-- Only tuples have components, once the type of the field is read. -/
theorem components_eq_nil {schema : Schema} {type : FieldType} (h : schema.fieldType = .ok type)
    (hleaf : type.isTuple = false) : schema.components = [] := by
  unfold fieldType at h
  obtain ⟨parsed, _, h⟩ := Outcome.bind_eq_ok.mp h
  split at h
  · cases h
  · split at h
    · cases h
    · rename_i hcomponents
      cases h
      simpa [hleaf] using hcomponents

mutual

theorem judges_resolve : (schema : Schema) → Judges schema.allFields schema.resolve
  | ⟨name, type, components⟩ => by
    rw [resolve, allFields, ← List.singleton_append]
    refine .bind (.fieldType _) ?_
    intro fieldType hfieldType
    cases hbase : fieldType.base with
    | leaf leaf =>
      have hleaf : fieldType.isTuple = false := by simp [FieldType.isTuple, hbase]
      have hnone : components = [] := components_eq_nil hfieldType hleaf
      rw [hnone]
      exact .ok (by simp [allFieldsIn])
    | tuple => exact .bind_ok (judges_resolveAll components) fun shapes => ⟨_, rfl⟩

theorem judges_resolveAll : (schemas : List Schema) →
    Judges (allFieldsIn schemas) (resolveAll schemas)
  | [] => .ok (by simp [allFieldsIn])
  | schema :: schemas => by
    rw [resolveAll, allFieldsIn]
    refine .bind (judges_resolve schema) ?_
    intro shape _
    exact .bind_ok (judges_resolveAll schemas) fun shapes => ⟨_, rfl⟩

end

variable {dedup : Dedup}

mutual

/-- What is declared already plays no part in which fields are refused. -/
theorem judges_declare : (schema : Schema) → (declared : List Declaration) →
    Judges schema.allFields (schema.declare dedup declared)
  | ⟨name, type, components⟩, declared => by
    rw [declare, allFields, ← List.singleton_append]
    refine .bind (.fieldType _) ?_
    intro fieldType hfieldType
    cases htuple : fieldType.isTuple with
    | false =>
      have hnone : components = [] := components_eq_nil hfieldType htuple
      rw [hnone]
      exact .ok (by simp [allFieldsIn])
    | true => exact .bind_ok (judges_declareAll components declared) fun _ => ⟨_, rfl⟩

theorem judges_declareAll : (schemas : List Schema) → (declared : List Declaration) →
    Judges (allFieldsIn schemas) (declareAll dedup schemas declared)
  | [], declared => .ok (by simp [allFieldsIn])
  | schema :: schemas, declared => by
    rw [declareAll, allFieldsIn]
    refine .bind (judges_declare schema declared) ?_
    rintro ⟨reference, between⟩ _
    exact .bind_ok (judges_declareAll schemas between) fun _ => ⟨_, rfl⟩

end

theorem judges_declarations (schema : Schema) (dedup : Dedup) :
    Judges schema.allFields (schema.declarations dedup) := by
  refine .bind_ok (judges_declare schema []) ?_
  rintro ⟨reference, declared⟩
  cases reference with
  | none => exact ⟨_, rfl⟩
  | some name => exact ⟨_, rfl⟩

/-- A schema is resolved if and only if its records are declared, and if and only if the types
of all its fields are read. Otherwise both report the first field whose type is not. -/
theorem resolve_and_declarations_agree (schema : Schema) (dedup : Dedup) :
    ((∃ shape, schema.resolve = .ok shape) ↔
      ∀ field ∈ schema.allFields, ∃ type, field.fieldType = .ok type) ∧
    ((∃ declared, schema.declarations dedup = .ok declared) ↔
      ∀ field ∈ schema.allFields, ∃ type, field.fieldType = .ok type) ∧
    ∀ error, (schema.resolve = .error error ↔ FirstRefused schema.allFields error) ∧
      (schema.declarations dedup = .error error ↔ FirstRefused schema.allFields error) := by
  have hresolve := judges_resolve schema
  have hdeclarations := judges_declarations schema dedup
  refine ⟨hresolve.exists_ok_iff, hdeclarations.exists_ok_iff, ?_⟩
  intro error
  exact ⟨hresolve.eq_error_iff, hdeclarations.eq_error_iff⟩

end Schema

end RecordCodec
