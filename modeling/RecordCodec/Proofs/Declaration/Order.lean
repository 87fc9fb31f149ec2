import Mathlib.Data.List.Forall2
import Mathlib.Data.List.Nodup
import RecordCodec.Declaration
import RecordCodec.Proofs.Outcome

/-!
# The order of declarations

Declarations are only ever added at the end, and a record is added when all records that
its members refer to are there. Whatever name a tuple is referred to by, some record has
it: the tuple's own, an earlier one of the same name, or an earlier one with the same
members. Hence every reference leads to a record further up, and no name is taken twice.
-/

namespace RecordCodec

namespace Schema

/-- The type of the field is readable and a tuple, with or without array suffixes. -/
def IsTuple (schema : Schema) : Prop := ∃ type, schema.fieldType = .ok type ∧ type.isTuple

/-- The schema itself, or a field anywhere inside. -/
inductive Within : Schema → Schema → Prop
  | self (schema : Schema) : Within schema schema
  | component {field component schema : Schema} (hmem : component ∈ schema.components)
      (hfield : Within field component) : Within field schema

end Schema

/-- The member that a component becomes: of its name, and of its type as it is written
unless it is a tuple. For a tuple, a record that is declared takes the place of its base. -/
structure Member.StandsFor (declared : List Declaration) (field : Schema) (member : Member) :
    Prop where
  name : member.name = field.name
  verbatim : ¬ field.IsTuple → member.type = field.type
  reference : field.IsTuple →
    ∃ record ∈ declared, member.type = record.name ++ FieldType.suffix field.type

theorem Member.StandsFor.mono {declared more : List Declaration} {field : Schema}
    {member : Member} (h : member.StandsFor declared field) (hmore : declared ⊆ more) :
    member.StandsFor more field where
  name := h.name
  verbatim := h.verbatim
  reference htuple := by
    obtain ⟨record, hmem, htype⟩ := h.reference htuple
    exact ⟨record, hmore hmem, htype⟩

/-- The record of a tuple, with references to declared records only. -/
structure Declaration.StandsFor (declared : List Declaration) (tuple : Schema)
    (record : Declaration) : Prop where
  isTuple : tuple.IsTuple
  name : record.name = Text.capitalize tuple.name
  members : List.Forall₂ (Member.StandsFor declared) tuple.components record.members

/-- What a record must not share with those declared before it. -/
structure Declaration.Fresh (dedup : Dedup) (declared : List Declaration)
    (record : Declaration) : Prop where
  name : ∀ other ∈ declared, other.name ≠ record.name
  members : dedup = .byStructure → ∀ other ∈ declared, other.members ≠ record.members

/-- Each declaration is fresh, and stands for a tuple of the schema by those before it. -/
inductive Schema.Ordered (schema : Schema) (dedup : Dedup) : List Declaration → Prop
  | nil : Ordered schema dedup []
  | snoc {declared : List Declaration} {record : Declaration} {tuple : Schema}
      (hdeclared : Ordered schema dedup declared) (hwithin : tuple.Within schema)
      (hrecord : record.StandsFor declared tuple) (hfresh : record.Fresh dedup declared) :
      Ordered schema dedup (declared ++ [record])

namespace Schema.Ordered

variable {schema : Schema} {dedup : Dedup} {declared : List Declaration}

theorem names_nodup (h : schema.Ordered dedup declared) :
    (declared.map Declaration.name).Nodup := by
  induction h with
  | nil => exact List.nodup_nil
  | snoc _ _ _ hfresh ih =>
    rw [List.map_append, List.nodup_append']
    refine ⟨ih, List.nodup_singleton _, ?_⟩
    simpa using hfresh.name

theorem members_nodup (h : schema.Ordered dedup declared) (hdedup : dedup = .byStructure) :
    (declared.map Declaration.members).Nodup := by
  induction h with
  | nil => exact List.nodup_nil
  | snoc _ _ _ hfresh ih =>
    rw [List.map_append, List.nodup_append']
    refine ⟨ih, List.nodup_singleton _, ?_⟩
    simpa using hfresh.members hdedup

/-- Seen from any declaration, only those before it count. -/
theorem standsFor (h : schema.Ordered dedup declared) {earlier later : List Declaration}
    {record : Declaration} (hat : declared = earlier ++ record :: later) :
    ∃ tuple, tuple.Within schema ∧ record.StandsFor earlier tuple := by
  induction h generalizing later with
  | nil => simp at hat
  | @snoc declared last tuple _ hwithin hrecord _ ih =>
    rcases List.eq_nil_or_concat later with rfl | ⟨middle, other, rfl⟩
    · obtain ⟨rfl, hlast⟩ := List.append_inj' hat rfl
      cases hlast
      exact ⟨tuple, hwithin, hrecord⟩
    · rw [List.concat_eq_append, ← List.cons_append, ← List.append_assoc] at hat
      exact ih (List.append_inj' hat rfl).1

end Schema.Ordered

namespace Declaration

variable {dedup : Dedup} {record : Declaration} {declared : List Declaration}

theorem twin?_eq_none {members : List Member} (h : dedup.twin? members declared = none)
    (hdedup : dedup = .byStructure) : ∀ other ∈ declared, other.members ≠ members := by
  subst hdedup
  intro other hmem
  have hnot := List.find?_eq_none.mp h other hmem
  simpa using hnot

theorem twin?_mem {members : List Member} {twin : Declaration}
    (h : dedup.twin? members declared = some twin) : twin ∈ declared := by
  cases dedup with
  | byName => cases h
  | byStructure => exact List.mem_of_find?_eq_some h

/-- A record that is not fresh leaves the declarations as they are, and one of these has
the name that is returned. A fresh record is added and returned by its own name. -/
theorem push_cases (dedup : Dedup) (record : Declaration) (declared : List Declaration) :
    ((push dedup record declared).2 = declared ∧
        ∃ other ∈ declared, other.name = (push dedup record declared).1) ∨
      (record.Fresh dedup declared ∧
        push dedup record declared = (record.name, declared ++ [record])) := by
  unfold push
  cases htwin : dedup.twin? record.members declared with
  | some twin => exact .inl ⟨rfl, twin, twin?_mem htwin, rfl⟩
  | none =>
    dsimp only
    split
    · rename_i htaken
      obtain ⟨other, hmem, hname⟩ := List.any_eq_true.mp htaken
      exact .inl ⟨rfl, other, hmem, by simpa using hname⟩
    · rename_i hfree
      refine .inr ⟨⟨?_, twin?_eq_none htwin⟩, rfl⟩
      intro other hmem hname
      exact hfree (List.any_eq_true.mpr ⟨other, hmem, by simpa using hname⟩)

end Declaration

namespace Schema

theorem Within.inner {field component schema : Schema} (h : field.Within schema)
    (hmem : component ∈ field.components) : component.Within schema := by
  induction h with
  | self => exact .component hmem (.self component)
  | component houter _ ih => exact .component houter ih

variable {dedup : Dedup} {declared result : List Declaration}

/-- A field that is no tuple is passed over. The record of a tuple follows those of its
components. -/
theorem declare_cases {field : Schema} {reference : Option String}
    (h : field.declare dedup declared = .ok (reference, result)) :
    (¬ field.IsTuple ∧ reference = none ∧ result = declared) ∨
      (field.IsTuple ∧ ∃ members between,
        declareAll dedup field.components declared = .ok (members, between) ∧
        reference = some (Declaration.push dedup ⟨Text.capitalize field.name, members⟩ between).1 ∧
        result = (Declaration.push dedup ⟨Text.capitalize field.name, members⟩ between).2) := by
  obtain ⟨name, type, components⟩ := field
  rw [declare] at h
  obtain ⟨fieldType, hfieldType, h⟩ := Outcome.bind_eq_ok.mp h
  split at h
  · rename_i htuple
    obtain ⟨⟨members, between⟩, hmembers, h⟩ := Outcome.bind_eq_ok.mp h
    cases h
    exact .inr ⟨⟨fieldType, hfieldType, htuple⟩, members, between, hmembers, rfl, rfl⟩
  · rename_i hleaf
    cases h
    refine .inl ⟨?_, rfl, rfl⟩
    rintro ⟨other, hother, htuple⟩
    rw [hfieldType] at hother
    cases hother
    exact hleaf htuple

/-- The type of a member, by the name that its component is referred to by. -/
def memberType (type : String) : Option String → String
  | some record => record ++ FieldType.suffix type
  | none => type

theorem declareAll_cons_eq_ok {field : Schema} {fields : List Schema} {members : List Member}
    (h : declareAll dedup (field :: fields) declared = .ok (members, result)) :
    ∃ reference between rest, field.declare dedup declared = .ok (reference, between) ∧
      declareAll dedup fields between = .ok (rest, result) ∧
      members = ⟨field.name, memberType field.type reference⟩ :: rest := by
  rw [declareAll] at h
  obtain ⟨⟨reference, between⟩, hfield, h⟩ := Outcome.bind_eq_ok.mp h
  obtain ⟨⟨rest, last⟩, hfields, h⟩ := Outcome.bind_eq_ok.mp h
  cases h
  exact ⟨reference, between, rest, hfield, hfields, rfl⟩

/-- What declaring a field leaves: ordered declarations, the earlier ones in front, and a
record of the name that is returned for a tuple. -/
structure Declares (schema : Schema) (dedup : Dedup) (declared : List Declaration)
    (field : Schema) (reference : Option String) (result : List Declaration) : Prop where
  ordered : schema.Ordered dedup result
  grows : declared <+: result
  isTuple : reference.isSome ↔ field.IsTuple
  resolves : ∀ name, reference = some name → ∃ record ∈ result, record.name = name

/-- Pushing the record of a tuple whose members lead to declared records. -/
theorem Declares.push {schema field : Schema} {members : List Member}
    (hordered : schema.Ordered dedup declared) (hwithin : field.Within schema)
    (hrecord : (Declaration.mk (Text.capitalize field.name) members).StandsFor declared field) :
    Declares schema dedup declared field
      (some (Declaration.push dedup ⟨Text.capitalize field.name, members⟩ declared).1)
      (Declaration.push dedup ⟨Text.capitalize field.name, members⟩ declared).2 := by
  have hisTuple : ∀ name : String, (some name).isSome ↔ field.IsTuple :=
    fun name => iff_of_true rfl hrecord.isTuple
  rcases Declaration.push_cases dedup ⟨Text.capitalize field.name, members⟩ declared with
    ⟨hsame, other, hmem, hname⟩ | ⟨hfresh, hpush⟩
  · rw [hsame]
    refine ⟨hordered, List.prefix_refl _, hisTuple _, ?_⟩
    rintro _ ⟨⟩
    exact ⟨other, hmem, hname⟩
  · rw [hpush]
    refine ⟨.snoc hordered hwithin hrecord hfresh, List.prefix_append _ _, hisTuple _, ?_⟩
    rintro _ ⟨⟩
    exact ⟨_, List.mem_append_right _ (List.mem_singleton_self _), rfl⟩

/-- The member of a component, by what declaring the component returns. -/
theorem Declares.member {schema field : Schema} {reference : Option String}
    (h : Declares schema dedup declared field reference result) :
    Member.StandsFor result field ⟨field.name, memberType field.type reference⟩ where
  name := rfl
  verbatim hleaf := by
    cases reference with
    | none => rfl
    | some name => exact absurd (h.isTuple.mp rfl) hleaf
  reference htuple := by
    cases reference with
    | none => cases h.isTuple.mpr htuple
    | some name =>
      obtain ⟨record, hmem, rfl⟩ := h.resolves name rfl
      exact ⟨record, hmem, rfl⟩

variable {schema : Schema}

mutual

/-- Declaring a field keeps the declarations ordered and leaves a record to refer to. -/
theorem declare_declares : {field : Schema} → {declared result : List Declaration} →
    {reference : Option String} → field.declare dedup declared = .ok (reference, result) →
      field.Within schema → schema.Ordered dedup declared →
        Declares schema dedup declared field reference result
  | ⟨name, type, components⟩, declared, result, reference, h, hwithin, hordered => by
    rcases declare_cases h with ⟨hleaf, rfl, rfl⟩ | ⟨htuple, members, between, hall, rfl, rfl⟩
    · exact ⟨hordered, List.prefix_refl _, iff_of_false (by simp) hleaf, by simp⟩
    · obtain ⟨hbetween, hgrows, hmembers⟩ := declareAll_ordered hall
        (fun component hmem => hwithin.inner hmem) hordered
      have hpush := Declares.push hbetween hwithin ⟨htuple, rfl, hmembers⟩
      exact ⟨hpush.ordered, hgrows.trans hpush.grows, hpush.isTuple, hpush.resolves⟩

/-- Each component is declared on top of what those before it leave, and nothing that
follows takes away a record that its member refers to. -/
theorem declareAll_ordered : {fields : List Schema} → {declared result : List Declaration} →
    {members : List Member} → declareAll dedup fields declared = .ok (members, result) →
      (∀ field ∈ fields, field.Within schema) → schema.Ordered dedup declared →
        schema.Ordered dedup result ∧ declared <+: result ∧
          List.Forall₂ (Member.StandsFor result) fields members
  | [], declared, result, members, h, _, hordered => by
    cases h
    exact ⟨hordered, List.prefix_refl _, .nil⟩
  | field :: fields, declared, result, members, h, hwithin, hordered => by
    obtain ⟨reference, between, rest, hfield, hfields, rfl⟩ := declareAll_cons_eq_ok h
    have hfirst := declare_declares hfield (hwithin field (by simp)) hordered
    obtain ⟨hresult, hgrows, hrest⟩ := declareAll_ordered hfields
      (fun other hmem => hwithin other (by simp [hmem])) hfirst.ordered
    exact ⟨hresult, hfirst.grows.trans hgrows, .cons (hfirst.member.mono hgrows.subset) hrest⟩

end

/-- A root that is no tuple is declared as a record with itself as the only member. -/
theorem declarations_cases (h : schema.declarations dedup = .ok declared) :
    schema.Ordered dedup declared ∨
      (¬ schema.IsTuple ∧
        declared = [⟨Text.capitalize schema.name, [⟨schema.name, schema.type⟩]⟩]) := by
  rw [declarations] at h
  obtain ⟨⟨reference, result⟩, hdeclare, h⟩ := Outcome.bind_eq_ok.mp h
  have hdeclares := declare_declares hdeclare (.self schema) .nil
  cases reference with
  | some name =>
    cases h
    exact .inl hdeclares.ordered
  | none =>
    rcases declare_cases hdeclare with ⟨hleaf, _, rfl⟩ | ⟨_, _, _, _, href, _⟩
    · cases dedup <;> cases h <;> exact .inr ⟨hleaf, rfl⟩
    · cases href

/-- Declarations are closed and in order. No two share a name, and by structure no two
share their members. Where the root is a tuple, each stands for a tuple of the schema and
refers only to records before it. -/
theorem declarations_ordered (h : schema.declarations dedup = .ok declared) :
    (declared.map Declaration.name).Nodup ∧
      (dedup = .byStructure → (declared.map Declaration.members).Nodup) ∧
      (schema.IsTuple → ∀ earlier record later, declared = earlier ++ record :: later →
        ∃ tuple, tuple.Within schema ∧ record.StandsFor earlier tuple) := by
  rcases declarations_cases h with hordered | ⟨hleaf, rfl⟩
  · exact ⟨hordered.names_nodup, hordered.members_nodup,
      fun _ earlier record later hat => hordered.standsFor hat⟩
  · exact ⟨List.nodup_singleton _, fun _ => List.nodup_singleton _,
      fun htuple => absurd htuple hleaf⟩

/-- The name of the second tuple is taken, and the third repeats the members of the first:
the first one serves for all. -/
theorem declarations_ordered_pairs :
    let schema : Schema := ⟨"pool", "tuple", [⟨"pair", "tuple", [⟨"x", "uint8", []⟩]⟩,
      ⟨"Pair", "tuple[2]", [⟨"y", "bool", []⟩]⟩, ⟨"twin", "tuple[]", [⟨"x", "uint8", []⟩]⟩]⟩
    let pair : Declaration := ⟨"Pair", [⟨"x", "uint8"⟩]⟩
    let pool : Declaration := ⟨"Pool", [⟨"pair", "Pair"⟩, ⟨"Pair", "Pair[2]"⟩, ⟨"twin", "Pair[]"⟩]⟩
    schema.declarations .byStructure = .ok [pair, pool] ∧ schema.IsTuple ∧
      ∃ tuple, tuple.Within schema ∧ pool.StandsFor [pair] tuple := by
  intro schema pair pool
  have hdeclared : schema.declarations .byStructure = .ok [pair, pool] := rfl
  have hparse : FieldType.parse "pool" "tuple" = .ok ⟨.tuple, []⟩ := rfl
  have htype : schema.fieldType = .ok ⟨.tuple, []⟩ := by
    rw [fieldType, hparse]
    rfl
  have htuple : schema.IsTuple := ⟨_, htype, rfl⟩
  exact ⟨hdeclared, htuple, (declarations_ordered hdeclared).2.2 htuple [pair] pool [] rfl⟩

end Schema

end RecordCodec
