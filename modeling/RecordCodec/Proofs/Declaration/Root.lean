import RecordCodec.Proofs.Declaration.References

/-!
# The record of the root

The record of the root is the last one the walk comes to. It is declared by the same rule as
the others, and by then all names inside the root are taken: a tuple of the same name, however
deep inside, keeps the record of the root from being declared. By structure, so does a record
with the same members.
-/

namespace RecordCodec

open Text (capitalize)

namespace Declaration

variable {dedup : Dedup} {record : Declaration} {declared : List Declaration}

theorem Fresh.push_eq (h : record.Fresh dedup declared) :
    push dedup record declared = (record.name, declared ++ [record]) := by
  cases dedup with
  | byName =>
    have hany : ¬ (declared.any fun other => other.name == record.name) := by
      simpa using h.name
    rw [push_byName, if_neg hany]
  | byStructure =>
    have htwin : Dedup.byStructure.twin? record.members declared = none := by
      rw [Dedup.twin?, List.find?_eq_none]
      simpa using h.members rfl
    rw [push_byStructure h.name, htwin, Option.elim_none]

theorem push_of_not_fresh (h : ¬ record.Fresh dedup declared) :
    (push dedup record declared).2 = declared := by
  rcases push_cases dedup record declared with ⟨hsame, _⟩ | ⟨hfresh, _⟩
  · exact hsame
  · exact absurd hfresh h

/-- A record is the last one if it is added, or if it repeats the last one. -/
theorem getLast?_push :
    (push dedup record declared).2.getLast? = some record ↔
      record.Fresh dedup declared ∨ declared.getLast? = some record := by
  by_cases hfresh : record.Fresh dedup declared
  · rw [hfresh.push_eq, List.getLast?_concat]
    exact iff_of_true rfl (.inl hfresh)
  · rw [push_of_not_fresh hfresh]
    exact (or_iff_right hfresh).symm

/-- By name, only the names of earlier records matter. -/
theorem fresh_byName_iff :
    record.Fresh .byName declared ↔ ∀ other ∈ declared, other.name ≠ record.name := by
  refine ⟨Fresh.name, fun hname => ⟨hname, ?_⟩⟩
  rintro ⟨⟩

/-- By name, the name of a record is taken once it has been pushed, declared or not. -/
theorem forall_push_byName {p : String → Prop} :
    (∀ other ∈ (push .byName record declared).2, p other.name) ↔
      (∀ other ∈ declared, p other.name) ∧ p record.name := by
  rw [push_byName]
  dsimp only
  split
  · rename_i htaken
    obtain ⟨twin, hmem, hname⟩ := List.any_eq_true.mp htaken
    rw [← eq_of_beq hname]
    exact ⟨fun h => ⟨h, h twin hmem⟩, And.left⟩
  · rw [List.forall_mem_append, List.forall_mem_singleton]

end Declaration

/-- By name, the names that are taken after a walk are those of its tuples. -/
theorem Pushes.forall_name_byName {declared result : List Declaration} {visits : List Visit}
    {p : String → Prop} (h : Pushes .byName declared visits result) :
    (∀ record ∈ result, p record.name) ↔
      (∀ record ∈ declared, p record.name) ∧
        ∀ tuple ∈ visits.map Visit.field, p (capitalize tuple.name) := by
  induction h with
  | nil => simp
  | @cons declared result visit visits _ _ ih =>
    rw [ih, Declaration.forall_push_byName, List.map_cons, List.forall_mem_cons, and_assoc]
    rfl

namespace Schema

variable {schema : Schema} {dedup : Dedup} {declared : List Declaration}

/-- The record of the root stands for it by what is declared inside. It is added as the last
one if neither its name nor, by structure, its members are there, and is not added otherwise.
So it comes last only in these cases, or if the last record inside is the same. By name,
this means that no tuple inside has the name of the root. -/
theorem root_last_iff_fresh (h : schema.declarations dedup = .ok declared)
    (htuple : schema.IsTuple) :
    ∃ root inner, declareAll dedup schema.components [] = .ok (root.members, inner) ∧
      root.StandsFor inner schema ∧
      (root.Fresh dedup inner → declared = inner ++ [root]) ∧
      (¬ root.Fresh dedup inner → declared = inner) ∧
      (declared.getLast? = some root ↔ root.Fresh dedup inner ∨ inner.getLast? = some root) ∧
      (dedup = .byName → (root.Fresh dedup inner ↔
        ∀ tuple ∈ tuplesIn schema.components, capitalize tuple.name ≠ capitalize schema.name)) := by
  obtain ⟨name, hdeclare⟩ := declare_of_declarations h htuple
  rcases declare_cases hdeclare with ⟨hleaf, _⟩ | ⟨_, members, inner, hall, _, hpush⟩
  · exact absurd htuple hleaf
  have hstands : (Declaration.mk (capitalize schema.name) members).StandsFor inner schema :=
    ⟨htuple, rfl, (declareAll_ordered hall
      (fun component hmem => .component hmem (.self component)) .nil).2.2⟩
  subst hpush
  refine ⟨⟨capitalize schema.name, members⟩, inner, hall, hstands, ?_,
    Declaration.push_of_not_fresh, Declaration.getLast?_push, ?_⟩
  · intro hfresh
    rw [hfresh.push_eq]
  · rintro rfl
    rw [Declaration.fresh_byName_iff,
      (declareAll_pushes hall).forall_name_byName (p := (· ≠ capitalize schema.name)),
      map_field_visitsIn]
    simp

/-- No tuple inside has the name of the root. -/
theorem root_last_iff_fresh_order :
    let schema : Schema :=
      ⟨"order", "tuple", [⟨"items", "tuple[]", [⟨"id", "uint32", []⟩]⟩, ⟨"note", "string", []⟩]⟩
    let declared : List Declaration := [⟨"Items", [⟨"id", "uint32"⟩]⟩,
      ⟨"Order", [⟨"items", "Items[]"⟩, ⟨"note", "string"⟩]⟩]
    schema.declarations .byName = .ok declared ∧ schema.IsTuple ∧
      ∃ root inner, root.StandsFor inner schema ∧ root.Fresh .byName inner ∧
        declared = inner ++ [root] := by
  intro schema declared
  have hdeclared : schema.declarations .byName = .ok declared := rfl
  have htuple : schema.IsTuple := by decide +kernel
  have hnames : ∀ tuple ∈ tuplesIn schema.components,
      capitalize tuple.name ≠ capitalize schema.name := by decide +kernel
  obtain ⟨root, inner, _, hstands, hlast, _, _, hfresh⟩ := root_last_iff_fresh hdeclared htuple
  have hadded := (hfresh rfl).mpr hnames
  exact ⟨hdeclared, htuple, root, inner, hstands, hadded, hlast hadded⟩

/-- A tuple inside has the name of the root: its record is all that is declared. -/
theorem root_lost_to_namesake :
    let schema : Schema :=
      ⟨"order", "tuple", [⟨"order", "tuple", [⟨"id", "uint32", []⟩]⟩, ⟨"note", "string", []⟩]⟩
    let inner : Declaration := ⟨"Order", [⟨"id", "uint32"⟩]⟩
    schema.IsTuple ∧ (∀ dedup, schema.declarations dedup = .ok [inner]) ∧
      ¬ inner.StandsFor [inner] schema := by
  intro schema inner
  refine ⟨by decide +kernel, ?_, ?_⟩
  · intro dedup
    cases dedup <;> rfl
  · intro hstands
    have hlength := hstands.members.length_eq
    cases hlength

/-- By structure, a root whose name is its own gives way to a record with the same members. -/
example :
    (Schema.mk "r" "tuple" [⟨"a", "tuple", [⟨"b", "tuple", [⟨"a", "tuple",
      [⟨"x", "bool", []⟩]⟩]⟩]⟩]).declarations .byStructure =
        .ok [⟨"A", [⟨"x", "bool"⟩]⟩, ⟨"B", [⟨"a", "A"⟩]⟩] := rfl

end Schema

end RecordCodec
