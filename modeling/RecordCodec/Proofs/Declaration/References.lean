import RecordCodec.Proofs.Declaration.Visits

/-!
# What references to records mean

By name, a tuple is referred to by its own name whatever is declared, so the records can be
written down without the walk, and of those that share a name the first is declared.

By structure, a reference goes to a record that is declared already and has the same members.
Which members a tuple has depends on how its components are referred to, so one such reference
can make two outer tuples alike. As long as no two tuples share a name, all this comes down to
one rule: the record of a tuple is looked up by its members, and the first that has them is
found, at any time from when it is declared.
-/

namespace RecordCodec

open Text (capitalize)

namespace Dedup

theorem twin?_append (members : List Member) (front back : List Declaration) :
    byStructure.twin? members (front ++ back) =
      (byStructure.twin? members front).or (byStructure.twin? members back) :=
  List.find?_append

theorem twin?_cons (members : List Member) (record : Declaration) (rest : List Declaration) :
    byStructure.twin? members (record :: rest) =
      if record.members = members then some record else byStructure.twin? members rest := by
  rw [twin?, List.find?_cons]
  cases hbeq : record.members == members with
  | true => rw [if_pos (eq_of_beq hbeq)]
  | false => rw [if_neg (ne_of_beq_false hbeq), twin?]

end Dedup

namespace Declaration

variable {record : Declaration} {declared : List Declaration}

theorem push_byName (record : Declaration) (declared : List Declaration) :
    push .byName record declared = (record.name,
      if declared.any fun other => other.name == record.name then declared
      else declared ++ [record]) := by
  rw [push, Dedup.twin?]
  dsimp only
  split <;> rfl

theorem ne_name_of_nodup {rest : List Declaration}
    (hnames : ((declared ++ record :: rest).map name).Nodup) :
    ∀ other ∈ declared, other.name ≠ record.name := by
  intro other hmem
  rw [List.map_append, List.nodup_append] at hnames
  exact hnames.2.2 _ (List.mem_map_of_mem hmem) _ (by simp)

/-- A record whose name is not taken gives way only to one with the same members. -/
theorem push_byStructure (hfresh : ∀ other ∈ declared, other.name ≠ record.name) :
    push .byStructure record declared =
      (Dedup.byStructure.twin? record.members declared).elim (record.name, declared ++ [record])
        fun twin => (twin.name, declared) := by
  have hany : ¬ (declared.any fun other => other.name == record.name) := by
    simpa using hfresh
  rw [push, if_neg hany]
  cases Dedup.byStructure.twin? record.members declared <;> rfl

/-- Nothing but the record is added. -/
theorem push_append_sublist (dedup : Dedup) (record : Declaration)
    (declared rest : List Declaration) :
    ((push dedup record declared).2 ++ rest).Sublist (declared ++ record :: rest) := by
  rcases push_cases dedup record declared with ⟨hsame, _⟩ | ⟨_, hpush⟩
  · rw [hsame]
    exact (List.sublist_cons_self record rest).append_left declared
  · rw [hpush, List.append_assoc, List.singleton_append]

/-- Whether a record is added or gives way to a twin, the same is found by members as if it
were always added. -/
theorem twin?_push_append (hfresh : ∀ other ∈ declared, other.name ≠ record.name)
    (members : List Member) (rest : List Declaration) :
    Dedup.byStructure.twin? members ((push .byStructure record declared).2 ++ rest) =
      Dedup.byStructure.twin? members (declared ++ record :: rest) := by
  rw [push_byStructure hfresh]
  cases htwin : Dedup.byStructure.twin? record.members declared with
  | none => rw [Option.elim_none, List.append_assoc, List.singleton_append]
  | some twin =>
    rw [Option.elim_some, Dedup.twin?_append, Dedup.twin?_append, Dedup.twin?_cons]
    split_ifs
    · -- the record is not what its members lead to: its twin is found first
      rename_i hmembers
      rw [← hmembers, htwin, Option.some_or, Option.some_or]
    · rfl

/-- The name that is returned is that of the first record with the same members. -/
theorem push_byStructure_name (hfresh : ∀ other ∈ declared, other.name ≠ record.name)
    (rest : List Declaration) :
    some (push .byStructure record declared).1 =
      (Dedup.byStructure.twin? record.members (declared ++ record :: rest)).map name := by
  rw [push_byStructure hfresh, Dedup.twin?_append, Dedup.twin?_cons, if_pos rfl]
  cases Dedup.byStructure.twin? record.members declared <;> rfl

end Declaration

namespace Schema

variable {declared result : List Declaration}

/-- What a field is referred to by if every tuple goes by its own name. -/
def ownName (field : Schema) : Option String :=
  if field.IsTuple then some (capitalize field.name) else none

/-- The record of a tuple if every tuple goes by its own name. -/
def ownRecord (tuple : Schema) : Declaration where
  name := capitalize tuple.name
  members := tuple.components.map fun component =>
    ⟨component.name, memberType component.type component.ownName⟩

theorem reference_byName {field : Schema} {reference : Option String}
    (h : field.declare .byName declared = .ok (reference, result)) :
    reference = field.ownName := by
  rcases declare_cases h with ⟨hleaf, rfl, _⟩ | ⟨htuple, members, between, _, rfl, _⟩
  · rw [ownName, if_neg hleaf]
  · rw [ownName, if_pos htuple, Declaration.push_byName]

theorem members_byName {fields : List Schema} {members : List Member}
    (h : declareAll .byName fields declared = .ok (members, result)) :
    members = fields.map fun field => ⟨field.name, memberType field.type field.ownName⟩ := by
  induction fields generalizing declared members with
  | nil =>
    cases h
    rfl
  | cons field fields ih =>
    obtain ⟨reference, between, rest, hfield, hfields, rfl⟩ := declareAll_cons_eq_ok h
    rw [List.map_cons, ih hfields, reference_byName hfield]

end Schema

theorem Visit.record_byName {visit : Visit} {result : List Declaration} {name : String}
    (h : visit.field.declare .byName visit.declared = .ok (some name, result)) :
    visit.record .byName = visit.field.ownRecord := by
  rcases Schema.declare_cases h with ⟨_, href, _⟩ | ⟨_, members, between, hall, _, _⟩
  · cases href
  · rw [Visit.record, Visit.members, Visit.map_member_siblings hall, Schema.members_byName hall]
    rfl

namespace Pushes

variable {declared result : List Declaration} {visits : List Visit}

/-- Each tuple goes by its own name, and so do the tuples among its components. -/
theorem own_byName (h : Pushes .byName declared visits result) : ∀ visit ∈ visits,
    visit.reference .byName = some (capitalize visit.field.name) ∧
      visit.record .byName = visit.field.ownRecord := by
  induction h with
  | nil => simp
  | @cons declared result visit visits hvisit _ ih =>
    refine List.forall_mem_cons.mpr ⟨⟨?_, Visit.record_byName hvisit⟩, ih⟩
    rw [Visit.reference_of_eq_ok hvisit, Declaration.push_byName]
    rfl

/-- A record is declared unless an earlier one has its name. -/
theorem result_byName (h : Pushes .byName declared visits result) :
    result = List.eraseDupsBy.loop (fun a b => a.name == b.name)
      (visits.map (Visit.record .byName)) declared.reverse := by
  induction h with
  | nil declared => rw [List.map_nil, List.eraseDupsBy.loop, List.reverse_reverse]
  | @cons declared result visit visits _ _ ih =>
    rw [ih, Declaration.push_byName, List.map_cons, List.eraseDupsBy.loop, List.any_reverse]
    simp only [BEq.comm (a := (visit.record .byName).name)]
    split
    · rename_i htaken
      rw [htaken]
    · rename_i hfree
      rw [Bool.not_eq_true] at hfree
      rw [hfree, List.reverse_append, List.reverse_singleton, List.singleton_append]

end Pushes

namespace Pushes

variable {declared result : List Declaration} {visits : List Visit}

/-- What is found by members in the end is found among all records of the walk, declared or
not. -/
theorem twin?_result (h : Pushes .byStructure declared visits result)
    (hnames : ((declared ++ visits.map (Visit.record .byStructure)).map Declaration.name).Nodup)
    (members : List Member) : Dedup.byStructure.twin? members result =
      Dedup.byStructure.twin? members (declared ++ visits.map (Visit.record .byStructure)) := by
  induction h with
  | nil => rw [List.map_nil, List.append_nil]
  | cons hvisit hvisits ih =>
    rw [List.map_cons] at hnames ⊢
    rw [ih (hnames.sublist ((Declaration.push_append_sublist ..).map _)),
      Declaration.twin?_push_append (Declaration.ne_name_of_nodup hnames)]

/-- A tuple is referred to by the first record of the walk that has its members. -/
theorem reference_byStructure (h : Pushes .byStructure declared visits result)
    (hnames : ((declared ++ visits.map (Visit.record .byStructure)).map Declaration.name).Nodup) :
    ∀ visit ∈ visits, visit.reference .byStructure =
      (Dedup.byStructure.twin? (visit.members .byStructure)
        (declared ++ visits.map (Visit.record .byStructure))).map Declaration.name := by
  induction h with
  | nil => simp
  | @cons declared result first visits hvisit hvisits ih =>
    rw [List.map_cons] at hnames ⊢
    have hfresh := Declaration.ne_name_of_nodup hnames
    refine List.forall_mem_cons.mpr ⟨?_, ?_⟩
    · rw [Visit.reference_of_eq_ok hvisit]
      exact Declaration.push_byStructure_name hfresh _
    · intro visit hmem
      rw [ih (hnames.sublist ((Declaration.push_append_sublist ..).map _)) visit hmem,
        Declaration.twin?_push_append hfresh]

end Pushes

/-- The tuple is referred to by the name of the record. No other record has that name, and the
members are those of the tuple. -/
structure Visit.LeadsTo (declared : List Declaration) (visit : Visit) (record : Declaration) :
    Prop where
  mem : record ∈ declared
  reference : visit.reference .byStructure = some record.name
  unique : ∀ other ∈ declared, other.name = record.name → other = record
  members : record.members = visit.members .byStructure

namespace Visit.LeadsTo

variable {declared : List Declaration} {visit other : Visit} {record otherRecord : Declaration}

/-- References are the same where the members are. -/
theorem reference_eq_iff (h : visit.LeadsTo declared record)
    (hother : other.LeadsTo declared otherRecord)
    (hmembers : (declared.map Declaration.members).Nodup) :
    other.reference .byStructure = visit.reference .byStructure ↔
      other.members .byStructure = visit.members .byStructure := by
  rw [h.reference, hother.reference, ← h.members, ← hother.members, Option.some_inj]
  constructor
  · intro hname
    rw [h.unique otherRecord hother.mem hname]
  · intro hsame
    rw [List.inj_on_of_nodup_map hmembers hother.mem h.mem hsame]

end Visit.LeadsTo

namespace Pushes

variable {result : List Declaration} {visits : List Visit}

/-- The first tuple with the same members gives its name to the record. -/
theorem exists_leadsTo (h : Pushes .byStructure [] visits result)
    (hnames : (visits.map fun visit => capitalize visit.field.name).Nodup)
    (hresult : (result.map Declaration.name).Nodup) {visit : Visit} (hvisit : visit ∈ visits) :
    ∃ record, visit.LeadsTo result record ∧
      (visits.find? fun other => other.members .byStructure == visit.members .byStructure).map
        (fun first => capitalize first.field.name) = some record.name := by
  have hrecords : (([] ++ visits.map (Visit.record .byStructure)).map Declaration.name).Nodup := by
    rw [List.nil_append, List.map_map]
    exact hnames
  have hreference := h.reference_byStructure hrecords visit hvisit
  have hlookup := h.twin?_result hrecords (visit.members .byStructure)
  have hfirst : Dedup.byStructure.twin? (visit.members .byStructure)
      ([] ++ visits.map (Visit.record .byStructure)) =
        (visits.find? fun other => other.members .byStructure == visit.members .byStructure).map
          (Visit.record .byStructure) := List.find?_map
  rw [hfirst] at hreference hlookup
  cases hfind : visits.find? fun other =>
      other.members .byStructure == visit.members .byStructure with
  | none => simpa using List.find?_eq_none.mp hfind visit hvisit
  | some first =>
    rw [hfind] at hreference hlookup
    have hmem := Declaration.twin?_mem hlookup
    refine ⟨first.record .byStructure, ⟨hmem, hreference, ?_, ?_⟩, rfl⟩
    · intro other hother hname
      exact List.inj_on_of_nodup_map hresult hother hmem hname
    · have hsame := List.find?_some hfind
      exact eq_of_beq hsame

end Pushes

namespace Schema

/-- The walk visits every tuple, each behind those inside it, and the members of its record
refer to tuples where they are visited.

By name, what is declared are the records of all tuples in this order, with every tuple going
by its own name; of those that share a name only the first. By structure, and with no two
tuples of one name, each tuple leads to the only record of the name it is referred to by. That
record has its members, and its name is that of the first tuple with these members. -/
theorem references_lead_to_records {schema : Schema}
    (hvalid : ∀ field ∈ schema.allFields, field.Readable) (htuple : schema.IsTuple) :
    (∀ dedup, (schema.visits dedup []).map Visit.field = schema.tuples ∧
      ∀ visit ∈ schema.visits dedup [],
        ∀ component ∈ Visit.siblings dedup visit.field.components visit.declared,
          component.field.IsTuple → component ∈ schema.visits dedup []) ∧
    (schema.declarations .byName =
        .ok ((schema.tuples.map ownRecord).eraseDupsBy fun a b => a.name == b.name) ∧
      ∀ visit ∈ schema.visits .byName [],
        visit.reference .byName = some (capitalize visit.field.name)) ∧
    ((schema.tuples.map fun tuple => capitalize tuple.name).Nodup →
      ∃ declared, schema.declarations .byStructure = .ok declared ∧
        ∀ visit ∈ schema.visits .byStructure [],
          (∃ record, visit.LeadsTo declared record ∧
            ((schema.visits .byStructure []).find? fun other =>
                other.members .byStructure == visit.members .byStructure).map
              (fun first => capitalize first.field.name) = some record.name) ∧
          ∀ other ∈ schema.visits .byStructure [],
            other.reference .byStructure = visit.reference .byStructure ↔
              other.members .byStructure = visit.members .byStructure) := by
  refine ⟨?_, ?_, ?_⟩
  · intro dedup
    exact ⟨map_field_visits dedup schema [], fun _ hvisit _ => sibling_mem_visits hvisit⟩
  · obtain ⟨declared, hdeclared, _, hpushes⟩ := exists_pushes hvalid htuple .byName
    have hown := hpushes.own_byName
    have hrecords : (schema.visits .byName []).map (Visit.record .byName) =
        schema.tuples.map ownRecord := by
      rw [← map_field_visits .byName schema [], List.map_map]
      exact List.map_congr_left fun visit hmem => (hown visit hmem).2
    refine ⟨?_, fun visit hmem => (hown visit hmem).1⟩
    rw [hdeclared, hpushes.result_byName, hrecords]
    rfl
  · intro hnames
    obtain ⟨declared, hdeclared, hordered, hpushes⟩ := exists_pushes hvalid htuple .byStructure
    rw [← map_field_visits .byStructure schema [], List.map_map] at hnames
    have hleads := fun visit (hmem : visit ∈ schema.visits .byStructure []) =>
      hpushes.exists_leadsTo hnames hordered.names_nodup hmem
    refine ⟨declared, hdeclared, ?_⟩
    intro visit hvisit
    refine ⟨hleads visit hvisit, ?_⟩
    intro other hother
    obtain ⟨record, hrecord, _⟩ := hleads visit hvisit
    obtain ⟨otherRecord, hotherRecord, _⟩ := hleads other hother
    exact hrecord.reference_eq_iff hotherRecord (hordered.members_nodup rfl)

/-- By name, both tuples with the same members are declared. By structure, the second goes by
the name of the first. -/
theorem references_lead_to_records_twins :
    let source : Schema := ⟨"from", "tuple", [⟨"x", "int32", []⟩]⟩
    let target : Schema := ⟨"to", "tuple[2]", [⟨"x", "int32", []⟩]⟩
    let schema : Schema := ⟨"root", "tuple", [source, target]⟩
    let visit : Visit := ⟨target, [⟨"From", [⟨"x", "int32"⟩]⟩]⟩
    (∀ field ∈ schema.allFields, field.Readable) ∧ schema.IsTuple ∧
      (schema.tuples.map fun tuple => capitalize tuple.name).Nodup ∧
      visit ∈ schema.visits .byStructure [] ∧
      schema.declarations .byName = .ok [⟨"From", [⟨"x", "int32"⟩]⟩, ⟨"To", [⟨"x", "int32"⟩]⟩,
        ⟨"Root", [⟨"from", "From"⟩, ⟨"to", "To[2]"⟩]⟩] ∧
      ∃ declared record, schema.declarations .byStructure = .ok declared ∧
        visit.LeadsTo declared record ∧ record.name = "From" := by
  intro source target schema visit
  have hvalid : ∀ field ∈ schema.allFields, field.Readable := by decide +kernel
  have htuple : schema.IsTuple := by decide +kernel
  have hnames : (schema.tuples.map fun tuple => capitalize tuple.name).Nodup := by decide +kernel
  have hvisit : visit ∈ schema.visits .byStructure [] := by
    have hvisits : schema.visits .byStructure [] = [⟨source, []⟩, visit, ⟨schema, []⟩] := by
      simp only [source, target, schema, visit]
      rfl
    simp [hvisits]
  have hfirst : (schema.tuples.map ownRecord).eraseDupsBy (fun a b => a.name == b.name) =
      [⟨"From", [⟨"x", "int32"⟩]⟩, ⟨"To", [⟨"x", "int32"⟩]⟩,
        ⟨"Root", [⟨"from", "From"⟩, ⟨"to", "To[2]"⟩]⟩] := by decide +kernel
  obtain ⟨_, ⟨hbyName, _⟩, hbyStructure⟩ := references_lead_to_records hvalid htuple
  obtain ⟨declared, hdeclared, hleads⟩ := hbyStructure hnames
  obtain ⟨record, hrecord, _⟩ := (hleads visit hvisit).1
  have hreference : visit.reference .byStructure = some "From" := rfl
  rw [hrecord.reference] at hreference
  rw [hfirst] at hbyName
  exact ⟨hvalid, htuple, hnames, hvisit, hbyName, declared, record, hdeclared, hrecord,
    Option.some_inj.mp hreference⟩

end Schema

end RecordCodec
