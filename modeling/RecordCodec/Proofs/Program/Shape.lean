import RecordCodec.Proofs.Program.Compilation
import RecordCodec.Proofs.Reading.Unrolling

/-!
# Programs of shapes

The fields of a well-formed shape stay readable when positions are assigned, since
a number that would cross the end of a word starts a new one. Its program therefore
reads what the shape does, and fails exactly where the shape cannot be read.
-/

namespace RecordCodec

namespace Field

theorem readable_assignFrom {fields : List Field}
    (h : ∀ field ∈ fields, ∀ used, (field.assign used).1.Readable) (used : Nat) :
    ∀ field ∈ assignFrom fields used, field.Readable := by
  induction fields generalizing used with
  | nil =>
    rw [assignFrom]
    simp
  | cons field fields ih =>
    intro other hmem
    rw [assignFrom] at hmem
    rcases List.mem_cons.mp hmem with rfl | hmem
    · exact h field (by simp) used
    · exact ih (fun field hfield => h field (by simp [hfield])) _ other hmem

/-- Every number is assigned a position inside a word. -/
theorem Readable.assign {field : Field} (hfield : field.Readable) (used : Nat) :
    (field.assign used).1.Readable := by
  induction hfield generalizing used with
  | @intro field hplaced hcomponents ih =>
    obtain ⟨name, kind, extraLevels, shift, components⟩ := field
    cases kind with
    | leaf type =>
      cases type with
      | primitive type =>
        obtain ⟨htype, _⟩ := hplaced
        refine ⟨⟨htype, ?_⟩, hcomponents⟩
        intro assigned hassigned
        obtain ⟨_, _, hle⟩ := htype
        cases hassigned
        -- A number that would cross the end of its word starts the next one.
        split <;> omega
      | fixedBytes size => exact ⟨hplaced, hcomponents⟩
      | bytes => exact ⟨trivial, hcomponents⟩
      | string => exact ⟨trivial, hcomponents⟩
    | tuple => exact ⟨trivial, readable_assignFrom ih 0⟩
    | fixedArray size => exact ⟨trivial, readable_assignFrom ih 0⟩
    | dynamicArray => exact ⟨trivial, readable_assignFrom ih 0⟩

end Field

namespace Shape

theorem forall_mem_unrollAll {motive : Field → Prop} {components : List (String × Shape)}
    (h : ∀ component ∈ components, ∀ name, motive (component.2.unrollIn 0 name)) :
    ∀ field ∈ unrollAll components, motive field := by
  induction components with
  | nil =>
    rw [unrollAll]
    simp
  | cons component components ih =>
    intro field hmem
    obtain ⟨name, shape⟩ := component
    rw [unrollAll] at hmem
    rcases List.mem_cons.mp hmem with rfl | hmem
    · exact h (name, shape) (by simp) name
    · exact ih (fun other hother => h other (by simp [hother])) field hmem

/-- Unrolled shapes have every property that leaves without a position have and other
fields inherit from their components. -/
theorem WellFormed.unrollIn_induction {shape : Shape} (hshape : shape.WellFormed)
    {motive : Field → Prop}
    (hleaf : ∀ name type, type.WellFormed → motive (.plain name (.leaf type) []))
    (hnode : ∀ name kind extraLevels components, (∀ type, kind ≠ .leaf type) →
      (∀ component ∈ components, motive component) →
      motive ⟨name, kind, extraLevels, none, components⟩)
    (run : Nat) (name : String) : motive (shape.unrollIn run name) := by
  have hcollapse : ∀ element : String → Field, (∀ name, motive (element name)) →
      ∀ run name, motive (collapse run name element) := by
    intro element helement run name
    cases run with
    | zero => exact helement name
    | succ extra =>
      exact hnode _ _ _ _ (by simp) (List.forall_mem_singleton.mpr (helement (name ++ "[]")))
  induction hshape generalizing run name with
  | leaf htype => exact hcollapse _ (fun name => hleaf name _ htype) run name
  | tuple hne hcomponents ih =>
    refine hcollapse _ (fun name => hnode _ _ _ _ (by simp) ?_) run name
    exact forall_mem_unrollAll fun component hmem => ih component hmem 0
  | @array dim element hdim helement ih =>
    cases dim with
    | fixed size =>
      refine hcollapse _ (fun name => hnode _ _ _ _ (by simp) ?_) run name
      exact List.forall_mem_map.mpr fun i _ => ih 0 (elementName name i)
    | dynamic => exact ih (run + 1) name

theorem WellFormed.readable_unrollIn {shape : Shape} (hshape : shape.WellFormed) (run : Nat)
    (name : String) : (shape.unrollIn run name).Readable := by
  refine hshape.unrollIn_induction ?_ ?_ run name
  · intro name type htype
    refine ⟨?_, by simp [Field.plain]⟩
    cases type with
    | primitive type => exact ⟨htype, fun shift hshift => by cases hshift⟩
    | fixedBytes size => exact htype
    | bytes => trivial
    | string => trivial
  · intro name kind extraLevels components hkind hcomponents
    refine ⟨?_, hcomponents⟩
    cases kind with
    | leaf type => exact absurd rfl (hkind type)
    | _ => trivial

/-- The program of a well-formed shape reads what the shape does. -/
theorem WellFormed.toOption_run {shape : Shape} (hshape : shape.WellFormed) (name : String)
    (data : Bytes) :
    ((shape.program name).run data).toOption =
      (shape.read? data 0).map fun (value, consumed) => ⟨value, consumed⟩ := by
  have hroot : ((shape.unroll name).assign 0).1.Readable :=
    (hshape.readable_unrollIn 0 name).assign 0
  rw [program, hroot.run_ofRoot, Field.readRoot_assign, Outcome.toOption_bind,
    hshape.toOption_readRoot]
  cases shape.read? data 0 <;> rfl

end Shape

end RecordCodec
