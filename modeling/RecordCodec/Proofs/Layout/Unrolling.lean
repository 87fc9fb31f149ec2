import RecordCodec.Layout.Unrolling
import RecordCodec.Proofs.Schema.WellFormed

/-!
# Unrolling keeps the shape

Unrolling writes a fixed dimension out as one component per index and puts a run of
dynamic dimensions into one field that counts them. Neither loses anything. The shape is
read back from the tree: of a fixed array from its first component, as there always is
one, and of a dynamic array from its element and the count.

What stands beside the first component of a fixed array is no further information. All
components are the same tree up to the name at the front of theirs, which is that of the
array with the index behind it. And a run is counted to its end: the element of a dynamic
array is never one itself, however fixed and dynamic dimensions are mixed.
-/

namespace RecordCodec

namespace FieldKind

/-- Whether the components take their names from the field. -/
def isArray : FieldKind → Bool
  | fixedArray _ | dynamicArray => true
  | _ => false

end FieldKind

namespace Field

mutual

/-- The shape of which a field tree is the unrolled form. -/
def shape? : Field → Option Shape
  | ⟨_, kind, extraLevels, _, components⟩ =>
    match kind with
    | .leaf type => some (.leaf type)
    | .tuple => (componentShapes? components).map .tuple
    | .fixedArray size => (firstShape? components).map (.array (.fixed size))
    | .dynamicArray => (firstShape? components).map fun element =>
        element.enclose (List.replicate (extraLevels + 1) .dynamic)

def componentShapes? : List Field → Option (List (String × Shape))
  | [] => some []
  | field :: fields =>
    field.shape?.bind fun shape => (componentShapes? fields).map ((field.name, shape) :: ·)

def firstShape? : List Field → Option Shape
  | [] => none
  | field :: _ => field.shape?

end

/-- A field of a tree, at any depth. -/
inductive Contains : (root field : Field) → Prop
  | root {root : Field} : Contains root root
  | inner {root component field : Field} (hmem : component ∈ root.components)
      (h : Contains component field) : Contains root field

/-- Two trees that differ in the front of some names only: where one has `old`, the other
has `new`. Array components have such names too, tuple components have names of their own. -/
inductive Renamed (old new : String) : (field other : Field) → Prop
  | plain {kind : FieldKind} {extraLevels : Nat} {shift : Option Int} {components : List Field}
      (back : String) (hkind : kind.isArray = false) :
      Renamed old new ⟨old ++ back, kind, extraLevels, shift, components⟩
        ⟨new ++ back, kind, extraLevels, shift, components⟩
  | array {kind : FieldKind} {extraLevels : Nat} {shift : Option Int}
      {components others : List Field} (back : String) (hkind : kind.isArray = true)
      (hlength : components.length = others.length)
      (hcomponents : ∀ pair ∈ components.zip others, Renamed old new pair.1 pair.2) :
      Renamed old new ⟨old ++ back, kind, extraLevels, shift, components⟩
        ⟨new ++ back, kind, extraLevels, shift, others⟩

/-- The components of an array are its elements: those of a fixed one are named by their
indices and alike apart from that, and a dynamic one has a single element that ends its
run of dimensions. -/
structure Unrolled (field : Field) : Prop where
  length : ∀ size, field.kind = .fixedArray size → field.components.length = size
  named : ∀ size, field.kind = .fixedArray size → ∀ i component,
    field.components[i]? = some component → component.name = Shape.elementName field.name i
  alike : ∀ size, field.kind = .fixedArray size → ∀ i j component other,
    field.components[i]? = some component → field.components[j]? = some other →
      Renamed (Shape.elementName field.name i) (Shape.elementName field.name j) component other
  element : field.kind = .dynamicArray →
    ∃ element, field.components = [element] ∧ element.kind ≠ .dynamicArray

theorem Unrolled.of_not_isArray {field : Field} (h : field.kind.isArray = false) :
    field.Unrolled := by
  have hfixed : ∀ size, field.kind ≠ .fixedArray size := by
    intro size hkind
    rw [hkind] at h
    cases h
  have hdynamic : field.kind ≠ .dynamicArray := by
    intro hkind
    rw [hkind] at h
    cases h
  exact ⟨fun size hkind => absurd hkind (hfixed size), fun size hkind => absurd hkind (hfixed size),
    fun size hkind => absurd hkind (hfixed size), fun hkind => absurd hkind hdynamic⟩

/-- Every field of the tree is unrolled. -/
def AllUnrolled (root : Field) : Prop := ∀ field, root.Contains field → field.Unrolled

theorem AllUnrolled.intro {root : Field} (hroot : root.Unrolled)
    (hcomponents : ∀ component ∈ root.components, component.AllUnrolled) : root.AllUnrolled := by
  intro field hpart
  cases hpart with
  | root => exact hroot
  | inner hmem hpart => exact hcomponents _ hmem field hpart

end Field

namespace Shape

theorem name_collapse {element : String → Field}
    (h : ∀ name, (element name).name = name) (run : Nat) (name : String) :
    (collapse run name element).name = name := by
  cases run with
  | zero => exact h name
  | succ extra => rfl

/-- A field carries the name that its shape is unrolled under. -/
theorem name_unrollIn : (shape : Shape) → (run : Nat) → (name : String) →
    (shape.unrollIn run name).name = name
  | leaf _, run, name => by
    rw [unrollIn]
    exact name_collapse (fun _ => rfl) run name
  | tuple _, run, name => by
    rw [unrollIn]
    exact name_collapse (fun _ => rfl) run name
  | array (.fixed _) _, run, name => by
    rw [unrollIn]
    exact name_collapse (fun _ => rfl) run name
  | array .dynamic element, run, name => by
    rw [unrollIn]
    exact name_unrollIn element (run + 1) name

theorem shape?_collapse {element : String → Field} {inner : Shape}
    (h : ∀ name, (element name).shape? = some inner) (run : Nat) (name : String) :
    (collapse run name element).shape? = some (inner.enclose (List.replicate run .dynamic)) := by
  cases run with
  | zero => exact h name
  | succ extra => simp only [collapse, Field.shape?, Field.firstShape?, h, Option.map_some]

theorem componentShapes?_unrollAll {components : List (String × Shape)}
    (h : ∀ component ∈ components, ∀ name,
      (component.2.unrollIn 0 name).shape? = some component.2) :
    Field.componentShapes? (unrollAll components) = some components := by
  induction components with
  | nil => rfl
  | cons component components ih =>
    obtain ⟨name, shape⟩ := component
    have hfirst := h (name, shape) (by simp) name
    have hrest := ih fun other hmem => h other (by simp [hmem])
    simp only [unrollAll, Field.componentShapes?, hfirst, hrest, name_unrollIn, Option.bind_some,
      Option.map_some]

/-- The dimensions that were being counted are read back around the shape. -/
theorem WellFormed.shape?_unrollIn {shape : Shape} (hshape : shape.WellFormed) (run : Nat)
    (name : String) : (shape.unrollIn run name).shape? =
      some (shape.enclose (List.replicate run .dynamic)) := by
  induction hshape generalizing run name with
  | leaf htype =>
    apply shape?_collapse
    intro name
    rfl
  | tuple hne hcomponents ih =>
    apply shape?_collapse
    intro name
    have hall := componentShapes?_unrollAll fun component hmem => ih component hmem 0
    simp only [Field.plain, Field.shape?, hall, Option.map_some]
  | @array dim element hdim helement ih =>
    cases dim with
    | fixed size =>
      apply shape?_collapse
      intro name
      -- A fixed dimension is positive, so there is a first component to read.
      obtain ⟨others, rfl⟩ : ∃ others, size = others + 1 := Nat.exists_eq_add_one.mpr hdim
      have hfirst : (element.unrollIn 0 (elementName name 0)).shape? = some element := ih 0 _
      simp only [Field.plain, Field.shape?, List.range_succ_eq_map, List.map_cons,
        Field.firstShape?, hfirst, Option.map_some]
    | dynamic => exact ih (run + 1) name

section Renaming

variable {old new : String}

theorem renamed_collapse {element : String → Field}
    (h : ∀ back, Field.Renamed old new (element (old ++ back)) (element (new ++ back)))
    (run : Nat) (back : String) :
    Field.Renamed old new (collapse run (old ++ back) element)
      (collapse run (new ++ back) element) := by
  cases run with
  | zero => exact h back
  | succ extra =>
    refine .array back rfl rfl ?_
    intro pair hmem
    obtain rfl : pair = (element (old ++ back ++ "[]"), element (new ++ back ++ "[]")) :=
      List.mem_singleton.mp hmem
    simpa only [String.append_assoc] using h (back ++ "[]")

theorem elementName_append (front back : String) (i : Nat) :
    elementName (front ++ back) i = front ++ elementName back i := by
  simp only [elementName, String.append_assoc]

/-- Under two names a shape unrolls to the same tree, up to these names. -/
theorem renamed_unrollIn : (shape : Shape) → (run : Nat) → (back : String) →
    Field.Renamed old new (shape.unrollIn run (old ++ back)) (shape.unrollIn run (new ++ back))
  | leaf _, run, back => by
    rw [unrollIn, unrollIn]
    exact renamed_collapse (fun back => .plain back rfl) run back
  | tuple _, run, back => by
    rw [unrollIn, unrollIn]
    exact renamed_collapse (fun back => .plain back rfl) run back
  | array (.fixed size) element, run, back => by
    rw [unrollIn, unrollIn]
    refine renamed_collapse (fun back => .array back rfl (by simp) ?_) run back
    intro pair hmem
    rw [List.zip_map', List.mem_map] at hmem
    obtain ⟨i, _, rfl⟩ := hmem
    simpa only [elementName_append] using renamed_unrollIn element 0 (elementName back i)
  | array .dynamic element, run, back => by
    rw [unrollIn, unrollIn]
    exact renamed_unrollIn element (run + 1) back

end Renaming

theorem allUnrolled_collapse {element : String → Field} (h : ∀ name, (element name).AllUnrolled)
    (hkind : ∀ name, (element name).kind ≠ .dynamicArray) (run : Nat) (name : String) :
    (collapse run name element).AllUnrolled := by
  cases run with
  | zero => exact h name
  | succ extra =>
    apply Field.AllUnrolled.intro
    · exact ⟨by simp [collapse], by simp [collapse], by simp [collapse],
        fun _ => ⟨_, rfl, hkind (name ++ "[]")⟩⟩
    · exact List.forall_mem_singleton.mpr (h (name ++ "[]"))

theorem allUnrolled_unrollAll {components : List (String × Shape)}
    (h : ∀ component ∈ components, ∀ name, (component.2.unrollIn 0 name).AllUnrolled) :
    ∀ field ∈ unrollAll components, field.AllUnrolled := by
  induction components with
  | nil => simp [unrollAll]
  | cons component components ih =>
    obtain ⟨name, shape⟩ := component
    rw [unrollAll, List.forall_mem_cons]
    exact ⟨h (name, shape) (by simp) name, ih fun other hmem => h other (by simp [hmem])⟩

/-- The components that a fixed dimension is unrolled to. -/
theorem unrolled_fixedArray (element : Shape) (size : Nat) (name : String) :
    (Field.plain name (.fixedArray size)
      ((List.range size).map fun i => element.unrollIn 0 (elementName name i))).Unrolled := by
  have hcomponent : ∀ i component,
      ((List.range size).map fun i => element.unrollIn 0 (elementName name i))[i]? =
        some component → component = element.unrollIn 0 (elementName name i) := by
    intro i component hcomponent
    obtain ⟨_, rfl⟩ := List.getElem?_eq_some_iff.mp hcomponent
    simp
  refine ⟨?_, ?_, ?_, fun hkind => by cases hkind⟩
  · intro other hkind
    cases hkind
    simp [Field.plain]
  · intro _ _ i component hi
    rw [hcomponent i component hi]
    exact name_unrollIn element 0 _
  · intro _ _ i j component other hi hj
    rw [hcomponent i component hi, hcomponent j other hj]
    have halike : Field.Renamed (elementName name i) (elementName name j) _ _ :=
      renamed_unrollIn element 0 ""
    rwa [String.append_empty, String.append_empty] at halike

theorem WellFormed.allUnrolled_unrollIn {shape : Shape} (hshape : shape.WellFormed) (run : Nat)
    (name : String) : (shape.unrollIn run name).AllUnrolled := by
  induction hshape generalizing run name with
  | leaf htype =>
    refine allUnrolled_collapse (fun name => .intro (.of_not_isArray rfl) ?_)
      (by simp [Field.plain]) run name
    simp [Field.plain]
  | tuple hne hcomponents ih =>
    refine allUnrolled_collapse (fun name => .intro (.of_not_isArray rfl) ?_)
      (by simp [Field.plain]) run name
    exact allUnrolled_unrollAll fun component hmem => ih component hmem 0
  | @array dim element hdim helement ih =>
    cases dim with
    | fixed size =>
      refine allUnrolled_collapse (fun name => .intro (unrolled_fixedArray element size name) ?_)
        (by simp [Field.plain]) run name
      exact List.forall_mem_map.mpr fun i _ => ih 0 (elementName name i)
    | dynamic => exact ih (run + 1) name

/-- Unrolling a resolved schema keeps its shape, and all arrays of the tree are unrolled
to their elements. -/
theorem unroll_keeps_shape {schema : Schema} {shape : Shape} (h : schema.resolve = .ok shape)
    (name : String) :
    (shape.unroll name).shape? = some shape ∧
      ∀ field, (shape.unroll name).Contains field →
        (∀ size, field.kind = .fixedArray size →
          field.components.length = size ∧
          ∀ i component, field.components[i]? = some component →
            component.name = elementName field.name i ∧
            ∀ j other, field.components[j]? = some other →
              Field.Renamed (elementName field.name i) (elementName field.name j) component
                other) ∧
        (field.kind = .dynamicArray →
          ∃ element, field.components = [element] ∧ element.kind ≠ .dynamicArray) := by
  have hshape := Schema.resolve_wellFormed h
  refine ⟨hshape.shape?_unrollIn 0 name, ?_⟩
  intro field hpart
  have hfield := hshape.allUnrolled_unrollIn 0 name field hpart
  refine ⟨?_, hfield.element⟩
  intro size hkind
  refine ⟨hfield.length size hkind, ?_⟩
  intro i component hi
  exact ⟨hfield.named size hkind i component hi,
    fun j other hj => hfield.alike size hkind i j component other hi hj⟩

/-- A dynamic dimension inside a fixed one, inside two dynamic ones. -/
theorem unroll_keeps_shape_mixed : ∃ shape,
    Schema.resolve ⟨"grid", "uint8[][2][][]", []⟩ = .ok shape ∧
      (shape.unroll "grid").shape? = some shape ∧
      ∃ pair first second, (shape.unroll "grid").components = [pair] ∧
        pair.kind = .fixedArray 2 ∧ pair.components = [first, second] ∧
        first.name = "grid[][0]" ∧ Field.Renamed "grid[][0]" "grid[][1]" first second := by
  have hshape : Schema.resolve ⟨"grid", "uint8[][2][][]", []⟩ =
      .ok (.array .dynamic (.array .dynamic (.array (.fixed 2)
        (.array .dynamic (.leaf (.primitive (.uint 8))))))) := rfl
  obtain ⟨hback, hfields⟩ := unroll_keeps_shape hshape "grid"
  have hpart := hfields _ (.inner (List.mem_singleton_self _) .root)
  obtain ⟨hfixed, _⟩ := hpart
  obtain ⟨_, hcomponents⟩ := hfixed 2 rfl
  obtain ⟨hname, halike⟩ := hcomponents 0 _ rfl
  exact ⟨_, hshape, hback, _, _, _, rfl, rfl, rfl, hname, halike 1 _ rfl⟩

end Shape

end RecordCodec
