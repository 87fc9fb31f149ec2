import RecordCodec.Proofs.Codec.Decoding
import RecordCodec.Proofs.Program.Scopes

/-!
# Programs have the structure of their shapes

Whoever renders a program goes by its structure: which operation stands for which part of
the shape, how many there are in a block and in which slots. Running a program looks at
little of this, since it joins whatever values a block yields, so that programs run right
says nothing about it.

The structure is a relation between an operation and a shape. Leaves, tuples and fixed
dimensions each have an operation of their own. Of dynamic dimensions a whole run has as
many loops directly inside one another, and only leaves of a fixed width are read by the
innermost of them as counted elements. A root that is an array of a single dynamic
dimension is looped over in any case.
-/

namespace RecordCodec

/-- The leaf that an element is read as. -/
def ElementKind.type : ElementKind → Leaf
  | primitive type => .primitive type
  | fixedBytes size => .fixedBytes size

namespace Shape

/-- The leaf of a fixed width that the shape is, if it is one. -/
def fixedLeaf? : Shape → Option Leaf
  | leaf type => if type.isDynamic then none else some type
  | _ => none

theorem fixedLeaf?_eq_some {shape : Shape} {type : Leaf} :
    shape.fixedLeaf? = some type ↔ shape = leaf type ∧ type.isDynamic = false := by
  cases shape with
  | leaf other =>
    rw [leaf.injEq]
    constructor
    · intro h
      rw [fixedLeaf?] at h
      split at h
      · cases h
      · rename_i hfixed
        cases h
        exact ⟨rfl, Bool.eq_false_of_not_eq_true hfixed⟩
    · rintro ⟨rfl, htype⟩
      simp [fixedLeaf?, htype]
  | _ => simp [fixedLeaf?]

theorem enclose_replicate_succ (shape : Shape) (dim : Dimension) (levels : Nat) :
    shape.enclose (List.replicate (levels + 1) dim) =
      array dim (shape.enclose (List.replicate levels dim)) := by
  simp only [enclose, List.replicate_succ', List.foldl_append, List.foldl_cons, List.foldl_nil]

theorem isCounted_enclose_dynamic (element : Shape) (levels : Nat) :
    (element.enclose (List.replicate (levels + 1) .dynamic)).isCounted = true := by
  rw [enclose_replicate_succ]
  rfl

end Shape

namespace Op

/-- As many loops as there are levels, each alone in the block of the one around it, and
an operation in the innermost. -/
inductive Loops (inner : Op) : (levels : Nat) → Op → Prop
  | done : Loops inner 0 inner
  | loop {levels : Nat} {op : Op} {entry : Entry} {tail : Nat} (h : Loops inner levels op) :
      Loops inner (levels + 1) (.nested entry .dynamicArray ⟨[op], tail⟩)

/-- The operation has the structure of the shape. -/
inductive Mirrors : Op → Shape → Prop
  | primitive {type : Primitive} {read : WordRead} :
      Mirrors (.primitive type read) (.leaf (.primitive type))
  | fixedBytes {size : Nat} {read : WordRead} :
      Mirrors (.fixedBytes read) (.leaf (.fixedBytes size))
  | bytes {entry : Entry} : Mirrors (.lengthPrefixed entry .bytes) (.leaf .bytes)
  | text {entry : Entry} : Mirrors (.lengthPrefixed entry .text) (.leaf .string)
  | tuple {entry : Entry} {ops : List Op} {tail : Nat} {components : List (String × Shape)}
      (hlength : ops.length = components.length)
      (hops : ∀ pair ∈ ops.zip components, Mirrors pair.1 pair.2.2) :
      Mirrors (.nested entry .tuple ⟨ops, tail⟩) (.tuple components)
  | fixedArray {entry : Entry} {size : Nat} {ops : List Op} {tail : Nat} {element : Shape}
      (hlength : ops.length = size) (hops : ∀ op ∈ ops, Mirrors op element) :
      Mirrors (.nested entry (.fixedArray size) ⟨ops, tail⟩) (.array (.fixed size) element)
  /-- The innermost of the loops over a leaf of a fixed width reads elements. -/
  | elements {entry : Entry} {read : ElementRead} {levels : Nat} {op : Op}
      (hloops : Loops (.lengthPrefixed entry (.elements read)) levels op) :
      Mirrors op ((Shape.leaf read.leaf.type).enclose (List.replicate (levels + 1) .dynamic))
  /-- Inside the loops over anything else there is no further loop. -/
  | loops {element : Shape} {inner op : Op} {levels : Nat} (hrun : element.isCounted = false)
      (hwidth : element.fixedLeaf? = none) (hinner : Mirrors inner element)
      (hend : ¬ inner.IsLoop) (hloops : Loops inner (levels + 1) op) :
      Mirrors op (element.enclose (List.replicate (levels + 1) .dynamic))

theorem Loops.inner {inner op : Op} {levels : Nat} {entry : Entry} {tail : Nat}
    (h : Loops (.nested entry .dynamicArray ⟨[inner], tail⟩) levels op) :
    Loops inner (levels + 1) op := by
  induction h with
  | done => exact .loop .done
  | loop h ih => exact .loop ih

theorem loops_counted (operation : Entry → Op) (levels : Nat) (entry : Entry) :
    ∃ inner, Loops (operation inner) levels (counted operation levels entry) := by
  induction levels generalizing entry with
  | zero => exact ⟨entry, .done⟩
  | succ levels ih =>
    obtain ⟨inner, hloops⟩ := ih ⟨entry.name ++ "[]", 0, 0⟩
    exact ⟨inner, .loop hloops⟩

/-- The name of the loop that stands so many levels inside a run of dynamic dimensions. -/
def levelName (name : String) (level : Nat) : String :=
  name ++ String.join (List.replicate level "[]")

theorem levelName_succ (name : String) (level : Nat) :
    levelName (name ++ "[]") level = levelName name (level + 1) := by
  simp [levelName, List.replicate_succ, String.append_assoc]

/-- Loops are put around an operation one by one, the innermost first. -/
theorem counted_eq_foldr (operation : Entry → Op) (levels : Nat) (name : String) :
    counted operation levels ⟨name, 0, 0⟩ =
      (List.range levels).foldr
        (fun level op => nested ⟨levelName name level, 0, 0⟩ .dynamicArray ⟨[op], 0⟩)
        (operation ⟨levelName name levels, 0, 0⟩) := by
  induction levels generalizing name with
  | zero => simp [counted, levelName]
  | succ levels ih =>
    rw [counted, ih, List.range_succ_eq_map, List.foldr_cons, List.foldr_map]
    simp only [levelName_succ]
    simp [levelName]

/-- The operation in another slot and with another skip. -/
def placedAt (slot skip : Nat) : Op → Op
  | lengthPrefixed entry payload => lengthPrefixed ⟨entry.name, slot, skip⟩ payload
  | nested entry shape body => nested ⟨entry.name, slot, skip⟩ shape body
  | op => op

theorem placedAt_compileElement (components : List Field) (name : String) (slot skip : Nat) :
    (Field.compileElement components ⟨name, 0, 0⟩).placedAt slot skip =
      Field.compileElement components ⟨name, slot, skip⟩ := by
  cases components with
  | nil => rfl
  | cons element rest =>
    unfold Field.compileElement
    cases element.elementRead? with
    | some read => rfl
    | none => rfl

/-- A run of dynamic dimensions is compiled from its elements outwards, level by level, and
what comes out is put in its place. -/
theorem compile_dynamicArray_eq_foldr (name : String) (extraLevels : Nat) (shift : Option Int)
    (components : List Field) (slot : Nat) (window : Layout.Window) :
    (Field.compile ⟨name, .dynamicArray, extraLevels, shift, components⟩ slot window).1 =
      ((List.range extraLevels).foldr
        (fun level op => nested ⟨levelName name level, 0, 0⟩ .dynamicArray ⟨[op], 0⟩)
        (Field.compileElement components ⟨levelName name extraLevels, 0, 0⟩)).placedAt
          slot window.runBytes := by
  rw [← counted_eq_foldr, Field.compile]
  cases extraLevels with
  | zero => exact (placedAt_compileElement components name slot window.runBytes).symm
  | succ levels => rfl

/-- Only dynamic dimensions have loops. -/
theorem Mirrors.not_isLoop {op : Op} {shape : Shape} (h : op.Mirrors shape)
    (hshape : shape.isCounted = false) : ¬ op.IsLoop := by
  cases h with
  | elements hloops =>
    rw [Shape.isCounted_enclose_dynamic] at hshape
    cases hshape
  | loops hrun hwidth hinner hend hloops =>
    rw [Shape.isCounted_enclose_dynamic] at hshape
    cases hshape
  | _ => exact id

end Op

/-- The program has the structure of the shape, which is that of a root. -/
inductive Program.Mirrors : Program → Shape → Prop
  | tuple {name : String} {ops : List Op} {tail : Nat} {components : List (String × Shape)}
      (hlength : ops.length = components.length)
      (hops : ∀ pair ∈ ops.zip components, pair.1.Mirrors pair.2.2) :
      Mirrors ⟨name, .tuple, ⟨ops, tail⟩⟩ (.tuple components)
  /-- A single dynamic dimension is a loop, whatever its element is. -/
  | array {name : String} {op inner : Op} {tail : Nat} {element : Shape}
      (hrun : element.isCounted = false) (hinner : inner.Mirrors element)
      (hend : ¬ inner.IsLoop) (hloops : Op.Loops inner 1 op) :
      Mirrors ⟨name, .single, ⟨[op], tail⟩⟩ (.array .dynamic element)
  | single {name : String} {op : Op} {tail : Nat} {shape : Shape}
      (htuple : ∀ components, shape ≠ .tuple components)
      (hrun : ∀ element, shape = .array .dynamic element → element.isCounted = true)
      (hop : op.Mirrors shape) : Mirrors ⟨name, .single, ⟨[op], tail⟩⟩ shape

namespace Shape

/-- Wherever a field is placed, its operation has the structure of the shape. -/
def Mirrored (shape : Shape) (field : Field) : Prop :=
  ∀ used slot window, ((field.assign used).1.compile slot window).1.Mirrors shape

theorem mirrors_unrollAll {components : List (String × Shape)}
    (h : ∀ component ∈ components, ∀ name,
      component.2.Mirrored (component.2.unrollIn 0 name)) (used slot : Nat)
    (window : Layout.Window) :
    ∀ pair ∈ (Field.compileFrom (Field.assignFrom (unrollAll components) used) slot
      window).1.zip components, pair.1.Mirrors pair.2.2 := by
  induction components generalizing used slot window with
  | nil => simp
  | cons component components ih =>
    obtain ⟨name, shape⟩ := component
    rw [unrollAll, Field.assignFrom, Field.compileFrom_cons, List.zip_cons_cons,
      List.forall_mem_cons]
    exact ⟨h (name, shape) (by simp) name used slot window,
      ih (fun other hmem => h other (by simp [hmem])) _ _ _⟩

theorem length_unrollAll (components : List (String × Shape)) :
    (unrollAll components).length = components.length := by
  induction components with
  | nil => rfl
  | cons component components ih => rw [unrollAll, List.length_cons, List.length_cons, ih]

theorem length_scope_unrollAll (components : List (String × Shape)) :
    (Field.compileFrom (Field.assignFrom (unrollAll components) 0) 0 {}).1.length =
      components.length := by
  rw [Field.length_compileFrom, Field.length_assignFrom, length_unrollAll]

/-- A field around an element is looped over once for each dimension collapsed into it. -/
theorem mirrored_collapse {shape : Shape} {element : String → Field}
    (hrun : shape.isCounted = false) (h : ∀ name, shape.Mirrored (element name))
    (hread : ∀ name, (element name).elementRead?.map (·.leaf.type) = shape.fixedLeaf?)
    (run : Nat) (name : String) :
    (shape.enclose (List.replicate run .dynamic)).Mirrored (collapse run name element) := by
  cases run with
  | zero => exact h name
  | succ extra =>
    intro used slot window
    have hwidth := hread (name ++ "[]")
    obtain ⟨entry, hloops⟩ := Op.loops_counted
      (Field.compileElement [((element (name ++ "[]")).assign 0).1]) extra
      ⟨name, slot, window.runBytes⟩
    show (Op.counted (Field.compileElement [((element (name ++ "[]")).assign 0).1]) extra
      ⟨name, slot, window.runBytes⟩).Mirrors _
    rw [← Field.elementRead?_assign _ 0] at hwidth
    rw [Field.compileElement] at hloops
    cases hcase : ((element (name ++ "[]")).assign 0).1.elementRead? with
    | some read =>
      rw [hcase] at hloops hwidth
      obtain ⟨rfl, _⟩ := fixedLeaf?_eq_some.mp hwidth.symm
      exact .elements hloops
    | none =>
      rw [hcase] at hloops hwidth
      have hinner := h (name ++ "[]") 0 0 {}
      exact .loops hrun hwidth.symm hinner (hinner.not_isLoop hrun) hloops.inner

theorem WellFormed.mirrored_unrollIn {shape : Shape} (hshape : shape.WellFormed) (run : Nat)
    (name : String) :
    (shape.enclose (List.replicate run .dynamic)).Mirrored (shape.unrollIn run name) := by
  induction hshape generalizing run name with
  | @leaf type htype =>
    refine mirrored_collapse rfl ?_ (fun name => by cases type <;> rfl) run name
    intro name used slot window
    cases type with
    | primitive type => exact .primitive
    | fixedBytes size => exact .fixedBytes
    | bytes => exact .bytes
    | string => exact .text
  | @tuple components hne hcomponents ih =>
    refine mirrored_collapse rfl ?_ (fun name => rfl) run name
    intro name used slot window
    exact .tuple (length_scope_unrollAll components)
      (mirrors_unrollAll (fun component hmem name => ih component hmem 0 name) 0 0 {})
  | @array dim element hdim helement ih =>
    cases dim with
    | fixed size =>
      refine mirrored_collapse rfl ?_ (fun name => rfl) run name
      intro name used slot window
      refine .fixedArray ?_ ?_
      · simp [Field.length_compileFrom, Field.length_assignFrom]
      · refine Field.forall_mem_compileFrom (List.forall_mem_map.mpr ?_) 0 0 {}
        intro i hmem
        exact ih 0 (elementName name i)
    | dynamic => exact ih (run + 1) name

/-- Inside a dynamic dimension every shape is unrolled to a dynamic array. -/
theorem kind_unrollIn_succ : (shape : Shape) → (extra : Nat) → (name : String) →
    (shape.unrollIn (extra + 1) name).kind = .dynamicArray
  | leaf _, extra, name => by
    rw [unrollIn]
    rfl
  | tuple _, extra, name => by
    rw [unrollIn]
    rfl
  | array (.fixed _) _, extra, name => by
    rw [unrollIn]
    rfl
  | array .dynamic element, extra, name => by
    rw [unrollIn]
    exact kind_unrollIn_succ element (extra + 1) name

/-- A root that stands for several dynamic dimensions is a scope of one field. -/
theorem ofRoot_of_extraLevels {root : Field} (hkind : root.kind = .dynamicArray)
    (hlevels : root.extraLevels ≠ 0) (name : String) :
    Program.ofRoot root name = ⟨name, .single, Field.compileScope [root]⟩ := by
  unfold Program.ofRoot
  split
  · rename_i htuple
    rw [hkind] at htuple
    cases htuple
  · rename_i hzero
    exact absurd hzero hlevels
  · rfl

/-- The program of a well-formed shape has its structure. -/
theorem WellFormed.mirrors_program {shape : Shape} (hshape : shape.WellFormed) (name : String) :
    (shape.program name).Mirrors shape := by
  have hop : shape.Mirrored (shape.unroll name) := hshape.mirrored_unrollIn 0 name
  cases hshape with
  | @leaf type htype => cases type <;> exact .single (by simp) (by simp) (hop 0 0 {})
  | @tuple components hne hcomponents =>
    exact .tuple (length_scope_unrollAll components) (mirrors_unrollAll
      (fun component hmem name => (hcomponents component hmem).mirrored_unrollIn 0 name) 0 0 {})
  | @array dim element hdim helement =>
    cases dim with
    | fixed size => exact .single (by simp) (by simp) (hop 0 0 {})
    | dynamic =>
      rw [unroll, unrollIn] at hop
      rw [program, unroll, unrollIn]
      cases hrun : element.isCounted with
      | true =>
        have hkind := kind_unrollIn_succ element 0 name
        have hlevels := extraLevels_ne_zero hrun name
        rw [← Field.kind_assign _ 0] at hkind
        rw [← Field.extraLevels_assign _ 0] at hlevels
        rw [ofRoot_of_extraLevels hkind hlevels, Field.compileScope_singleton]
        refine .single (by simp) ?_ (hop 0 0 {})
        rintro _ ⟨⟩
        exact hrun
      | false =>
        have hinner := helement.mirrored_unrollIn 0 (name ++ "[]") 0 0 {}
        rw [unrollIn_of_not_isCounted hrun]
        exact .array hrun hinner (hinner.not_isLoop hrun) (.loop .done)

end Shape

namespace Program

theorem Mirrors.root_eq_tuple {program : Program} {shape : Shape} (h : program.Mirrors shape) :
    program.root = .tuple ↔ ∃ components, shape = .tuple components := by
  cases h with
  | tuple hlength hops => simp
  | array hrun hinner hend hloops => simp
  | single htuple hrun hop => simp [htuple]

theorem Mirrors.length_of_single {program : Program} {shape : Shape} (h : program.Mirrors shape)
    (hroot : program.root = .single) : program.body.ops.length = 1 := by
  cases h with
  | tuple hlength hops => cases hroot
  | array hrun hinner hend hloops => rfl
  | single htuple hrun hop => rfl

end Program

/-- The block of an operation has an operation for each component of the field that fills it. -/
theorem Field.Fills.length_ops {field : Field} {shape : NestedShape} {body : Block Op}
    (h : field.Fills shape body) (hfield : field.Unrolled) :
    (∀ size, shape = .fixedArray size → body.ops.length = size) ∧
      (shape = .dynamicArray → body.ops.length = 1) := by
  cases h with
  | scope hkind =>
    constructor
    · rintro size rfl
      rw [length_compileScope, hfield.length size hkind]
    · rintro rfl
      obtain ⟨element, hcomponents, _⟩ := hfield.element hkind
      rw [length_compileScope, hcomponents]
      rfl
  | level hkind hslot hskip =>
    constructor
    · rintro size ⟨⟩
    · intro _
      rfl

namespace Codec

variable {schema : Schema} {options : Options} {codec : Codec}

/-- A compiled program has the structure of its schema's shape. In every block the
operations are numbered from zero, and unrolled and counted arrays have as many
operations as they should. -/
theorem program_mirrors_shape (h : compile schema options = .ok codec) :
    codec.program.Mirrors codec.shape ∧
      (∀ block, codec.program.HasBlock block →
        ∀ (i : Nat) (op : Op), block.ops[i]? = some op → op.slot = i) ∧
      (∀ entry size body, .nested entry (.fixedArray size) body ∈ codec.program.allOps →
        body.ops.length = size) ∧
      (∀ entry body, .nested entry .dynamicArray body ∈ codec.program.allOps →
        body.ops.length = 1) ∧
      (codec.program.root = .tuple ↔ ∃ components, codec.shape = .tuple components) ∧
      (codec.program.root = .single → codec.program.body.ops.length = 1) := by
  have hshape := wellFormed_shape h
  obtain ⟨_, _, hprogram⟩ := compile_eq_ok h
  have hreadable := hshape.readable_unrollIn 0 schema.name
  have hunrolled := hshape.allUnrolled_unrollIn 0 schema.name
  have hmirrors := hshape.mirrors_program schema.name
  rw [hprogram]
  refine ⟨hmirrors, ?_, ?_, ?_, hmirrors.root_eq_tuple, hmirrors.length_of_single⟩
  · intro block hblock i op hop
    exact (hshape.placed_block schema.name hblock).slot_eq hop
  · intro entry size body hmem
    obtain ⟨field, hpart, hfills⟩ := hreadable.fills_ofRoot hunrolled hmem
    exact (hfills.length_ops (hunrolled field hpart)).1 size rfl
  · intro entry body hmem
    obtain ⟨field, hpart, hfills⟩ := hreadable.fills_ofRoot hunrolled hmem
    exact (hfills.length_ops (hunrolled field hpart)).2 rfl

/-- Rows of numbers, where the inner of two loops reads elements, and a pair of flags. -/
theorem program_mirrors_rows_and_flags : ∃ codec,
    compile ⟨"r", "tuple", [⟨"rows", "uint8[][]", []⟩, ⟨"flags", "bool[2]", []⟩]⟩ {} =
      .ok codec ∧
    ∃ rows first second entry, codec.program.body =
        ⟨[rows, .nested entry (.fixedArray 2) ⟨[first, second], 2⟩], 0⟩ ∧
      codec.program.root = .tuple ∧ entry.slot = 1 ∧ second.slot = 1 ∧
      rows.Mirrors (.array .dynamic (.array .dynamic (.leaf (.primitive (.uint 8))))) := by
  let row : Op := .lengthPrefixed ⟨"rows[]", 0, 0⟩ (.elements ⟨.primitive (.uint 8), 1, 248, 8⟩)
  let rows : Op := .nested ⟨"rows", 0, 0⟩ .dynamicArray ⟨[row], 0⟩
  let first : Op := .primitive .bool ⟨"flags[0]", 0, 0, 248, 8⟩
  let second : Op := .primitive .bool ⟨"flags[1]", 1, 0, 240, 8⟩
  let flags : Op := .nested ⟨"flags", 1, 0⟩ (.fixedArray 2) ⟨[first, second], 2⟩
  let shape : Shape := .tuple
    [("rows", .array .dynamic (.array .dynamic (.leaf (.primitive (.uint 8))))),
      ("flags", .array (.fixed 2) (.leaf (.primitive .bool)))]
  have hprogram : shape.program "r" = ⟨"r", .tuple, ⟨[rows, flags], 0⟩⟩ := by cbv
  have hcodec : compile
      ⟨"r", "tuple", [⟨"rows", "uint8[][]", []⟩, ⟨"flags", "bool[2]", []⟩]⟩ {} =
        .ok ⟨"r", shape, [⟨"R", [⟨"rows", "uint8[][]"⟩, ⟨"flags", "bool[2]"⟩]⟩],
          shape.program "r"⟩ := rfl
  rw [hprogram] at hcodec
  obtain ⟨hmirrors, hslots, _, _, hroot, _⟩ := program_mirrors_shape hcodec
  have hflags : flags ∈ Program.allOps ⟨"r", .tuple, ⟨[rows, flags], 0⟩⟩ := by
    simp [Program.allOps, Op.allIn, Op.all, flags]
  have hentry := hslots _ (.inl rfl) 1 flags rfl
  have hsecond := hslots _ (.inr ⟨_, _, hflags⟩) 1 second rfl
  cases hmirrors with
  | tuple hlength hops =>
    have hrows := hops (rows, _) (List.mem_cons_self ..)
    exact ⟨_, hcodec, rows, first, second, _, rfl, hroot.mpr ⟨_, rfl⟩, hentry, hsecond, hrows⟩

end Codec

end RecordCodec
