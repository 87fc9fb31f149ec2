import RecordCodec.Proofs.Layout.Unrolling
import RecordCodec.Proofs.Program.Emission

/-!
# Blocks and their scopes

Every block of a compiled program comes from one place of the field tree. Its operations
are those of a scope, with the positions of that scope assigned, and they are numbered
from zero; or it is the block of a loop around another one, which stands there alone.

So what holds of all scopes of the tree holds of all blocks, at every depth. The tree is
that of a shape: each dynamic array has its element as the only component.
-/

namespace RecordCodec

namespace Op

/-- The number of the operation in its block. -/
def slot : Op → Nat
  | primitive _ read => read.slot
  | fixedBytes read => read.slot
  | lengthPrefixed entry _ => entry.slot
  | nested entry _ _ => entry.slot

theorem slot_counted {operation : Entry → Op} (h : ∀ entry, (operation entry).slot = entry.slot)
    (levels : Nat) (entry : Entry) : (counted operation levels entry).slot = entry.slot := by
  cases levels with
  | zero => exact h entry
  | succ levels => rfl

end Op

namespace Field

theorem slot_compileElement (components : List Field) (entry : Entry) :
    (compileElement components entry).slot = entry.slot := by
  cases components with
  | nil => rw [compileElement]; rfl
  | cons element others =>
    rw [compileElement]
    cases element.elementRead? <;> rfl

theorem slot_compile (field : Field) (slot : Nat) (window : Layout.Window) :
    (field.compile slot window).1.slot = slot := by
  obtain ⟨name, kind, extraLevels, shift, components⟩ := field
  cases kind with
  | leaf type => cases type <;> (rw [compile]; rfl)
  | tuple => rw [compile]; rfl
  | fixedArray size => rw [compile]; rfl
  | dynamicArray =>
    rw [compile]
    exact Op.slot_counted (slot_compileElement components) extraLevels _

/-- Operations of siblings are numbered in order. -/
theorem slot_compileFrom {fields : List Field} {slot : Nat} {window : Layout.Window} {i : Nat}
    {op : Op} (h : (compileFrom fields slot window).1[i]? = some op) : op.slot = slot + i := by
  induction fields generalizing slot window i with
  | nil =>
    rw [compileFrom] at h
    cases h
  | cons field fields ih =>
    rw [compileFrom_cons] at h
    cases i with
    | zero =>
      cases h
      exact slot_compile field slot window
    | succ i =>
      have hslot := ih h
      omega

theorem length_compileFrom (fields : List Field) (slot : Nat) (window : Layout.Window) :
    (compileFrom fields slot window).1.length = fields.length := by
  induction fields generalizing slot window with
  | nil => rw [compileFrom]; rfl
  | cons field fields ih => rw [compileFrom_cons, List.length_cons, List.length_cons, ih]

theorem length_compileScope (fields : List Field) :
    (compileScope (assignScope fields)).ops.length = fields.length := by
  rw [compileScope, assignScope, length_compileFrom, length_assignFrom]

/-- Each operation of a scope is that of the field in its place. -/
theorem exists_getElem?_of_compileFrom {fields : List Field} {used slot i : Nat}
    {window : Layout.Window} {op : Op}
    (h : (compileFrom (assignFrom fields used) slot window).1[i]? = some op) :
    ∃ field, fields[i]? = some field ∧
      ∃ used slot window, op = ((field.assign used).1.compile slot window).1 := by
  induction fields generalizing used slot window i with
  | nil =>
    rw [assignFrom, compileFrom] at h
    cases h
  | cons field fields ih =>
    rw [assignFrom, compileFrom_cons] at h
    cases i with
    | zero =>
      cases h
      exact ⟨field, rfl, used, slot, window, rfl⟩
    | succ i => exact ih h

/-- What holds of the operation of each sibling, wherever it is placed, holds of all. -/
theorem forall_mem_compileFrom {motive : Op → Prop} {fields : List Field}
    (h : ∀ field ∈ fields, ∀ used slot window,
      motive ((field.assign used).1.compile slot window).1)
    (used slot : Nat) (window : Layout.Window) :
    ∀ op ∈ (compileFrom (assignFrom fields used) slot window).1, motive op := by
  intro op hmem
  obtain ⟨i, hi⟩ := List.mem_iff_getElem?.mp hmem
  obtain ⟨field, hfield, used, slot, window, rfl⟩ := exists_getElem?_of_compileFrom hi
  exact h field (List.mem_of_getElem? hfield) used slot window

end Field

namespace NestedShape

/-- The fields that become operations of this shape. -/
def kind : NestedShape → FieldKind
  | tuple => .tuple
  | fixedArray size => .fixedArray size
  | dynamicArray => .dynamicArray

end NestedShape

namespace Field

/-- What stands in the block of an operation that a field becomes: the scope of its
components or, in a loop around another one, the latter. -/
inductive Fills (field : Field) : NestedShape → Block Op → Prop
  | scope {shape : NestedShape} (hkind : field.kind = shape.kind) :
      Fills field shape (compileScope (assignScope field.components))
  | level {op : Op} (hkind : field.kind = .dynamicArray) (hslot : op.slot = 0)
      (hskip : op.skip? = some 0) : Fills field .dynamicArray ⟨[op], 0⟩

/-- Each block in the operation is filled from a field of the tree. -/
def BlocksIn (root : Field) (op : Op) : Prop :=
  ∀ entry shape body, .nested entry shape body ∈ op.all → ∃ field, root.Contains field ∧
    field.Fills shape body

variable {root component : Field}

theorem BlocksIn.of_leaf {op : Op} (hall : op.all = [op])
    (hop : ∀ entry shape body, op ≠ .nested entry shape body) : root.BlocksIn op := by
  intro entry shape body hmem
  rw [hall, List.mem_singleton] at hmem
  exact absurd hmem.symm (hop entry shape body)

theorem BlocksIn.nested {entry : Entry} {shape : NestedShape} {body : Block Op}
    (hbody : root.Fills shape body) (hops : ∀ op ∈ body.ops, root.BlocksIn op) :
    root.BlocksIn (.nested entry shape body) := by
  intro inner form block hmem
  rcases Op.mem_all_nested.mp hmem with heq | ⟨op, hop, hmem⟩
  · cases heq
    exact ⟨root, .root, hbody⟩
  · exact hops op hop inner form block hmem

theorem BlocksIn.of_component (hmem : component ∈ root.components) {op : Op}
    (h : component.BlocksIn op) : root.BlocksIn op := by
  intro entry shape body hop
  obtain ⟨field, hpart, hfills⟩ := h entry shape body hop
  exact ⟨field, .inner hmem hpart, hfills⟩

theorem BlocksIn.counted (hkind : root.kind = .dynamicArray) {operation : Entry → Op}
    (hslot : ∀ entry, (operation entry).slot = entry.slot)
    (hloops : ∀ entry, (operation entry).LoopsBehind entry.skip)
    (h : ∀ entry, root.BlocksIn (operation entry)) (levels : Nat) (entry : Entry) :
    root.BlocksIn (Op.counted operation levels entry) := by
  induction levels generalizing entry with
  | zero => exact h entry
  | succ levels ih =>
    apply BlocksIn.nested
    · exact .level hkind (Op.slot_counted hslot levels _)
        (Op.loopsBehind_counted hloops levels _).skip
    · exact List.forall_mem_singleton.mpr (ih _)

theorem assignScope_singleton (field : Field) : assignScope [field] = [(field.assign 0).1] := rfl

/-- The innermost loop over an element, which is the scope of the element alone. -/
theorem blocksIn_compileElement {element : Field} (hkind : root.kind = .dynamicArray)
    (hcomponents : root.components = [element])
    (h : ∀ used slot window, root.BlocksIn ((element.assign used).1.compile slot window).1)
    (entry : Entry) : root.BlocksIn (compileElement [(element.assign 0).1] entry) := by
  rw [compileElement]
  cases (element.assign 0).1.elementRead? with
  | some read => exact .of_leaf rfl (by simp)
  | none =>
    have hbody : root.Fills .dynamicArray (compileScope (assignScope root.components)) :=
      .scope hkind
    rw [hcomponents, assignScope_singleton, compileScope_singleton] at hbody
    exact .nested hbody (List.forall_mem_singleton.mpr (h 0 0 {}))

/-- Wherever a field is placed, the blocks of its operation are filled from its tree. -/
theorem Readable.blocksIn_compile {field : Field} (hfield : field.Readable)
    (hunrolled : field.AllUnrolled) (used slot : Nat) (window : Layout.Window) :
    field.BlocksIn ((field.assign used).1.compile slot window).1 := by
  induction hfield generalizing used slot window with
  | @intro field hplaced hreadable ih =>
    have hinner : ∀ component ∈ field.components, ∀ used slot window,
        field.BlocksIn ((component.assign used).1.compile slot window).1 :=
      fun component hmem used slot window => .of_component hmem
        (ih component hmem (fun part hpart => hunrolled part (.inner hmem hpart)) used slot window)
    have hscope := forall_mem_compileFrom hinner 0 0 {}
    have helement := (hunrolled field .root).element
    obtain ⟨name, kind, extraLevels, shift, components⟩ := field
    cases kind with
    | leaf type => cases type <;> (rw [Field.assign, compile]; exact .of_leaf rfl (by simp))
    | tuple =>
      rw [Field.assign, compile]
      exact .nested (.scope rfl) hscope
    | fixedArray size =>
      rw [Field.assign, compile]
      exact .nested (.scope rfl) hscope
    | dynamicArray =>
      obtain ⟨element, hcomponents, _⟩ := helement rfl
      cases hcomponents
      rw [Field.assign, compile]
      exact .counted rfl (slot_compileElement _) (loopsBehind_compileElement _)
        (blocksIn_compileElement rfl rfl (hinner element (by simp))) extraLevels _

/-- Each block of the program of a root is filled from a field of its tree. -/
theorem Readable.fills_ofRoot (hroot : root.Readable) (hunrolled : root.AllUnrolled)
    {name : String} {entry : Entry} {shape : NestedShape} {body : Block Op}
    (h : .nested entry shape body ∈ (Program.ofRoot (root.assign 0).1 name).allOps) :
    ∃ field, root.Contains field ∧ field.Fills shape body := by
  have hinner : ∀ component ∈ root.components, ∀ used slot window,
      root.BlocksIn ((component.assign used).1.compile slot window).1 :=
    fun component hcomponent used slot window => .of_component hcomponent
      ((hroot.components component hcomponent).blocksIn_compile
        (fun part hpart => hunrolled part (.inner hcomponent hpart)) used slot window)
  have hscope := forall_mem_compileFrom hinner 0 0 {}
  have hsingle := forall_mem_compileFrom (List.forall_mem_singleton.mpr
    fun used slot window => hroot.blocksIn_compile hunrolled used slot window) 0 0 {}
  obtain ⟨op, hop, hmem⟩ := Op.mem_allIn.mp h
  obtain ⟨label, kind, extraLevels, shift, components⟩ := root
  cases kind with
  | leaf type => cases type <;> exact hsingle op hop entry shape body hmem
  | tuple => exact hscope op hop entry shape body hmem
  | fixedArray size => exact hsingle op hop entry shape body hmem
  | dynamicArray =>
    cases extraLevels with
    | zero =>
      obtain rfl := List.mem_singleton.mp hop
      exact BlocksIn.nested (.scope rfl) hscope entry shape body hmem
    | succ extra => exact hsingle op hop entry shape body hmem

end Field

/-- A block of a program whose positions are assigned: that of a scope, or one operation
that moves the cursor. -/
inductive Block.Placed : Block Op → Prop
  | scope {fields : List Field} (hfields : ∀ field ∈ fields, field.Readable) :
      Placed (Field.compileScope (Field.assignScope fields))
  | single {op : Op} (hslot : op.slot = 0) (hskip : op.skip? = some 0) : Placed ⟨[op], 0⟩

theorem Block.Placed.slot_eq {block : Block Op} (h : block.Placed) {i : Nat} {op : Op}
    (hop : block.ops[i]? = some op) : op.slot = i := by
  cases h with
  | scope hfields => simpa using Field.slot_compileFrom hop
  | single hslot hskip =>
    cases i with
    | zero =>
      cases hop
      exact hslot
    | succ i => cases hop

namespace Field

variable {root field : Field}

theorem Contains.readable (h : root.Contains field) (hroot : root.Readable) : field.Readable := by
  induction h with
  | root => exact hroot
  | inner hmem h ih => exact ih (hroot.components _ hmem)

theorem Fills.placed {shape : NestedShape} {body : Block Op} (h : field.Fills shape body)
    (hfield : field.Readable) : body.Placed := by
  cases h with
  | scope hkind => exact .scope hfield.components
  | level hkind hslot hskip => exact .single hslot hskip

theorem Readable.placed_ofRoot (hroot : root.Readable) (hunrolled : root.AllUnrolled)
    {name : String} {block : Block Op}
    (hblock : (Program.ofRoot (root.assign 0).1 name).HasBlock block) : block.Placed := by
  rcases hblock with rfl | ⟨entry, shape, hmem⟩
  · have hcomponents : (compileScope (assignScope root.components)).Placed :=
      .scope hroot.components
    have hsingle : (compileScope (assignScope [root])).Placed :=
      .scope (List.forall_mem_singleton.mpr hroot)
    rw [assignScope_singleton] at hsingle
    obtain ⟨label, kind, extraLevels, shift, components⟩ := root
    cases kind with
    | leaf type => cases type <;> exact hsingle
    | tuple => exact hcomponents
    | fixedArray size => exact hsingle
    | dynamicArray =>
      cases extraLevels with
      | zero => exact .single rfl rfl
      | succ extra => exact hsingle
  · obtain ⟨field, hpart, hfills⟩ := hroot.fills_ofRoot hunrolled hmem
    exact hfills.placed (hpart.readable hroot)

end Field

theorem Shape.WellFormed.placed_block {shape : Shape} (hshape : shape.WellFormed) (name : String)
    {block : Block Op} (hblock : (shape.program name).HasBlock block) : block.Placed :=
  (hshape.readable_unrollIn 0 name).placed_ofRoot (hshape.allUnrolled_unrollIn 0 name) hblock

end RecordCodec
