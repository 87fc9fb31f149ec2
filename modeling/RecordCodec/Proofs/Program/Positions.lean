import RecordCodec.Proofs.Program.Shape

/-!
# Positions are advisory

The positions assigned to the numbers of a scope only choose the windows through which
the numbers are read. Without them a number opens a new window unless it stands at the
start of one, and byte strings then cross at other places, so the two programs differ in
their windows almost throughout. They differ in nothing else: both have the same reads,
skips and tails, and on every input they give the same value or stop at the same error.

That the windows do not show in a run is not argued window by window. Whatever the
positions, a program runs as its field tree reads, and reading knows no positions.
-/

namespace RecordCodec

namespace Op

mutual

/-- The operation without the windows of its word reads: what is left of a read is its
name, its slot and its width. -/
def skeleton : Op → Op
  | .primitive type ⟨name, slot, _, _, bits⟩ => .primitive type ⟨name, slot, 0, 0, bits⟩
  | .fixedBytes ⟨name, slot, _, _, bits⟩ => .fixedBytes ⟨name, slot, 0, 0, bits⟩
  | .lengthPrefixed entry payload => .lengthPrefixed entry payload
  | .nested entry shape ⟨ops, tail⟩ => .nested entry shape ⟨skeletonAll ops, tail⟩

def skeletonAll : List Op → List Op
  | [] => []
  | op :: ops => op.skeleton :: skeletonAll ops

end

theorem skeleton_counted {operation other : Entry → Op}
    (h : ∀ entry, (operation entry).skeleton = (other entry).skeleton) (levels : Nat)
    (entry : Entry) :
    (counted operation levels entry).skeleton = (counted other levels entry).skeleton := by
  induction levels generalizing entry with
  | zero => exact h entry
  | succ levels ih => simp only [counted, skeleton, skeletonAll, ih]

end Op

def Block.skeleton (block : Block Op) : Block Op := ⟨Op.skeletonAll block.ops, block.tail⟩

theorem Op.skeleton_nested (entry : Entry) (shape : NestedShape) (body : Block Op) :
    (nested entry shape body).skeleton = nested entry shape body.skeleton := by
  obtain ⟨ops, tail⟩ := body
  rw [skeleton, Block.skeleton]

def Program.skeleton (program : Program) : Program :=
  ⟨program.rootName, program.root, program.body.skeleton⟩

namespace Field

mutual

/-- A field compiles to the same skeleton with a position and without, behind runs of the
same length, and leaves runs of the same length behind. -/
theorem skeleton_compile_assign : (field : Field) → (used slot : Nat) →
    {window other : Layout.Window} → window.runBits = other.runBits →
    ((field.assign used).1.compile slot window).1.skeleton =
        (field.compile slot other).1.skeleton ∧
      ((field.assign used).1.compile slot window).2.runBits =
        (field.compile slot other).2.runBits
  | ⟨name, kind, extraLevels, shift, components⟩, used, slot, window, other, h => by
    have hskip : window.runBytes = other.runBytes := congrArg (· / 8) h
    obtain ⟨hops, htail⟩ := @skeleton_compileFrom_assignFrom components 0 0 {} {} rfl
    have hbytes : (compileFrom (assignFrom components 0) 0 {}).2.runBytes =
        (compileFrom components 0 {}).2.runBytes := congrArg (· / 8) htail
    cases kind with
    | leaf type =>
      cases type with
      | primitive type => simp [assign, compile, Op.skeleton, h]
      | fixedBytes size => simp [assign, compile, Op.skeleton, h]
      | bytes => simp [assign, compile, Op.skeleton, Layout.Window.close, hskip]
      | string => simp [assign, compile, Op.skeleton, Layout.Window.close, hskip]
    | tuple => simp [assign, compile, Op.skeleton, Layout.Window.close, hskip, hops, hbytes]
    | fixedArray size =>
      simp [assign, compile, Op.skeleton, Layout.Window.close, hskip, hops, hbytes]
    | dynamicArray =>
      have hloops := Op.skeleton_counted (skeleton_compileElement_assignFrom components 0)
        extraLevels ⟨name, slot, other.runBytes⟩
      simp [assign, compile, Layout.Window.close, hskip, hloops]

theorem skeleton_compileFrom_assignFrom : (fields : List Field) → (used slot : Nat) →
    {window other : Layout.Window} → window.runBits = other.runBits →
    Op.skeletonAll (compileFrom (assignFrom fields used) slot window).1 =
        Op.skeletonAll (compileFrom fields slot other).1 ∧
      (compileFrom (assignFrom fields used) slot window).2.runBits =
        (compileFrom fields slot other).2.runBits
  | [], used, slot, window, other, h => by
    rw [assignFrom, compileFrom, compileFrom]
    exact ⟨rfl, h⟩
  | field :: fields, used, slot, window, other, h => by
    obtain ⟨hop, hnext⟩ := skeleton_compile_assign field used slot h
    obtain ⟨hops, hlast⟩ :=
      skeleton_compileFrom_assignFrom fields (field.assign used).2 (slot + 1) hnext
    simp only [assignFrom, compileFrom_cons, Op.skeletonAll, hop, hops, hlast, and_self]

theorem skeleton_compileElement_assignFrom : (components : List Field) → (used : Nat) →
    (entry : Entry) → (compileElement (assignFrom components used) entry).skeleton =
      (compileElement components entry).skeleton
  | [], used, entry => by rw [assignFrom]
  | element :: others, used, entry => by
    obtain ⟨hop, hlast⟩ := @skeleton_compile_assign element used 0 {} {} rfl
    have hbytes : ((element.assign used).1.compile 0 {}).2.runBytes =
        (element.compile 0 {}).2.runBytes := congrArg (· / 8) hlast
    rw [assignFrom, compileElement, compileElement, elementRead?_assign]
    cases element.elementRead? with
    | some read => rfl
    | none => simp only [Op.skeleton, Op.skeletonAll, hop, hbytes]

end

theorem skeleton_compileScope_assignScope (fields : List Field) :
    (compileScope (assignScope fields)).skeleton = (compileScope fields).skeleton := by
  obtain ⟨hops, hlast⟩ := @skeleton_compileFrom_assignFrom fields 0 0 {} {} rfl
  have hbytes : (compileFrom (assignFrom fields 0) 0 {}).2.runBytes =
      (compileFrom fields 0 {}).2.runBytes := congrArg (· / 8) hlast
  exact congrArg₂ Block.mk hops hbytes

end Field

namespace Program

/-- The programs of a root with positions and without have the same skeleton. -/
theorem skeleton_ofRoot_assign (root : Field) (name : String) :
    (ofRoot (root.assign 0).1 name).skeleton = (ofRoot root name).skeleton := by
  have hsingle := Field.skeleton_compileScope_assignScope [root]
  obtain ⟨label, kind, extraLevels, shift, components⟩ := root
  have hscope := Field.skeleton_compileScope_assignScope components
  cases kind with
  | leaf type => cases type <;> exact congrArg (Program.mk name .single) hsingle
  | tuple => exact congrArg (Program.mk name .tuple) hscope
  | fixedArray size => exact congrArg (Program.mk name .single) hsingle
  | dynamicArray =>
    cases extraLevels with
    | zero =>
      have hloop : (Op.nested ⟨name, 0, 0⟩ .dynamicArray
          (Field.compileScope (Field.assignScope components))).skeleton =
          (Op.nested ⟨name, 0, 0⟩ .dynamicArray (Field.compileScope components)).skeleton := by
        rw [Op.skeleton_nested, Op.skeleton_nested, hscope]
      exact congrArg (fun op => Program.mk name .single ⟨[op], 0⟩) hloop
    | succ extra => exact congrArg (Program.mk name .single) hsingle

end Program

/-- No position is assigned anywhere in the tree. -/
inductive Field.Unplaced : Field → Prop
  | intro {field : Field} (hshift : field.shift = none)
      (hcomponents : ∀ component ∈ field.components, Unplaced component) : Unplaced field

namespace Shape

theorem WellFormed.unplaced_unrollIn {shape : Shape} (hshape : shape.WellFormed) (run : Nat)
    (name : String) : (shape.unrollIn run name).Unplaced := by
  refine hshape.unrollIn_induction ?_ ?_ run name
  · intro name type _
    exact ⟨rfl, by simp [Field.plain]⟩
  · intro name kind extraLevels components _ hcomponents
    exact ⟨rfl, hcomponents⟩

/-- The program of a resolved schema and the one of the same field tree without positions
have the same skeleton and run alike on every input. -/
theorem run_without_positions {schema : Schema} {shape : Shape}
    (h : schema.resolve = .ok shape) (name : String) :
    (shape.unroll name).Unplaced ∧
      (shape.program name).skeleton = (Program.ofRoot (shape.unroll name) name).skeleton ∧
      ∀ data, (shape.program name).run data = (Program.ofRoot (shape.unroll name) name).run data := by
  have hshape := Schema.resolve_wellFormed h
  have hroot : (shape.unroll name).Readable := hshape.readable_unrollIn 0 name
  refine ⟨hshape.unplaced_unrollIn 0 name, Program.skeleton_ofRoot_assign _ name, ?_⟩
  intro data
  rw [program, (hroot.assign 0).run_ofRoot, Field.readRoot_assign]
  exact (hroot.run_ofRoot name data).symm

/-- Two flags, of which the second is read in the window of the first or in its own. -/
theorem run_flags_without_positions : ∃ shape,
    Schema.resolve ⟨"r", "tuple", [⟨"a", "bool", []⟩, ⟨"b", "bool", []⟩]⟩ = .ok shape ∧
      (shape.program "r").body =
        ⟨[.primitive .bool ⟨"a", 0, 0, 248, 8⟩, .primitive .bool ⟨"b", 1, 0, 240, 8⟩], 2⟩ ∧
      (Program.ofRoot (shape.unroll "r") "r").body =
        ⟨[.primitive .bool ⟨"a", 0, 0, 248, 8⟩, .primitive .bool ⟨"b", 1, 1, 248, 8⟩], 2⟩ ∧
      (Program.ofRoot (shape.unroll "r") "r").run [5] = .error (.outOfBounds 1 1) := by
  have hshape : Schema.resolve ⟨"r", "tuple", [⟨"a", "bool", []⟩, ⟨"b", "bool", []⟩]⟩ =
      .ok (.tuple [("a", .leaf (.primitive .bool)), ("b", .leaf (.primitive .bool))]) := rfl
  obtain ⟨_, _, hrun⟩ := run_without_positions hshape "r"
  refine ⟨_, hshape, ?_, ?_, (hrun [5]).symm.trans ?_⟩
  · cbv
  · cbv
  · rfl

end Shape

end RecordCodec
