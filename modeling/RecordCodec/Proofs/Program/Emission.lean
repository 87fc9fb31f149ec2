import RecordCodec.Proofs.Program.Shape

/-!
# Operations of compiled programs

Compilation makes operations of a few forms only, at whatever depth they stand: a
leaf of a fixed width is read in a sound window that has room for it, a tuple or a
fixed array is the block of a scope, and a dynamic array is a loop over the scope of
its element, behind further loops if it stands for several dimensions. Whatever holds
of these forms holds of every operation of a compiled program.
-/

namespace RecordCodec

namespace Op

mutual

/-- The operation and those of its blocks, at every depth. -/
def all : Op → List Op
  | nested entry shape ⟨ops, tail⟩ => nested entry shape ⟨ops, tail⟩ :: allIn ops
  | op => [op]

def allIn : List Op → List Op
  | [] => []
  | op :: ops => op.all ++ allIn ops

end

theorem mem_allIn {inner : Op} {ops : List Op} :
    inner ∈ allIn ops ↔ ∃ op ∈ ops, inner ∈ op.all := by
  induction ops with
  | nil => simp [allIn]
  | cons op ops ih => simp [allIn, ih]

theorem mem_all_nested {inner : Op} {entry : Entry} {shape : NestedShape} {body : Block Op} :
    inner ∈ (nested entry shape body).all ↔
      inner = nested entry shape body ∨ ∃ op ∈ body.ops, inner ∈ op.all := by
  obtain ⟨ops, tail⟩ := body
  rw [all, List.mem_cons, mem_allIn]

theorem forall_mem_all_nested {motive : Op → Prop} {entry : Entry} {shape : NestedShape}
    {body : Block Op} : (∀ inner ∈ (nested entry shape body).all, motive inner) ↔
      motive (nested entry shape body) ∧ ∀ op ∈ body.ops, ∀ inner ∈ op.all, motive inner := by
  constructor
  · intro h
    exact ⟨h _ (mem_all_nested.mpr (.inl rfl)),
      fun op hop inner hmem => h inner (mem_all_nested.mpr (.inr ⟨op, hop, hmem⟩))⟩
  · rintro ⟨hself, hbody⟩ inner hmem
    rcases mem_all_nested.mp hmem with rfl | ⟨op, hop, hmem⟩
    · exact hself
    · exact hbody op hop inner hmem

/-- The name that the errors of the operation carry. -/
def name : Op → String
  | primitive _ read => read.name
  | fixedBytes read => read.name
  | lengthPrefixed entry _ => entry.name
  | nested entry _ _ => entry.name

/-- How far the operation moves the cursor before it reads, if it moves it at all. -/
def skip? : Op → Option Nat
  | lengthPrefixed entry _ => some entry.skip
  | nested entry _ _ => some entry.skip
  | _ => none

/-- A loop over as many elements as a header counts. -/
def IsLoop : Op → Prop
  | nested _ .dynamicArray _ => True
  | lengthPrefixed _ (.elements _) => True
  | _ => False

/-- A loop behind `skip` bytes whose own block, if it has one, ends without a tail. -/
structure LoopsBehind (skip : Nat) (op : Op) : Prop where
  skip : op.skip? = some skip
  tail : ∀ entry body, op = nested entry .dynamicArray body → body.tail = 0

/-- The forms of the operations that readable fields are compiled to. -/
inductive Emitted : Op → Prop
  | primitive {type : Primitive} {name : String} {slot : Nat} {window : Layout.Window}
      (htype : type.WellFormed) (hwindow : window.Sound)
      (hfit : window.taken + type.bitSize ≤ 256) :
      Emitted (.primitive type ⟨name, slot, window.start,
        256 - window.taken - type.bitSize, type.bitSize⟩)
  | fixedBytes {size : Nat} {name : String} {slot : Nat} {window : Layout.Window}
      (hsize : 0 < size ∧ size ≤ 32) (hwindow : window.Sound)
      (hfit : window.taken + 8 * size ≤ 256) :
      Emitted (.fixedBytes ⟨name, slot, window.start, window.taken, 8 * size⟩)
  | content {entry : Entry} {payload : Payload} (hpayload : payload = .bytes ∨ payload = .text) :
      Emitted (.lengthPrefixed entry payload)
  | elements {entry : Entry} {element : Field} {read : ElementRead} (hplaced : element.Placed)
      (hread : element.elementRead? = some read) :
      Emitted (.lengthPrefixed entry (.elements read))
  | scope {entry : Entry} {shape : NestedShape} {fields : List Field}
      (hshape : shape ≠ .dynamicArray) (hfields : ∀ field ∈ fields, field.Readable) :
      Emitted (.nested entry shape (Field.compileScope fields))
  | loop {entry : Entry} {fields : List Field} (hone : fields.length ≤ 1)
      (hfields : ∀ field ∈ fields, field.Readable) :
      Emitted (.nested entry .dynamicArray (Field.compileScope fields))
  | level {entry : Entry} {op : Op} (hinner : op.LoopsBehind 0) :
      Emitted (.nested entry .dynamicArray ⟨[op], 0⟩)

/-- The operation and all those in its blocks are of the forms above. -/
def AllEmitted (op : Op) : Prop := ∀ inner ∈ op.all, inner.Emitted

theorem allEmitted_of_leaf {op : Op} (hop : op.Emitted) (hall : op.all = [op]) :
    op.AllEmitted := by
  intro inner hmem
  rw [hall, List.mem_singleton] at hmem
  rw [hmem]
  exact hop

theorem allEmitted_nested {entry : Entry} {shape : NestedShape} {body : Block Op}
    (hop : (nested entry shape body).Emitted) (hbody : ∀ op ∈ body.ops, op.AllEmitted) :
    (nested entry shape body).AllEmitted :=
  forall_mem_all_nested.mpr ⟨hop, hbody⟩

theorem loopsBehind_counted {operation : Entry → Op}
    (h : ∀ entry, (operation entry).LoopsBehind entry.skip) (levels : Nat) (entry : Entry) :
    (counted operation levels entry).LoopsBehind entry.skip := by
  cases levels with
  | zero => exact h entry
  | succ levels =>
    refine ⟨rfl, ?_⟩
    intro inner body hbody
    cases hbody
    rfl

theorem allEmitted_counted {operation : Entry → Op}
    (hskip : ∀ entry, (operation entry).LoopsBehind entry.skip)
    (h : ∀ entry, (operation entry).AllEmitted) (levels : Nat) (entry : Entry) :
    (counted operation levels entry).AllEmitted := by
  induction levels generalizing entry with
  | zero => exact h entry
  | succ levels ih =>
    have hinner := loopsBehind_counted hskip levels ⟨entry.name ++ "[]", 0, 0⟩
    refine allEmitted_nested (.level hinner) ?_
    intro op hmem
    rw [List.mem_singleton.mp hmem]
    exact ih ⟨entry.name ++ "[]", 0, 0⟩

end Op

namespace Field

theorem compileScope_singleton (field : Field) :
    compileScope [field] = ⟨[(field.compile 0 {}).1], (field.compile 0 {}).2.runBytes⟩ := by
  rw [compileScope, compileFrom_cons, compileFrom]

/-- Behind everything but a leaf of a fixed width the next run begins. -/
theorem compile_window_of_moving {field : Field} (h : field.elementRead? = none) (slot : Nat)
    (window : Layout.Window) : (field.compile slot window).2 = {} := by
  obtain ⟨name, kind, extraLevels, shift, components⟩ := field
  cases kind with
  | leaf type =>
    cases type with
    | primitive type => cases h
    | fixedBytes size => cases h
    | bytes => rw [compile]; rfl
    | string => rw [compile]; rfl
  | tuple => rw [compile]; rfl
  | fixedArray size => rw [compile]; rfl
  | dynamicArray => rw [compile]; rfl

theorem loopsBehind_compileElement (components : List Field) (entry : Entry) :
    (compileElement components entry).LoopsBehind entry.skip := by
  cases components with
  | nil =>
    rw [compileElement]
    refine ⟨rfl, ?_⟩
    intro inner body hbody
    cases hbody
    rfl
  | cons element others =>
    rw [compileElement]
    cases hread : element.elementRead? with
    | some read => exact ⟨rfl, fun inner body hbody => by cases hbody⟩
    | none =>
      refine ⟨rfl, ?_⟩
      intro inner body hbody
      cases hbody
      rw [compile_window_of_moving hread]
      rfl

/-- Everything but a leaf of a fixed width skips the run before it. -/
theorem compile_skip_of_moving {field : Field} (h : field.elementRead? = none) (slot : Nat)
    (window : Layout.Window) :
    (field.compile slot window).1.skip? = some window.runBytes := by
  obtain ⟨name, kind, extraLevels, shift, components⟩ := field
  cases kind with
  | leaf type =>
    cases type with
    | primitive type => cases h
    | fixedBytes size => cases h
    | bytes => rw [compile]; rfl
    | string => rw [compile]; rfl
  | tuple => rw [compile]; rfl
  | fixedArray size => rw [compile]; rfl
  | dynamicArray =>
    rw [compile]
    exact (Op.loopsBehind_counted (loopsBehind_compileElement components) extraLevels _).skip

/-- Only dynamic arrays become loops. -/
theorem loopsBehind_compile {field : Field} {slot : Nat} {window : Layout.Window}
    (h : (field.compile slot window).1.IsLoop) :
    field.elementRead? = none ∧ (field.compile slot window).1.LoopsBehind window.runBytes := by
  obtain ⟨name, kind, extraLevels, shift, components⟩ := field
  cases kind with
  | leaf type => cases type <;> (rw [compile] at h; cases h)
  | tuple => rw [compile] at h; cases h
  | fixedArray size => rw [compile] at h; cases h
  | dynamicArray =>
    have hloop := Op.loopsBehind_counted (loopsBehind_compileElement components) extraLevels
      ⟨name, slot, window.runBytes⟩
    rw [compile]
    exact ⟨rfl, hloop⟩

/-- Whatever sound window a field is compiled in, its operation is emitted. -/
def CompilesEmitted (field : Field) : Prop :=
  ∀ (slot : Nat) ⦃window : Layout.Window⦄, window.Sound → (field.compile slot window).1.AllEmitted

theorem allEmitted_compileFrom {fields : List Field}
    (hreadable : ∀ field ∈ fields, field.Readable) (h : ∀ field ∈ fields, field.CompilesEmitted)
    (slot : Nat) {window : Layout.Window} (hwindow : window.Sound) :
    ∀ op ∈ (compileFrom fields slot window).1, op.AllEmitted := by
  induction fields generalizing slot window with
  | nil =>
    rw [compileFrom]
    simp
  | cons field fields ih =>
    intro op hmem
    rw [compileFrom_cons] at hmem
    obtain ⟨hnext, _⟩ := (hreadable field (by simp)).compiles [] slot hwindow
    rcases List.mem_cons.mp hmem with rfl | hmem
    · exact h field (by simp) slot hwindow
    · exact ih (fun other hother => hreadable other (by simp [hother]))
        (fun other hother => h other (by simp [hother])) (slot + 1) hnext op hmem

theorem allEmitted_compileElement {components : List Field}
    (hreadable : ∀ component ∈ components, component.Readable)
    (h : ∀ component ∈ components, component.CompilesEmitted) (entry : Entry) :
    (compileElement components entry).AllEmitted := by
  cases components with
  | nil =>
    have hbody : (Op.nested entry .dynamicArray (compileScope [])).Emitted :=
      .loop (Nat.zero_le 1) (by simp)
    rw [compileScope, compileFrom] at hbody
    rw [compileElement]
    exact Op.allEmitted_nested hbody (by simp)
  | cons element others =>
    have helement := hreadable element (by simp)
    obtain ⟨hplaced, _⟩ := helement
    rw [compileElement]
    cases hread : element.elementRead? with
    | some read => exact Op.allEmitted_of_leaf (.elements hplaced hread) rfl
    | none =>
      have hbody : (Op.nested entry .dynamicArray (compileScope [element])).Emitted :=
        .loop (Nat.le_refl 1) (by simpa using hreadable element (by simp))
      rw [compileScope_singleton] at hbody
      apply Op.allEmitted_nested hbody
      intro op hmem
      rw [List.mem_singleton.mp hmem]
      exact h element (by simp) 0 .empty

/-- Every readable field compiles to emitted operations. -/
theorem Readable.compilesEmitted {field : Field} (hfield : field.Readable) :
    field.CompilesEmitted := by
  induction hfield with
  | @intro field hplaced hcomponents ih =>
    intro slot window hwindow
    have hscope := allEmitted_compileFrom hcomponents ih 0 .empty
    obtain ⟨name, kind, extraLevels, shift, components⟩ := field
    cases kind with
    | leaf type =>
      cases type with
      | primitive type =>
        obtain ⟨htype, hshift⟩ := hplaced
        obtain ⟨hsound, _, hfit⟩ := hwindow.forNumber htype.2.2 hshift
        rw [compile]
        exact Op.allEmitted_of_leaf (.primitive htype hsound hfit) rfl
      | fixedBytes size =>
        have hle : 8 * size ≤ 256 := by
          obtain ⟨_, hsize⟩ := hplaced
          omega
        obtain ⟨hsound, _, hfit⟩ := hwindow.forBytes hle
        rw [compile]
        exact Op.allEmitted_of_leaf (.fixedBytes hplaced hsound hfit) rfl
      | bytes =>
        rw [compile]
        exact Op.allEmitted_of_leaf (.content (.inl rfl)) rfl
      | string =>
        rw [compile]
        exact Op.allEmitted_of_leaf (.content (.inr rfl)) rfl
    | tuple =>
      rw [compile]
      exact Op.allEmitted_nested (.scope (by simp) hcomponents) hscope
    | fixedArray size =>
      rw [compile]
      exact Op.allEmitted_nested (.scope (by simp) hcomponents) hscope
    | dynamicArray =>
      rw [compile]
      exact Op.allEmitted_counted (loopsBehind_compileElement components)
        (allEmitted_compileElement hcomponents ih) extraLevels _

theorem allEmitted_compileScope {fields : List Field} (h : ∀ field ∈ fields, field.Readable) :
    ∀ op ∈ (compileScope fields).ops, op.AllEmitted :=
  allEmitted_compileFrom h (fun field hmem => (h field hmem).compilesEmitted) 0 .empty

end Field

/-- A block as compilation makes it: that of a scope, or one moving operation. -/
inductive Block.Emitted : Block Op → Prop
  | scope {fields : List Field} (hfields : ∀ field ∈ fields, field.Readable) :
      Emitted (Field.compileScope fields)
  | single {op : Op} (hskip : op.skip? = some 0) : Emitted ⟨[op], 0⟩

namespace Op.Emitted

variable {entry : Entry} {shape : NestedShape} {body : Block Op}

theorem body_emitted (h : (nested entry shape body).Emitted) : body.Emitted := by
  cases h with
  | scope _ hfields => exact .scope hfields
  | loop _ hfields => exact .scope hfields
  | level hinner => exact .single hinner.skip

/-- A loop right inside a loop has the block to itself. -/
theorem inner_loop (h : (nested entry .dynamicArray body).Emitted) {op : Op}
    (hmem : op ∈ body.ops) (hloop : op.IsLoop) : body = ⟨[op], 0⟩ ∧ op.LoopsBehind 0 := by
  cases h with
  | scope hshape => exact absurd rfl hshape
  | level hinner =>
    rw [List.mem_singleton.mp hmem]
    exact ⟨rfl, hinner⟩
  | @loop _ fields hone _ =>
    match fields, hone with
    | [], _ => cases hmem
    | [element], _ =>
      rw [Field.compileScope_singleton] at hmem ⊢
      rw [List.mem_singleton.mp hmem] at hloop ⊢
      obtain ⟨hread, hbehind⟩ := Field.loopsBehind_compile hloop
      rw [Field.compile_window_of_moving hread]
      exact ⟨rfl, hbehind⟩

end Op.Emitted

namespace Program

/-- All operations of a program, at every depth. -/
def allOps (program : Program) : List Op := Op.allIn program.body.ops

theorem forall_mem_allOps {program : Program} {motive : Op → Prop} :
    (∀ inner ∈ program.allOps, motive inner) ↔
      ∀ op ∈ program.body.ops, ∀ inner ∈ op.all, motive inner := by
  constructor
  · intro h op hop inner hmem
    exact h inner (Op.mem_allIn.mpr ⟨op, hop, hmem⟩)
  · intro h inner hmem
    obtain ⟨op, hop, hmem⟩ := Op.mem_allIn.mp hmem
    exact h op hop inner hmem

/-- A block of a program, its body or one that an operation runs. -/
def HasBlock (program : Program) (block : Block Op) : Prop :=
  block = program.body ∨ ∃ entry shape, .nested entry shape block ∈ program.allOps

/-- A program as compilation makes it, at every depth. -/
structure Emitted (program : Program) : Prop where
  body : program.body.Emitted
  ops : ∀ op ∈ program.allOps, op.Emitted

theorem Emitted.block {program : Program} (h : program.Emitted) {block : Block Op}
    (hblock : program.HasBlock block) : block.Emitted := by
  rcases hblock with rfl | ⟨entry, shape, hmem⟩
  · exact h.body
  · exact (h.ops _ hmem).body_emitted

theorem emitted_of_body {name : String} {root : RootShape} {block : Block Op}
    (hbody : block.Emitted) (hops : ∀ op ∈ block.ops, op.AllEmitted) :
    (Program.mk name root block).Emitted :=
  ⟨hbody, forall_mem_allOps.mpr hops⟩

theorem emitted_ofRoot {root : Field} (hroot : root.Readable)
    (hone : root.kind = .dynamicArray → root.components.length ≤ 1) (name : String) :
    (ofRoot root name).Emitted := by
  have hcomponents := hroot.components
  have hscope := Field.allEmitted_compileScope hcomponents
  unfold ofRoot
  split
  · exact emitted_of_body (.scope hcomponents) hscope
  · rename_i hkind _
    refine emitted_of_body (.single rfl) ?_
    intro op hmem
    rw [List.mem_singleton.mp hmem]
    exact Op.allEmitted_nested (.loop (hone hkind) hcomponents) hscope
  · have hsingle : ∀ field ∈ [root], field.Readable := List.forall_mem_singleton.mpr hroot
    exact emitted_of_body (.scope hsingle) (Field.allEmitted_compileScope hsingle)

end Program

theorem Field.length_assignFrom (fields : List Field) (used : Nat) :
    (assignFrom fields used).length = fields.length := by
  induction fields generalizing used with
  | nil => rw [assignFrom]
  | cons field fields ih => rw [assignFrom, List.length_cons, List.length_cons, ih]

theorem Field.length_components_assign (field : Field) (used : Nat) :
    (field.assign used).1.components.length = field.components.length := by
  obtain ⟨name, kind, extraLevels, shift, components⟩ := field
  cases kind with
  | leaf type => cases type <;> rfl
  | _ => exact length_assignFrom components 0

namespace Shape

/-- A dynamic array of an unrolled shape has its element as the only component. -/
theorem length_components_unrollIn : (shape : Shape) → (run : Nat) → (name : String) →
    (shape.unrollIn run name).kind = .dynamicArray →
      (shape.unrollIn run name).components.length ≤ 1
  | leaf type, run, name, h => by
    rw [unrollIn] at h ⊢
    cases run with
    | zero => cases h
    | succ extra => exact Nat.le_refl 1
  | tuple components, run, name, h => by
    rw [unrollIn] at h ⊢
    cases run with
    | zero => cases h
    | succ extra => exact Nat.le_refl 1
  | array (.fixed size) element, run, name, h => by
    rw [unrollIn] at h ⊢
    cases run with
    | zero => cases h
    | succ extra => exact Nat.le_refl 1
  | array .dynamic element, run, name, h => by
    rw [unrollIn] at h ⊢
    exact length_components_unrollIn element (run + 1) name h

/-- The program of a well-formed shape holds emitted operations only. -/
theorem WellFormed.emitted_program {shape : Shape} (hshape : shape.WellFormed) (name : String) :
    (shape.program name).Emitted := by
  apply Program.emitted_ofRoot ((hshape.readable_unrollIn 0 name).assign 0)
  intro hkind
  rw [Field.kind_assign] at hkind
  rw [Field.length_components_assign]
  exact length_components_unrollIn shape 0 name hkind

end Shape

end RecordCodec
