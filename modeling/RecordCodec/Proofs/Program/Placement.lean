import RecordCodec.Proofs.Program.Tiling

/-!
# Assignment and compilation in step

Two passes go through the fields of a scope and count bits. Assignment keeps one running
width, which stops at a limit and goes past the end of a word behind byte strings.
Compilation keeps a window, which is reopened wherever a leaf needs it. They do not count
alike: behind a byte string that crosses a word the running width is past 256 and the
window is anywhere.

What they have in common is this. Unless the running width is past the word, it is what
is taken of the window. If it is past the word, the next number starts a new one in both
passes. So a number always finds the window where its position says, every difference of
widths is one of natural numbers, and no window is taken beyond its word.

The places that the passes go through are given by a relation, from the outermost scope
on and into every nested one. Every word read of the compiled program belongs to one.
-/

namespace RecordCodec

namespace Layout

/-- The fields of the outermost scope of a root: its components, if it is a tuple or an
array of a single dynamic dimension, and otherwise the root itself. -/
def outermost (root : Field) : List Field :=
  match root.kind, root.extraLevels with
  | .tuple, _ => root.components
  | .dynamicArray, 0 => root.components
  | _, _ => [root]

/-- A place in a scope of a root: the fields from there on, the running width with which
their assignment goes on, and the window with which their compilation does. -/
inductive Reaches (root : Field) : List Field → (used : Nat) → Window → Prop
  | scope : Reaches root (outermost root) 0 {}
  | next {field : Field} {fields : List Field} {used : Nat} {window : Window} (slot : Nat)
      (h : Reaches root (field :: fields) used window) :
      Reaches root fields (field.assign used).2 ((field.assign used).1.compile slot window).2
  | components {field : Field} {fields : List Field} {used : Nat} {window : Window}
      (h : Reaches root (field :: fields) used window) : Reaches root field.components 0 {}

/-- Both passes stand at the same bit of a word, or the next number starts a new one. -/
structure InStep (used : Nat) (window : Window) : Prop where
  sound : window.Sound
  used_le : used ≤ maxUsed
  agree : used = window.taken ∨ 256 < used

theorem InStep.start : InStep 0 {} := ⟨.empty, Nat.zero_le _, .inl rfl⟩

/-- A window that has room for a leaf, and is sound before it and behind it. -/
structure Window.HasRoom (window : Window) (bits : Nat) : Prop where
  sound : window.Sound
  /-- The differences `256 - taken` and `256 - taken - bits` stay above zero. -/
  fits : window.taken + bits ≤ 256
  behind : (window.take bits).Sound

/-- How a number of `bits` bits is placed `start` bits below the high end of a word, by
assignment behind `used` bits and by compilation in a window. -/
structure Places (used : Nat) (window : Window) (bits start : Nat) (shift : Int) : Prop where
  /-- Assignment starts a new word only for want of room. -/
  start_eq : start = if 256 < used + bits then 0 else used
  /-- The differences `256 - start` and `256 - start - bits` stay above zero. -/
  inside : start + bits ≤ 256
  shift_eq : shift = 256 - start - bits
  /-- The position is what the shift leaves of the word, with nothing held back. -/
  position : (Word.bitsAbove shift bits : Int) = 256 - shift - bits
  /-- Once it is reopened where needed, the window stands at the position. -/
  opened : (window.forNumber (some shift) bits).taken = Word.bitsAbove shift bits
  room : (window.forNumber (some shift) bits).HasRoom bits

theorem Window.Sound.hasRoom {window : Window} {bits : Nat} (h : window.Sound) (hbits : 8 ∣ bits)
    (hfits : window.taken + bits ≤ 256) : window.HasRoom bits :=
  ⟨h, hfits, h.take hbits hfits⟩

theorem bitsAbove_of_inside {start bits : Nat} (h : start + bits ≤ 256) :
    Word.bitsAbove (256 - start - bits) bits = start := by
  unfold Word.bitsAbove
  omega

namespace InStep

variable {used : Nat} {window : Window}

/-- The window is where the position says, or it is reopened for a number that starts a
new word. -/
theorem taken_forNumber (h : InStep used window) {bits start : Nat} {shift : Int}
    (hstart : start = if 256 < used + bits then 0 else used)
    (hposition : Word.bitsAbove shift bits = start) :
    (window.forNumber (some shift) bits).taken = start := by
  have hagree := h.agree
  unfold Window.forNumber
  simp only [Option.map_some, Option.getD_some, hposition]
  split
  · rename_i heq
    exact heq.symm
  · change 0 = start
    split at hstart <;> omega

theorem places (h : InStep used window) {bits : Nat} (hbits : 8 ∣ bits) (hle : bits ≤ 256) :
    ∃ start shift, Places used window bits start shift ∧
      InStep (start + bits) ((window.forNumber (some shift) bits).take bits) := by
  obtain ⟨start, hstart⟩ : ∃ start, start = if 256 < used + bits then 0 else used := ⟨_, rfl⟩
  have hinside : start + bits ≤ 256 := by
    split at hstart <;> omega
  have hposition := bitsAbove_of_inside hinside
  have hopened := h.taken_forNumber hstart hposition
  have hshift : ∀ s : Int, some ((256 : Int) - start - bits) = some s → 0 ≤ s := by
    intro s hs
    cases hs
    omega
  obtain ⟨hsound, _, hfits⟩ := h.sound.forNumber hle hshift
  have hroom := hsound.hasRoom hbits hfits
  refine ⟨start, 256 - start - bits, ⟨hstart, hinside, rfl, ?_, ?_, hroom⟩, ?_⟩
  · rw [hposition]
    omega
  · rw [hposition, hopened]
  · refine ⟨hroom.behind, ?_, .inl ?_⟩
    · unfold maxUsed
      omega
    · rw [Window.taken_take hfits, hopened]

theorem hasRoom_forBytes (h : InStep used window) {size : Nat} (hsize : size ≤ 32) :
    (window.forBytes (8 * size)).HasRoom (8 * size) := by
  obtain ⟨hsound, _, hfits⟩ := h.sound.forBytes (by omega : 8 * size ≤ 256)
  exact hsound.hasRoom (Nat.dvd_mul_right 8 size) hfits

/-- Byte strings do not cross together in both passes, but whatever crosses takes the
running width past the word. -/
theorem fixedBytes (h : InStep used window) {size : Nat} (hsize : size ≤ 32) :
    InStep (min (used + 8 * size) maxUsed) ((window.forBytes (8 * size)).take (8 * size)) := by
  refine ⟨(h.hasRoom_forBytes hsize).behind, Nat.min_le_right _ _, ?_⟩
  have hagree := h.agree
  unfold Window.forBytes maxUsed
  split
  · rename_i hfit
    rw [Window.taken_take ((h.sound.fits_eq_true (by omega)).mp hfit)]
    omega
  · rename_i hfit
    have hwide := mt (h.sound.fits_eq_true (by omega)).mpr hfit
    have hreopened : (window.reopen.take (8 * size)).taken = 0 + 8 * size :=
      Window.taken_take (by change 0 + 8 * size ≤ 256; omega)
    rw [hreopened]
    omega

/-- One field, whatever it is. -/
theorem next (h : InStep used window) {field : Field} (hplaced : field.Placed) (slot : Nat) :
    InStep (field.assign used).2 ((field.assign used).1.compile slot window).2 := by
  obtain ⟨name, kind, extraLevels, shift, components⟩ := field
  cases kind with
  | leaf type =>
    cases type with
    | primitive type =>
      obtain ⟨⟨_, hbits, hle⟩, _⟩ := hplaced
      obtain ⟨start, shift, hplaces, hnext⟩ := h.places hbits hle
      rw [hplaces.shift_eq, hplaces.start_eq] at hnext
      rw [Field.assign, Field.compile]
      exact hnext
    | fixedBytes size =>
      rw [Field.assign, Field.compile]
      exact h.fixedBytes hplaced.2
    | bytes => exact start
    | string => exact start
  | tuple =>
    rw [Field.assign, Field.compile]
    exact start
  | fixedArray size =>
    rw [Field.assign, Field.compile]
    exact start
  | dynamicArray =>
    rw [Field.assign, Field.compile]
    exact start

end InStep

theorem readable_outermost {root : Field} (h : root.Readable) :
    ∀ field ∈ outermost root, field.Readable := by
  unfold outermost
  split
  · exact h.components
  · exact h.components
  · exact List.forall_mem_singleton.mpr h

theorem Reaches.inStep {root : Field} (hroot : root.Readable) {fields : List Field} {used : Nat}
    {window : Window} (h : Reaches root fields used window) :
    (∀ field ∈ fields, field.Readable) ∧ InStep used window := by
  induction h with
  | scope => exact ⟨readable_outermost hroot, .start⟩
  | next slot h ih =>
    obtain ⟨hfields, hstep⟩ := ih
    obtain ⟨hplaced, _⟩ := hfields _ (List.mem_cons_self ..)
    exact ⟨fun field hmem => hfields field (List.mem_cons_of_mem _ hmem), hstep.next hplaced slot⟩
  | components h ih =>
    obtain ⟨hfields, _⟩ := ih
    obtain ⟨_, hcomponents⟩ := hfields _ (List.mem_cons_self ..)
    exact ⟨hcomponents, .start⟩

/-- The operation is compiled from a field at a place that the passes go through. -/
def CompiledAt (root : Field) (op : Op) : Prop :=
  ∃ field rest used window slot, Reaches root (field :: rest) used window ∧
    ((field.assign used).1.compile slot window).1 = op

end Layout

theorem Op.mem_all_counted {operation : Entry → Op} {op : Op} (hop : op.span? ≠ none)
    (levels : Nat) (entry : Entry) (h : op ∈ (counted operation levels entry).all) :
    ∃ inner, op ∈ (operation inner).all := by
  induction levels generalizing entry with
  | zero => exact ⟨entry, h⟩
  | succ levels ih =>
    rcases mem_all_nested.mp h with rfl | ⟨inner, hmem, h⟩
    · exact absurd rfl hop
    · rw [List.mem_singleton.mp hmem] at h
      exact ih _ h

namespace Field

open Layout (Reaches CompiledAt)

variable {root : Field}

mutual

/-- Every word read in the operation of a field is compiled at a place that the passes
reach from the place of the field. -/
theorem compiledAt_compile : (field : Field) → {rest : List Field} → {used : Nat} →
    {window : Layout.Window} → Reaches root (field :: rest) used window → (slot : Nat) →
    ∀ op ∈ ((field.assign used).1.compile slot window).1.all, op.span? ≠ none →
      CompiledAt root op
  | ⟨name, kind, extraLevels, shift, components⟩, rest, used, window, hplace, slot, op, hmem,
      hop => by
    have hscope : ∀ inner ∈ (compileFrom (assignFrom components 0) 0 {}).1, op ∈ inner.all →
        CompiledAt root op := fun inner hinner hmem =>
      compiledAt_compileFrom components hplace.components 0 op
        (Op.mem_allIn.mpr ⟨inner, hinner, hmem⟩) hop
    cases kind with
    | leaf type =>
      cases type with
      | primitive type => exact ⟨_, _, _, _, slot, hplace, (List.mem_singleton.mp hmem).symm⟩
      | fixedBytes size => exact ⟨_, _, _, _, slot, hplace, (List.mem_singleton.mp hmem).symm⟩
      | bytes =>
        rw [List.mem_singleton.mp hmem] at hop
        exact absurd rfl hop
      | string =>
        rw [List.mem_singleton.mp hmem] at hop
        exact absurd rfl hop
    | tuple =>
      rw [assign, compile] at hmem
      rcases Op.mem_all_nested.mp hmem with rfl | ⟨inner, hinner, hmem⟩
      · exact absurd rfl hop
      · exact hscope inner hinner hmem
    | fixedArray size =>
      rw [assign, compile] at hmem
      rcases Op.mem_all_nested.mp hmem with rfl | ⟨inner, hinner, hmem⟩
      · exact absurd rfl hop
      · exact hscope inner hinner hmem
    | dynamicArray =>
      rw [assign, compile] at hmem
      obtain ⟨entry, hmem⟩ := Op.mem_all_counted hop _ _ hmem
      exact compiledAt_compileElement components hplace.components entry op hmem hop

theorem compiledAt_compileFrom : (fields : List Field) → {used : Nat} →
    {window : Layout.Window} → Reaches root fields used window → (slot : Nat) →
    ∀ op ∈ Op.allIn (compileFrom (assignFrom fields used) slot window).1, op.span? ≠ none →
      CompiledAt root op
  | [], used, window, hplace, slot, op, hmem, hop => by
    rw [assignFrom, compileFrom] at hmem
    cases hmem
  | field :: fields, used, window, hplace, slot, op, hmem, hop => by
    rw [assignFrom, compileFrom_cons, Op.allIn, List.mem_append] at hmem
    rcases hmem with hmem | hmem
    · exact compiledAt_compile field hplace slot op hmem hop
    · exact compiledAt_compileFrom fields (hplace.next slot) (slot + 1) op hmem hop

theorem compiledAt_compileElement : (components : List Field) →
    Reaches root components 0 {} → (entry : Entry) →
    ∀ op ∈ (compileElement (assignFrom components 0) entry).all, op.span? ≠ none →
      CompiledAt root op
  | [], hplace, entry, op, hmem, hop => by
    rw [assignFrom, compileElement, Op.all, Op.allIn, List.mem_singleton] at hmem
    rw [hmem] at hop
    exact absurd rfl hop
  | element :: others, hplace, entry, op, hmem, hop => by
    rw [assignFrom, compileElement] at hmem
    split at hmem
    · rw [List.mem_singleton.mp hmem] at hop
      exact absurd rfl hop
    · rcases Op.mem_all_nested.mp hmem with rfl | ⟨inner, hinner, hmem⟩
      · exact absurd rfl hop
      · rw [List.mem_singleton.mp hinner] at hmem
        exact compiledAt_compile element hplace 0 op hmem hop

end

theorem compiledAt_compileScope {op : Op}
    (hmem : op ∈ Op.allIn (compileScope (assignScope (Layout.outermost root))).ops)
    (hop : op.span? ≠ none) : CompiledAt root op :=
  compiledAt_compileFrom (Layout.outermost root) .scope 0 op hmem hop

theorem compiledAt_ofRoot {name : String} {op : Op}
    (hmem : op ∈ (Program.ofRoot (root.assign 0).1 name).allOps) (hop : op.span? ≠ none) :
    CompiledAt root op := by
  apply compiledAt_compileScope _ hop
  obtain ⟨label, kind, extraLevels, shift, components⟩ := root
  cases kind with
  | leaf type => cases type <;> exact hmem
  | tuple => exact hmem
  | fixedArray size => exact hmem
  | dynamicArray =>
    cases extraLevels with
    | zero =>
      obtain ⟨loop, hloop, hmem⟩ := Op.mem_allIn.mp hmem
      rw [List.mem_singleton.mp hloop] at hmem
      rcases Op.mem_all_nested.mp hmem with rfl | ⟨inner, hinner, hmem⟩
      · exact absurd rfl hop
      · exact Op.mem_allIn.mpr ⟨inner, hinner, hmem⟩
    | succ extra => exact hmem

end Field

namespace Layout

variable {used : Nat} {window : Window} {field : Field}

/-- What the passes do with a number: its position and the running width behind it, and
its read in the window that is opened for it. -/
theorem InStep.number (h : InStep used window) (hfield : field.Readable) {type : Primitive}
    (hkind : field.kind = .leaf (.primitive type)) :
    ∃ start shift, Places used window type.bitSize start shift ∧
      field.assign used = ({ field with shift := some shift }, start + type.bitSize) ∧
      ∀ slot, (field.assign used).1.compile slot window =
        let opened := window.forNumber (some shift) type.bitSize
        (.primitive type ⟨field.name, slot, opened.start,
          256 - opened.taken - type.bitSize, type.bitSize⟩, opened.take type.bitSize) := by
  obtain ⟨hplaced, _⟩ := hfield
  obtain ⟨name, kind, extraLevels, assigned, components⟩ := field
  cases hkind
  obtain ⟨⟨_, hbits, hle⟩, _⟩ := hplaced
  obtain ⟨start, shift, hplaces, _⟩ := h.places hbits hle
  have hassign : (Field.mk name (.leaf (.primitive type)) extraLevels assigned components).assign
      used = (⟨name, .leaf (.primitive type), extraLevels, some shift, components⟩,
        start + type.bitSize) := by
    rw [Field.assign, hplaces.shift_eq, hplaces.start_eq]
  refine ⟨start, shift, hplaces, hassign, ?_⟩
  intro slot
  rw [hassign, Field.compile]

/-- What the passes do with a byte string. -/
theorem InStep.byteString (h : InStep used window) (hfield : field.Readable) {size : Nat}
    (hkind : field.kind = .leaf (.fixedBytes size)) :
    (window.forBytes (8 * size)).HasRoom (8 * size) ∧
      ∀ slot, (field.assign used).1.compile slot window =
        let opened := window.forBytes (8 * size)
        (.fixedBytes ⟨field.name, slot, opened.start, opened.taken, 8 * size⟩,
          opened.take (8 * size)) := by
  obtain ⟨hplaced, _⟩ := hfield
  obtain ⟨name, kind, extraLevels, assigned, components⟩ := field
  cases hkind
  refine ⟨h.hasRoom_forBytes hplaced.2, ?_⟩
  intro slot
  rw [Field.assign, Field.compile]

/-- At every place of every scope the window is sound, a number is assigned a position
inside its word at which compilation opens the window, and a byte string has room in its
window. Every word read of the program is compiled at such a place. -/
theorem passes_in_step {schema : Schema} {shape : Shape} (h : schema.resolve = .ok shape)
    (name : String) :
    (∀ fields used window, Reaches (shape.unroll name) fields used window →
      window.Sound ∧ used ≤ maxUsed ∧
      ∀ field ∈ fields.head?,
        (∀ type, field.kind = .leaf (.primitive type) →
          ∃ start shift, Places used window type.bitSize start shift ∧
            field.assign used = ({ field with shift := some shift }, start + type.bitSize) ∧
            ∀ slot, (field.assign used).1.compile slot window =
              let opened := window.forNumber (some shift) type.bitSize
              (.primitive type ⟨field.name, slot, opened.start,
                256 - opened.taken - type.bitSize, type.bitSize⟩, opened.take type.bitSize)) ∧
        ∀ size, field.kind = .leaf (.fixedBytes size) →
          (window.forBytes (8 * size)).HasRoom (8 * size) ∧
            ∀ slot, (field.assign used).1.compile slot window =
              let opened := window.forBytes (8 * size)
              (.fixedBytes ⟨field.name, slot, opened.start, opened.taken, 8 * size⟩,
                opened.take (8 * size))) ∧
      ∀ op ∈ (shape.program name).allOps, op.span? ≠ none →
        CompiledAt (shape.unroll name) op := by
  have hroot : (shape.unroll name).Readable :=
    (Schema.resolve_wellFormed h).readable_unrollIn 0 name
  constructor
  · intro fields used window hplace
    obtain ⟨hfields, hstep⟩ := hplace.inStep hroot
    refine ⟨hstep.sound, hstep.used_le, ?_⟩
    intro field hmem
    have hfield := hfields field (List.mem_of_mem_head? hmem)
    exact ⟨fun type hkind => hstep.number hfield hkind,
      fun size hkind => hstep.byteString hfield hkind⟩
  · intro op hmem hop
    exact Field.compiledAt_ofRoot hmem hop

/-- A number behind a byte string that crosses a word: the running width is 264, the whole
window is taken, and both passes start a new word. -/
theorem passes_in_step_behind_crossing : ∃ shape,
    Schema.resolve ⟨"r", "tuple",
      [⟨"a", "uint8", []⟩, ⟨"b", "bytes32", []⟩, ⟨"c", "uint16", []⟩]⟩ = .ok shape ∧
    ∃ field, Reaches (shape.unroll "r") [field] 264 ⟨1, 256, 264⟩ ∧
      field.kind = .leaf (.primitive (.uint 16)) ∧
      ∃ start shift, Places 264 ⟨1, 256, 264⟩ 16 start shift ∧ start = 0 ∧
        Window.forNumber ⟨1, 256, 264⟩ (some shift) 16 = ⟨33, 0, 264⟩ := by
  have hshape : Schema.resolve ⟨"r", "tuple",
      [⟨"a", "uint8", []⟩, ⟨"b", "bytes32", []⟩, ⟨"c", "uint16", []⟩]⟩ =
    .ok (.tuple [("a", .leaf (.primitive (.uint 8))), ("b", .leaf (.fixedBytes 32)),
      ("c", .leaf (.primitive (.uint 16)))]) := rfl
  have hfirst : Reaches (Shape.unroll (.tuple [("a", .leaf (.primitive (.uint 8))),
      ("b", .leaf (.fixedBytes 32)), ("c", .leaf (.primitive (.uint 16)))]) "r")
      [.plain "a" (.leaf (.primitive (.uint 8))) [], .plain "b" (.leaf (.fixedBytes 32)) [],
        .plain "c" (.leaf (.primitive (.uint 16))) []] 0 {} := .scope
  have hplace : Reaches (Shape.unroll (.tuple [("a", .leaf (.primitive (.uint 8))),
      ("b", .leaf (.fixedBytes 32)), ("c", .leaf (.primitive (.uint 16)))]) "r")
      [.plain "c" (.leaf (.primitive (.uint 16))) []] 264 ⟨1, 256, 264⟩ := by
    simpa [Field.assign, Field.compile, Field.plain, Primitive.bitSize, Word.bitsAbove, maxUsed,
      countSize, Window.forNumber, Window.forBytes, Window.fits, Window.reopen, Window.take]
      using (hfirst.next 0).next 1
  obtain ⟨hplaces, _⟩ := passes_in_step hshape "r"
  obtain ⟨_, _, hfield⟩ := hplaces _ _ _ hplace
  obtain ⟨start, shift, hnumber, _⟩ := (hfield _ rfl).1 _ rfl
  have hstart : start = 0 := hnumber.start_eq
  have hshift := hnumber.shift_eq
  rw [hstart] at hshift
  refine ⟨_, hshape, _, hplace, rfl, start, shift, hnumber, hstart, ?_⟩
  rw [hshift]
  rfl

end Layout

end RecordCodec
