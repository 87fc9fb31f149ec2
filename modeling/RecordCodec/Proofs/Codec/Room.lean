import RecordCodec.Proofs.Codec.Locality
import RecordCodec.Proofs.Program.Room

/-!
# Codecs with room for their addresses

No leaf is longer than a word, so the runs of a scope are at most as many words long as
the scope has fields. In an address space that holds as many bits, compilation makes the
same program as without an end of addresses, and no read of it is farther behind the
cursor than that. What is known of codecs then holds of them in this space too, on every
input that it has room for.
-/

namespace RecordCodec

open AddressSpace

namespace Layout.Window.Sound

variable {window : Layout.Window} {bits : Nat}

/-- A window starts before its run ends. -/
theorem start_le (h : window.Sound) : window.start ≤ window.runBits / 8 := by
  have hrun := h.run
  omega

variable [AddressSpace]

theorem forNumber_eq_unbounded (h : window.Sound) (hroom : Holds window.runBits)
    (shift : Option Int) (bits : Nat) :
    window.forNumber shift bits = @Layout.Window.forNumber .unbounded window shift bits := by
  simp only [Layout.Window.forNumber, h.reopen_eq_unbounded hroom]

theorem forBytes_eq_unbounded (h : window.Sound) (hroom : Holds window.runBits) (bits : Nat) :
    window.forBytes bits = @Layout.Window.forBytes .unbounded window bits := by
  simp only [Layout.Window.forBytes, h.reopen_eq_unbounded hroom]

end Layout.Window.Sound

namespace Field

/-- The same operation and window. The words of the operation begin inside `room` bits, and
the run goes on to at most `limit` bits. -/
structure Alike (room limit : Nat) (compiled other : Op × Layout.Window) : Prop where
  eq : compiled = other
  within : other.1.Within (room / 8)
  run : other.2.runBits ≤ limit

theorem Alike.behind {room limit : Nat} {op other : Op} (heq : op = other)
    (hwithin : other.Within (room / 8)) : Alike room limit (op, {}) (other, {}) :=
  ⟨by rw [heq], hwithin, Nat.zero_le limit⟩

theorem within_counted {operation : Entry → Op} {reach : Nat}
    (h : ∀ entry, (operation entry).Within reach) (levels : Nat) (entry : Entry) :
    (Op.counted operation levels entry).Within reach := by
  induction levels generalizing entry with
  | zero => exact h entry
  | succ levels ih => exact Op.within_nested.mpr (List.forall_mem_singleton.mpr (ih _))

section

variable [AddressSpace] {room : Nat}

theorem Alike.take {limit bits : Nat} {op : Op} {window : Layout.Window} (hholds : Holds limit)
    (hop : op.Within (room / 8)) (hlimit : window.runBits + bits ≤ limit) :
    Alike room limit (op, window.take bits) (op, @Layout.Window.take .unbounded window bits) := by
  rw [Layout.Window.take_eq_unbounded (hholds.mono hlimit)]
  exact ⟨rfl, hop, hlimit⟩

/-- Whatever sound window a field is compiled in, it is compiled alike if there is room
for one word more for every field in it. -/
def CompilesAlike (room : Nat) (field : Field) : Prop :=
  ∀ (slot : Nat) ⦃window : Layout.Window⦄, window.Sound →
    window.runBits + 256 * field.size ≤ room →
      Alike room (window.runBits + 256 * field.size) (field.compile slot window)
        (@compile .unbounded field slot window)

variable {fields : List Field}

theorem compileFrom_eq_unbounded (hreadable : ∀ field ∈ fields, field.Readable)
    (h : ∀ field ∈ fields, field.CompilesAlike room) (slot : Nat) {window : Layout.Window}
    (hwindow : window.Sound) (hroom : window.runBits + 256 * sizeAll fields ≤ room) :
    compileFrom fields slot window = @compileFrom .unbounded fields slot window ∧
      ∀ op ∈ (@compileFrom .unbounded fields slot window).1, op.Within (room / 8) := by
  induction fields generalizing slot window with
  | nil =>
    simp only [compileFrom]
    simp
  | cons field fields ih =>
    rw [sizeAll] at hroom
    obtain ⟨heq, hwithin, hrun⟩ := h field (by simp) slot hwindow (by omega)
    obtain ⟨hnext, _⟩ := (hreadable field (by simp)).compiles [] slot hwindow
    obtain ⟨hrest, hothers⟩ := ih (fun other hmem => hreadable other (by simp [hmem]))
      (fun other hmem => h other (by simp [hmem])) (slot + 1) hnext (by omega)
    constructor
    · simp only [compileFrom]
      rw [heq, hrest]
    · rw [compileFrom_cons]
      exact List.forall_mem_cons.mpr ⟨hwithin, hothers⟩

theorem compileElement_eq_unbounded (h : ∀ field ∈ fields, field.CompilesAlike room)
    (hroom : 256 * sizeAll fields ≤ room) (entry : Entry) :
    compileElement fields entry = @compileElement .unbounded fields entry ∧
      (@compileElement .unbounded fields entry).Within (room / 8) := by
  cases fields with
  | nil =>
    simp only [compileElement]
    exact ⟨trivial, Op.within_nested.mpr (by simp)⟩
  | cons element others =>
    rw [sizeAll] at hroom
    have hempty : 0 + 256 * element.size ≤ room := by omega
    obtain ⟨heq, hwithin, _⟩ := h element (by simp) 0 .empty hempty
    simp only [compileElement]
    cases element.elementRead? with
    | some read => exact ⟨rfl, Op.within_leaf (Nat.zero_le _) rfl⟩
    | none =>
      dsimp only
      rw [heq]
      exact ⟨rfl, Op.within_nested.mpr (by simpa using hwithin)⟩

/-- In an address space that holds `room` bits, readable fields are compiled alike. -/
theorem Readable.compilesAlike {field : Field} (hfield : field.Readable) (hholds : Holds room) :
    field.CompilesAlike room := by
  induction hfield with
  | @intro field hplaced hcomponents ih =>
    intro slot window hwindow hroom
    obtain ⟨name, kind, extraLevels, shift, components⟩ := field
    change ∀ component ∈ components, component.Readable at hcomponents
    change ∀ component ∈ components, component.CompilesAlike room at ih
    simp only [size] at hroom ⊢
    have hlimit := hholds.mono hroom
    have hrun : Holds window.runBits := hholds.mono (by omega)
    have hempty : ({} : Layout.Window).runBits + 256 * sizeAll components ≤ room := by
      change 0 + 256 * sizeAll components ≤ room
      omega
    obtain ⟨hscope, hops⟩ := compileFrom_eq_unbounded hcomponents ih 0 .empty hempty
    cases kind with
    | leaf type =>
      cases type with
      | primitive type =>
        obtain ⟨htype, hshift⟩ := hplaced
        change ∀ s, shift = some s → 0 ≤ s at hshift
        have hbits : type.bitSize ≤ 256 := htype.2.2
        obtain ⟨hsound, _, _⟩ := hwindow.forNumber hbits hshift
        have hopened := Layout.Window.runBits_forNumber window shift type.bitSize
        have hstart := hsound.start_le
        simp only [compile, hwindow.forNumber_eq_unbounded hrun shift type.bitSize]
        refine .take hlimit (Op.within_leaf ?_ rfl) ?_
        · dsimp only [Op.offset]
          omega
        · omega
      | fixedBytes size =>
        have hbits : 8 * size ≤ 256 := by
          obtain ⟨_, hsize⟩ := hplaced
          omega
        obtain ⟨hsound, _, _⟩ := hwindow.forBytes hbits
        have hopened := Layout.Window.runBits_forBytes window (8 * size)
        have hstart := hsound.start_le
        simp only [compile, hwindow.forBytes_eq_unbounded hrun (8 * size)]
        refine .take hlimit (Op.within_leaf ?_ rfl) ?_
        · dsimp only [Op.offset]
          omega
        · omega
      | bytes =>
        simp only [compile]
        exact .behind rfl (Op.within_leaf (Nat.zero_le _) rfl)
      | string =>
        simp only [compile]
        exact .behind rfl (Op.within_leaf (Nat.zero_le _) rfl)
    | tuple =>
      simp only [compile, hscope]
      exact .behind rfl (Op.within_nested.mpr hops)
    | fixedArray size =>
      simp only [compile, hscope]
      exact .behind rfl (Op.within_nested.mpr hops)
    | dynamicArray =>
      have helement : ∀ entry, compileElement components entry =
            @compileElement .unbounded components entry ∧
          (@compileElement .unbounded components entry).Within (room / 8) :=
        compileElement_eq_unbounded ih (by omega)
      have hsame : compileElement components = @compileElement .unbounded components :=
        funext fun entry => (helement entry).1
      simp only [compile, hsame]
      exact .behind rfl (within_counted (fun entry => (helement entry).2) _ _)

/-- A scope with room for one word for every field is compiled alike. -/
theorem compileScope_eq_unbounded (hreadable : ∀ field ∈ fields, field.Readable)
    (hholds : Holds (256 * sizeAll fields)) :
    compileScope fields = @compileScope .unbounded fields ∧
      ∀ op ∈ (@compileScope .unbounded fields).ops, op.Within (32 * sizeAll fields) := by
  have hroom : ({} : Layout.Window).runBits + 256 * sizeAll fields ≤ 256 * sizeAll fields := by
    change 0 + 256 * sizeAll fields ≤ 256 * sizeAll fields
    omega
  obtain ⟨heq, hops⟩ := compileFrom_eq_unbounded hreadable
    (fun field hmem => (hreadable field hmem).compilesAlike hholds) 0 .empty hroom
  rw [show 256 * sizeAll fields / 8 = 32 * sizeAll fields by omega] at hops
  constructor
  · simp only [compileScope]
    rw [heq]
  · exact hops

end

mutual

/-- Positions do not change how many fields there are. -/
theorem size_assign : (field : Field) → (used : Nat) → (field.assign used).1.size = field.size
  | ⟨_, .leaf (.primitive _), _, _, _⟩, _ => rfl
  | ⟨_, .leaf (.fixedBytes _), _, _, _⟩, _ => rfl
  | ⟨_, .leaf .bytes, _, _, _⟩, _ => rfl
  | ⟨_, .leaf .string, _, _, _⟩, _ => rfl
  | ⟨_, .tuple, _, _, components⟩, _ => congrArg (1 + ·) (sizeAll_assignFrom components 0)
  | ⟨_, .fixedArray _, _, _, components⟩, _ =>
    congrArg (1 + ·) (sizeAll_assignFrom components 0)
  | ⟨_, .dynamicArray, _, _, components⟩, _ =>
    congrArg (1 + ·) (sizeAll_assignFrom components 0)

theorem sizeAll_assignFrom : (fields : List Field) → (used : Nat) →
    sizeAll (assignFrom fields used) = sizeAll fields
  | [], _ => rfl
  | field :: fields, used => by
    rw [assignFrom, sizeAll, sizeAll, size_assign field used, sizeAll_assignFrom fields _]

end

theorem sizeAll_components_le (field : Field) : sizeAll field.components ≤ field.size := by
  obtain ⟨name, kind, extraLevels, shift, components⟩ := field
  exact Nat.le_add_left _ _

end Field

theorem Op.Within.mono {op : Op} {m n : Nat} (h : op.Within m) (hle : m ≤ n) : op.Within n :=
  fun inner hmem => Nat.le_trans (h inner hmem) hle

section

variable [AddressSpace]

/-- The program of a root field is the same where there is room for its fields. -/
theorem Program.ofRoot_eq_unbounded {root : Field} (hroot : root.Readable)
    (hholds : Holds (256 * root.size)) (name : String) :
    ofRoot root name = @ofRoot .unbounded root name ∧
      (@ofRoot .unbounded root name).Within (32 * root.size) := by
  have hsize := root.sizeAll_components_le
  obtain ⟨hscope, hops⟩ := Field.compileScope_eq_unbounded hroot.components
    (hholds.mono (by omega))
  have hwithin : ∀ op ∈ (@Field.compileScope .unbounded root.components).ops,
      op.Within (32 * root.size) := fun op hmem => (hops op hmem).mono (by omega)
  have hone : Field.sizeAll [root] = root.size := Nat.add_zero _
  obtain ⟨hsingle, hroots⟩ := Field.compileScope_eq_unbounded
    (List.forall_mem_singleton.mpr hroot) (by rw [hone]; exact hholds)
  rw [hone] at hroots
  unfold ofRoot
  split
  · simp only [ofScope, hscope]
    exact ⟨trivial, hwithin⟩
  · simp only [ofScope, hscope]
    exact ⟨trivial, List.forall_mem_singleton.mpr (Op.within_nested.mpr hwithin)⟩
  · rw [hsingle]
    exact ⟨rfl, hroots⟩

theorem Shape.WellFormed.program_eq_unbounded {shape : Shape} (hshape : shape.WellFormed)
    (name : String) (hholds : AddressSpace.Holds (256 * (shape.unroll name).size)) :
    shape.program name = @Shape.program .unbounded shape name ∧
      (@Shape.program .unbounded shape name).Within (32 * (shape.unroll name).size) := by
  have hroot : ((shape.unroll name).assign 0).1.Readable :=
    (hshape.readable_unrollIn 0 name).assign 0
  have hsize := Field.size_assign (shape.unroll name) 0
  rw [← hsize] at hholds ⊢
  exact Program.ofRoot_eq_unbounded hroot hholds name

namespace Codec

variable {schema : Schema} {options : Options} {codec : Codec} {data : Bytes}

/-- A schema is compiled to the same codec where there is room for its fields. -/
theorem compile_eq_unbounded (hroom : ∀ shape, schema.resolve = .ok shape →
    Holds (256 * (shape.unroll schema.name).size)) :
    compile schema options = @compile .unbounded schema options := by
  unfold compile
  cases hresolve : schema.resolve with
  | error error => rfl
  | ok shape =>
    obtain ⟨hprogram, _⟩ := (Schema.resolve_wellFormed hresolve).program_eq_unbounded schema.name
      (hroom shape hresolve)
    rw [Outcome.ok_bind, Outcome.ok_bind, hprogram]

/-- A compiled codec decodes alike where there is room for its fields and the input. -/
theorem decode_eq_unbounded (h : @compile .unbounded schema options = .ok codec)
    (hinput : Holds (data.length + 32 * (codec.shape.unroll codec.name).size + 32)) :
    codec.decode data = @decode .unbounded codec data := by
  obtain ⟨_, hname, hprogram⟩ := compile_eq_ok h
  obtain ⟨_, hwithin⟩ := @Shape.WellFormed.program_eq_unbounded .unbounded codec.shape
    (wellFormed_shape h) codec.name (holds_unbounded _)
  rw [hname, ← hprogram] at hwithin
  rw [hname] at hinput
  exact (aligned_program h).run_eq_unbounded hwithin hinput

theorem parse_eq_unbounded (h : @compile .unbounded schema options = .ok codec)
    (hinput : Holds (data.length + 32 * (codec.shape.unroll codec.name).size + 32)) :
    codec.parse data = @parse .unbounded codec data := by
  simp only [parse, decode_eq_unbounded h hinput]

end Codec

end

end RecordCodec
