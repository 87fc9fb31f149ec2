import RecordCodec.Proofs.Program.Emission

/-!
# Word reads tile their runs

Between two operations that move the cursor stands a run of word reads, all of which
count from where the cursor was left. In a compiled program each read of a run starts
at the bit where the read before it ended, and the next move skips as many bytes as the
run has. So nothing of a run is left out or read twice, however its windows were opened:
numbers open one by their assigned position and byte strings by the room that is left.

One compiled field either extends the run or ends it. From that a scope is tiled by
induction over its fields, whatever run is open before them.
-/

namespace RecordCodec

/-- What a word read looks at: the byte offset of its window, the bits of the window
above the field, and the width of the field. -/
structure Span where
  offset : Nat
  position : Int
  bits : Nat
  deriving DecidableEq, Repr

/-- The span starts at a bit of its run, lies inside its window and is of whole bytes. -/
structure Span.StartsAt (span : Span) (bit : Nat) : Prop where
  start : 8 * (span.offset : Int) + span.position = bit
  nonneg : 0 ≤ span.position
  inside : span.position + span.bits ≤ 256
  wholePosition : 8 ∣ span.position
  wholeBits : 8 ∣ span.bits

namespace Op

/-- What the operation looks at if it is a word read. Numbers are placed from the low
end of their window, byte strings from the high end. -/
def span? : Op → Option Span
  | primitive _ read => some ⟨read.offset, 256 - read.shift - read.bits, read.bits⟩
  | fixedBytes read => some ⟨read.offset, read.shift, read.bits⟩
  | _ => none

/-- The bits that the word reads among some operations take together. -/
def runBits (ops : List Op) : Nat := (ops.map fun op => (op.span?.map Span.bits).getD 0).sum

@[simp] theorem runBits_nil : runBits [] = 0 := rfl

theorem runBits_cons {op : Op} {span : Span} (h : op.span? = some span) (ops : List Op) :
    runBits (op :: ops) = span.bits + runBits ops := by
  simp [runBits, h]

theorem skip?_eq_none_iff {op : Op} : op.skip? = none ↔ ∃ span, op.span? = some span := by
  cases op <;> simp [skip?, span?]

/-- Operations and a tail that go on with an open run of `pending` bits: reads start
where the run has arrived, and each move skips the run before it. -/
inductive Tiles : (pending : Nat) → List Op → (tail : Nat) → Prop
  | done {pending tail : Nat} (h : 8 * tail = pending) : Tiles pending [] tail
  | read {pending tail : Nat} {op : Op} {span : Span} {ops : List Op}
      (hspan : op.span? = some span) (hstart : span.StartsAt pending)
      (hrest : Tiles (pending + span.bits) ops tail) : Tiles pending (op :: ops) tail
  | move {pending tail skip : Nat} {op : Op} {ops : List Op} (hskip : op.skip? = some skip)
      (h : 8 * skip = pending) (hrest : Tiles 0 ops tail) : Tiles pending (op :: ops) tail

namespace Tiles

variable {pending tail : Nat} {op : Op} {ops front run rest : List Op}

theorem span_startsAt (h : Tiles pending (op :: ops) tail) {span : Span}
    (hspan : op.span? = some span) :
    span.StartsAt pending ∧ Tiles (pending + span.bits) ops tail := by
  cases h with
  | read hother hstart hrest =>
    rw [hspan] at hother
    cases hother
    exact ⟨hstart, hrest⟩
  | move hskip =>
    rw [skip?_eq_none_iff.mpr ⟨span, hspan⟩] at hskip
    cases hskip

theorem skip_eq (h : Tiles pending (op :: ops) tail) (hspan : op.span? = none) :
    ∃ skip, op.skip? = some skip ∧ 8 * skip = pending ∧ Tiles 0 ops tail := by
  cases h with
  | read hother =>
    rw [hspan] at hother
    cases hother
  | move hskip hpending hrest => exact ⟨_, hskip, hpending, hrest⟩

/-- Behind word reads the run goes on by their bits. -/
theorem behind_reads (hrun : ∀ op ∈ run, ∃ span, op.span? = some span)
    (h : Tiles pending (run ++ rest) tail) : Tiles (pending + runBits run) rest tail := by
  induction run generalizing pending with
  | nil => exact h
  | cons op run ih =>
    obtain ⟨span, hspan⟩ := hrun op (by simp)
    obtain ⟨_, hrest⟩ := span_startsAt h hspan
    rw [runBits_cons hspan, ← Nat.add_assoc]
    exact ih (fun other hmem => hrun other (by simp [hmem])) hrest

/-- Behind a move a new run starts. -/
theorem behind_move (hlast : op.span? = none) (h : Tiles pending (front ++ op :: rest) tail) :
    Tiles 0 rest tail := by
  induction front generalizing pending with
  | nil =>
    obtain ⟨_, _, _, hrest⟩ := skip_eq h hlast
    exact hrest
  | cons first front ih =>
    cases h with
    | read _ _ hrest => exact ih hrest
    | move _ _ hrest => exact ih hrest

end Tiles

end Op

namespace Layout.Window

variable {window : Layout.Window} {bits : Nat}

/-- A field in a window with room for it starts where the run has arrived. -/
theorem Sound.startsAt (h : window.Sound) (hbits : 8 ∣ bits) (hfit : window.taken + bits ≤ 256) :
    Span.StartsAt ⟨window.start, window.taken, bits⟩ window.runBits := by
  obtain ⟨hrun, hwhole, _⟩ := h
  refine ⟨?_, ?_, ?_, ?_, hbits⟩
  · change 8 * (window.start : Int) + (window.taken : Int) = window.runBits
    omega
  · exact Int.natCast_nonneg window.taken
  · change (window.taken : Int) + bits ≤ 256
    omega
  · exact Int.natCast_dvd_natCast.mpr hwhole

theorem Sound.eight_mul_runBytes (h : window.Sound) : 8 * window.runBytes = window.runBits := by
  have hrun := h.run
  have hwhole := h.whole
  unfold runBytes
  omega

end Layout.Window

namespace Field

/-- A leaf of a fixed width becomes a read that extends the run by its bits. -/
theorem Readable.span_compile {field : Field} (hfield : field.Readable)
    (hread : field.elementRead? ≠ none) (slot : Nat) {window : Layout.Window}
    (hwindow : window.Sound) :
    ∃ span, (field.compile slot window).1.span? = some span ∧ span.StartsAt window.runBits ∧
      (field.compile slot window).2.runBits = window.runBits + span.bits := by
  obtain ⟨hplaced, _⟩ := hfield
  obtain ⟨name, kind, extraLevels, shift, components⟩ := field
  cases kind with
  | leaf type =>
    cases type with
    | primitive type =>
      obtain ⟨⟨_, hbits, hle⟩, hshift⟩ := hplaced
      change ∀ s, shift = some s → 0 ≤ s at hshift
      obtain ⟨hsound, _, hfit⟩ := hwindow.forNumber hle hshift
      have hstart := hsound.startsAt hbits hfit
      have hposition : ((window.forNumber shift type.bitSize).taken : Int) =
          256 - (256 - (window.forNumber shift type.bitSize).taken - type.bitSize : Nat) -
            type.bitSize := by omega
      rw [Layout.Window.runBits_forNumber, hposition] at hstart
      rw [compile]
      exact ⟨_, rfl, hstart, by simp⟩
    | fixedBytes size =>
      have hle : 8 * size ≤ 256 := by
        obtain ⟨_, hsize⟩ := hplaced
        omega
      obtain ⟨hsound, _, hfit⟩ := hwindow.forBytes hle
      have hstart := hsound.startsAt (Nat.dvd_mul_right 8 size) hfit
      rw [Layout.Window.runBits_forBytes] at hstart
      rw [compile]
      exact ⟨_, rfl, hstart, by simp⟩
    | bytes => exact absurd rfl hread
    | string => exact absurd rfl hread
  | tuple => exact absurd rfl hread
  | fixedArray size => exact absurd rfl hread
  | dynamicArray => exact absurd rfl hread

theorem tiles_compileFrom {fields : List Field} (h : ∀ field ∈ fields, field.Readable)
    (slot : Nat) {window : Layout.Window} (hwindow : window.Sound) :
    Op.Tiles window.runBits (compileFrom fields slot window).1
      (compileFrom fields slot window).2.runBytes := by
  induction fields generalizing slot window with
  | nil =>
    rw [compileFrom]
    exact .done hwindow.eight_mul_runBytes
  | cons field fields ih =>
    have hfield := h field (by simp)
    obtain ⟨hnext, _⟩ := hfield.compiles [] slot hwindow
    have hrest := ih (fun other hmem => h other (by simp [hmem])) (slot + 1) hnext
    rw [compileFrom_cons]
    by_cases hread : field.elementRead? = none
    · rw [compile_window_of_moving hread] at hrest ⊢
      exact .move (compile_skip_of_moving hread slot window) hwindow.eight_mul_runBytes hrest
    · obtain ⟨span, hspan, hstart, hbits⟩ := hfield.span_compile hread slot hwindow
      rw [hbits] at hrest
      exact .read hspan hstart hrest

end Field

theorem Block.Emitted.tiles {block : Block Op} (h : block.Emitted) :
    Op.Tiles 0 block.ops block.tail := by
  cases h with
  | scope hfields => exact Field.tiles_compileFrom hfields 0 .empty
  | single hskip => exact .move hskip rfl (.done rfl)

end RecordCodec
