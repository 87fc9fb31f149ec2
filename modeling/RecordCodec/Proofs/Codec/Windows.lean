import RecordCodec.Proofs.Codec.Runs
import RecordCodec.Proofs.Program.Placement
import RecordCodec.Proofs.Program.Scopes

/-!
# Windows are opened for want of room

The reads of a run share a window as long as they fit. A read opens a window of its own,
at its first byte, when the bits used in the window of the read before it leave no room
for it. There is one more reason, which concerns numbers only. A byte string that opens a
window is not noticed by assignment, whose running width goes past the word; so the next
number starts a new word, and opens a window even if it had room in the last one.

Which of the two holds can be told from the reads alone. The running width is past the
word just when a byte string has opened a window and no number has followed yet. That is
what a step of both passes keeps, and with it every run is explained from its start. A run
of numbers has only the first reason, so it is packed greedily.
-/

namespace RecordCodec

namespace Span

/-- The bits of the window that are used behind the field. -/
def used (span : Span) : Int := span.position + span.bits

/-- The field is read in the window of the one before it, right behind it. -/
def Continues (span before : Span) : Prop :=
  span.offset = before.offset ∧ span.position = before.used

/-- The field is read in a window of its own, which starts right behind the one before it. -/
def Opens (span before : Span) : Prop :=
  8 * (span.offset : Int) = 8 * before.offset + before.used ∧ span.position = 0

theorem Opens.offset_ne {span before : Span} (h : span.Opens before) (hused : 0 < before.used) :
    span.offset ≠ before.offset := by
  obtain ⟨hoffset, _⟩ := h
  omega

/-- Widths packed greedily, from a window on of which some bits are taken: a width goes to
the next window only if this one has no room for it. -/
def pack : (offset taken : Nat) → (widths : List Nat) → List Span
  | _, _, [] => []
  | offset, taken, bits :: widths =>
    if taken + bits ≤ 256 then ⟨offset, taken, bits⟩ :: pack offset (taken + bits) widths
    else ⟨offset + taken / 8, 0, bits⟩ :: pack (offset + taken / 8) bits widths

end Span

namespace Op

def IsNumber : Op → Prop
  | primitive _ _ => True
  | _ => False

def IsByteString : Op → Prop
  | fixedBytes _ => True
  | _ => False

/-- Among the byte strings behind the last number of a run, one has opened a window. -/
def Crossed (reads : List Op) : Prop :=
  ∃ front before op rest span last, reads = front ++ before :: op :: rest ∧
    (∀ other ∈ op :: rest, other.IsByteString) ∧
    op.span? = some span ∧ before.span? = some last ∧ span.Opens last

/-- Why a read, behind others of its run, cannot be in the window of the last of them. -/
def NeedsWindow (reads : List Op) (last : Span) (op : Op) (span : Span) : Prop :=
  256 < last.used + span.bits ∨ op.IsNumber ∧ Crossed reads

/-- A read behind others of its run opens a window if it needs one, and only then. -/
structure OpensAsNeeded (reads : List Op) (op : Op) (span : Span) : Prop where
  width : span.bits ≤ 256
  first : reads = [] → span.offset = 0 ∧ span.position = 0
  next : ∀ before ∈ reads.getLast?, ∃ last, before.span? = some last ∧ 0 < last.used ∧
    (NeedsWindow reads last op span → span.Opens last) ∧
    (¬ NeedsWindow reads last op span → span.Continues last)

/-- Operations that go on behind the reads of an open run, each in a window as needed. -/
inductive Windowed : (reads ops : List Op) → Prop
  | done {reads : List Op} : Windowed reads []
  | read {reads ops : List Op} {op : Op} {span : Span} (hspan : op.span? = some span)
      (hop : OpensAsNeeded reads op span) (hrest : Windowed (reads ++ [op]) ops) :
      Windowed reads (op :: ops)
  | move {reads ops : List Op} {op : Op} (hspan : op.span? = none) (hrest : Windowed [] ops) :
      Windowed reads (op :: ops)

theorem IsNumber.not_isByteString {op : Op} (h : op.IsNumber) : ¬ op.IsByteString := by
  cases op with
  | primitive type read => exact id
  | _ => cases h

/-- A number in a window that has room for it, seen from the high end. -/
theorem span?_primitive (type : Primitive) (name : String) (slot : Nat) {window : Layout.Window}
    (h : window.taken + type.bitSize ≤ 256) :
    (primitive type ⟨name, slot, window.start, 256 - window.taken - type.bitSize,
      type.bitSize⟩).span? = some ⟨window.start, window.taken, type.bitSize⟩ := by
  simp only [span?, Option.some.injEq, Span.mk.injEq, and_true, true_and]
  omega

theorem not_crossed_nil : ¬ Crossed [] := by
  rintro ⟨front, before, op, rest, span, last, hreads, _⟩
  simp at hreads

/-- The last of some reads stands behind any two that follow each other before it. -/
theorem concat_eq_append {reads front rest : List Op} {op before first : Op}
    (h : reads ++ [op] = front ++ before :: first :: rest) :
    ∃ init, first :: rest = init ++ [op] ∧ reads = front ++ before :: init := by
  obtain ⟨init, last, hinit⟩ := (List.eq_nil_or_concat (first :: rest)).resolve_left (by simp)
  have hconcat : reads ++ [op] = (front ++ before :: init) ++ [last] := by
    rw [h, hinit]
    simp
  obtain ⟨hreads, hlast⟩ := List.append_inj' hconcat rfl
  cases hlast
  exact ⟨init, by simpa using hinit, hreads⟩

theorem not_crossed_of_numbers {reads : List Op} (h : ∀ op ∈ reads, op.IsNumber) :
    ¬ Crossed reads := by
  rintro ⟨front, before, op, rest, span, last, rfl, hstrings, _⟩
  exact (h op (by simp)).not_isByteString (hstrings op (by simp))

theorem not_crossed_concat {reads : List Op} {op : Op} (hop : ¬ op.IsByteString) :
    ¬ Crossed (reads ++ [op]) := by
  rintro ⟨front, before, first, rest, span, last, hreads, hstrings, _⟩
  obtain ⟨init, hinit, _⟩ := concat_eq_append hreads
  exact hop (hstrings op (by simp [hinit]))

theorem crossed_concat_iff {reads : List Op} {op : Op} {span : Span} (hop : op.IsByteString)
    (hspan : op.span? = some span) :
    Crossed (reads ++ [op]) ↔ Crossed reads ∨
      ∃ before ∈ reads.getLast?, ∃ last, before.span? = some last ∧ span.Opens last := by
  constructor
  · rintro ⟨front, before, first, rest, opening, last, hreads, hstrings, hopening, hlast, hopens⟩
    obtain ⟨init, hinit, rfl⟩ := concat_eq_append hreads
    cases init with
    | nil =>
      cases hinit
      rw [hspan] at hopening
      cases hopening
      exact .inr ⟨before, by simp, last, hlast, hopens⟩
    | cons other init =>
      cases hinit
      exact .inl ⟨front, before, first, init, opening, last, rfl,
        fun other hmem => hstrings other (List.mem_append_left [op] hmem), hopening, hlast, hopens⟩
  · rintro (⟨front, before, first, rest, opening, last, rfl, hstrings, hopening, hlast, hopens⟩ |
      ⟨before, hbefore, last, hlast, hopens⟩)
    · refine ⟨front, before, first, rest ++ [op], opening, last, by simp, ?_, hopening, hlast,
        hopens⟩
      intro other hmem
      rw [← List.cons_append, List.mem_append, List.mem_singleton] at hmem
      rcases hmem with hmem | rfl
      · exact hstrings other hmem
      · exact hop
    · obtain ⟨front, rfl⟩ := List.getLast?_eq_some_iff.mp hbefore
      exact ⟨front, before, op, [], span, last, by simp, List.forall_mem_singleton.mpr hop, hspan,
        hlast, hopens⟩

end Op

namespace Layout

open Op (Crossed OpensAsNeeded)

/-- Both passes stand behind the reads of an open run: the window is that of the last of
them, and the running width is past the word if a byte string has opened a window. -/
structure Behind (reads : List Op) (used : Nat) (window : Window) : Prop where
  step : InStep used window
  first : reads = [] → window.start = 0 ∧ window.taken = 0
  last : ∀ before ∈ reads.getLast?, ∃ span, before.span? = some span ∧ 0 < span.used ∧
    span.offset = window.start ∧ span.used = window.taken
  crossed : 256 < used ↔ Crossed reads

theorem Behind.start : Behind [] 0 {} :=
  ⟨.start, fun _ => ⟨rfl, rfl⟩, by simp, by simp [Op.not_crossed_nil]⟩

namespace Behind

variable {reads : List Op} {used bits : Nat} {window opened : Window} {op : Op}

/-- Something of the window is taken unless the run begins with it. -/
theorem taken_pos (h : Behind reads used window) (hreads : reads ≠ []) : 0 < window.taken := by
  obtain ⟨before, hbefore⟩ := Option.isSome_iff_exists.mp (List.getLast?_isSome.mpr hreads)
  obtain ⟨span, _, hused, _, htaken⟩ := h.last before hbefore
  omega

theorem taken_pos_of_lt (h : Behind reads used window) (hused : 256 < used) :
    0 < window.taken := by
  apply h.taken_pos
  rintro rfl
  exact Op.not_crossed_nil (h.crossed.mp hused)

/-- A read in a window that is reopened where it is needed, and only there. -/
theorem opensAsNeeded (h : Behind reads used window) (hbits : bits ≤ 256)
    (hkeep : ¬ (256 < window.taken + bits ∨ op.IsNumber ∧ 256 < used) → opened = window)
    (hopen : 256 < window.taken + bits ∨ op.IsNumber ∧ 256 < used → opened = window.reopen) :
    OpensAsNeeded reads op ⟨opened.start, opened.taken, bits⟩ := by
  refine ⟨hbits, ?_, ?_⟩
  · intro hreads
    obtain ⟨hstart, htaken⟩ := h.first hreads
    have hused : ¬ 256 < used := by
      rw [h.crossed, hreads]
      exact Op.not_crossed_nil
    obtain rfl := hkeep (by omega)
    exact ⟨hstart, by simp [htaken]⟩
  · intro before hbefore
    obtain ⟨last, hlast, hpos, hoffset, htaken⟩ := h.last before hbefore
    have hneeds : Op.NeedsWindow reads last op ⟨opened.start, opened.taken, bits⟩ ↔
        256 < window.taken + bits ∨ op.IsNumber ∧ 256 < used := by
      unfold Op.NeedsWindow
      rw [h.crossed, htaken]
      dsimp only
      norm_cast
    refine ⟨last, hlast, hpos, ?_, ?_⟩
    · intro hneed
      obtain rfl := hopen (hneeds.mp hneed)
      have hwhole := h.step.sound.whole
      refine ⟨?_, rfl⟩
      show 8 * ((window.start + window.taken / 8 : Nat) : Int) = 8 * last.offset + last.used
      omega
    · intro hneed
      obtain rfl := hkeep (mt hneeds.mpr hneed)
      exact ⟨hoffset.symm, htaken.symm⟩

/-- The passes then stand behind one read more. -/
theorem concat {after : Nat} (hspan : op.span? = some ⟨opened.start, opened.taken, bits⟩)
    (hbits : 0 < bits) (hfits : opened.taken + bits ≤ 256)
    (hstep : InStep after (opened.take bits))
    (hcrossed : 256 < after ↔ Crossed (reads ++ [op])) :
    Behind (reads ++ [op]) after (opened.take bits) := by
  refine ⟨hstep, by simp, ?_, hcrossed⟩
  intro before hbefore
  rw [List.getLast?_concat] at hbefore
  cases hbefore
  refine ⟨_, hspan, ?_, rfl, ?_⟩
  · show 0 < (opened.taken : Int) + bits
    omega
  · rw [Window.taken_take hfits]
    exact (Int.natCast_add opened.taken bits).symm

/-- A number finds the window where its position says, or opens one. -/
theorem forNumber_eq (h : Behind reads used window) {start : Nat} {shift : Int}
    (hplaces : Places used window bits start shift) (hbits : bits ≤ 256) :
    (¬ (256 < window.taken + bits ∨ 256 < used) → window.forNumber (some shift) bits = window) ∧
      (256 < window.taken + bits ∨ 256 < used →
        window.forNumber (some shift) bits = window.reopen) := by
  have hagree := h.step.agree
  have htaken := h.taken_pos_of_lt
  have hstart := hplaces.start_eq
  have hposition : Word.bitsAbove shift bits = start := by
    have habove := hplaces.position
    have hshift := hplaces.shift_eq
    omega
  unfold Window.forNumber
  simp only [Option.map_some, Option.getD_some, hposition]
  constructor
  · intro hroom
    rw [if_neg (by omega)] at hstart
    exact if_pos (by omega)
  · intro hneed
    rw [if_pos (by omega)] at hstart
    exact if_neg (by omega)

theorem forBytes_eq (h : Behind reads used window) (hbits : bits ≤ 256) :
    (¬ 256 < window.taken + bits → window.forBytes bits = window) ∧
      (256 < window.taken + bits → window.forBytes bits = window.reopen) := by
  have hfits := h.step.sound.fits_eq_true hbits
  unfold Window.forBytes
  constructor
  · intro hroom
    exact if_pos (hfits.mpr (by omega))
  · intro hneed
    exact if_neg (mt hfits.mp (by omega))

/-- A byte string takes the running width past the word by opening a window. -/
theorem crossed_byteString (h : Behind reads used window) (hop : op.IsByteString)
    (hbits : 0 < bits) (hle : bits ≤ 256)
    (hspan : op.span? = some ⟨(window.forBytes bits).start, (window.forBytes bits).taken, bits⟩) :
    256 < min (used + bits) maxUsed ↔ Crossed (reads ++ [op]) := by
  have hagree := h.step.agree
  have hlimit : 256 < min (used + bits) maxUsed ↔ 256 < used ∨ 256 < window.taken + bits := by
    unfold maxUsed
    omega
  obtain ⟨hkeep, hreopen⟩ := h.forBytes_eq hle
  rw [hlimit, Op.crossed_concat_iff hop hspan, h.crossed]
  apply or_congr_right
  constructor
  · intro hneed
    have hreads : reads ≠ [] := by
      intro hnil
      have hfirst := (h.first hnil).2
      omega
    obtain ⟨before, hbefore⟩ := Option.isSome_iff_exists.mp (List.getLast?_isSome.mpr hreads)
    obtain ⟨last, hlast, _, hoffset, htaken⟩ := h.last before hbefore
    have hwhole := h.step.sound.whole
    refine ⟨before, hbefore, last, hlast, ?_⟩
    rw [hreopen hneed]
    refine ⟨?_, rfl⟩
    show 8 * ((window.start + window.taken / 8 : Nat) : Int) = 8 * last.offset + last.used
    omega
  · rintro ⟨before, hbefore, last, hlast, _, hposition⟩
    by_contra hroom
    have htaken := h.taken_pos (by rintro rfl; cases hbefore)
    rw [hkeep hroom] at hposition
    change (window.taken : Int) = 0 at hposition
    omega

theorem number (h : Behind reads used window) {start : Nat} {shift : Int} (hpos : 0 < bits)
    (hplaces : Places used window bits start shift) (hop : op.IsNumber)
    (hspan : op.span? = some ⟨(window.forNumber (some shift) bits).start,
      (window.forNumber (some shift) bits).taken, bits⟩)
    (hstep : InStep (start + bits) ((window.forNumber (some shift) bits).take bits)) :
    OpensAsNeeded reads op ⟨(window.forNumber (some shift) bits).start,
        (window.forNumber (some shift) bits).taken, bits⟩ ∧
      Behind (reads ++ [op]) (start + bits) ((window.forNumber (some shift) bits).take bits) := by
  have hinside := hplaces.inside
  obtain ⟨hkeep, hopen⟩ := h.forNumber_eq hplaces (by omega)
  have hcrossed : ¬ Crossed (reads ++ [op]) := Op.not_crossed_concat hop.not_isByteString
  refine ⟨h.opensAsNeeded (by omega) ?_ ?_,
    concat hspan hpos hplaces.room.fits hstep (iff_of_false (by omega) hcrossed)⟩
  · simpa only [hop, true_and] using hkeep
  · simpa only [hop, true_and] using hopen

theorem byteString (h : Behind reads used window) (hpos : 0 < bits) (hle : bits ≤ 256)
    (hop : op.IsByteString)
    (hspan : op.span? = some ⟨(window.forBytes bits).start, (window.forBytes bits).taken, bits⟩)
    (hstep : InStep (min (used + bits) maxUsed) ((window.forBytes bits).take bits)) :
    OpensAsNeeded reads op ⟨(window.forBytes bits).start, (window.forBytes bits).taken, bits⟩ ∧
      Behind (reads ++ [op]) (min (used + bits) maxUsed) ((window.forBytes bits).take bits) := by
  obtain ⟨hkeep, hopen⟩ := h.forBytes_eq hle
  obtain ⟨_, _, hfits⟩ := h.step.sound.forBytes hle
  have hnumber : ¬ op.IsNumber := fun hnumber => hnumber.not_isByteString hop
  refine ⟨h.opensAsNeeded hle ?_ ?_,
    concat hspan hpos hfits hstep (h.crossed_byteString hop hpos hle hspan)⟩
  · simpa only [hnumber, false_and, or_false] using hkeep
  · simpa only [hnumber, false_and, or_false] using hopen

/-- A leaf of a fixed width is read in a window as needed, wherever the passes stand. -/
theorem read (h : Behind reads used window) {field : Field} (hfield : field.Readable)
    (hread : field.elementRead? ≠ none) (slot : Nat) :
    ∃ span, ((field.assign used).1.compile slot window).1.span? = some span ∧
      OpensAsNeeded reads ((field.assign used).1.compile slot window).1 span ∧
      Behind (reads ++ [((field.assign used).1.compile slot window).1]) (field.assign used).2
        ((field.assign used).1.compile slot window).2 := by
  have hplaced := hfield.placed
  have hnext := h.step.next hplaced slot
  obtain ⟨read, hread⟩ := Option.ne_none_iff_exists'.mp hread
  rcases Field.elementRead?_eq_some hread with ⟨type, hkind, _⟩ | ⟨size, hkind, _⟩
  · obtain ⟨start, shift, hplaces, hassign, hcompile⟩ := h.step.number hfield hkind
    have hafter : (field.assign used).2 = start + type.bitSize := congrArg Prod.snd hassign
    have htype := hplaced.primitive hkind
    rw [hcompile slot, hafter] at hnext ⊢
    have hspan := Op.span?_primitive type field.name slot hplaces.room.fits
    exact ⟨_, hspan, h.number htype.1 hplaces trivial hspan hnext⟩
  · obtain ⟨hroom, hcompile⟩ := h.step.byteString hfield hkind
    have hafter : (field.assign used).2 = min (used + 8 * size) maxUsed := by
      obtain ⟨name, kind, extraLevels, shift, components⟩ := field
      cases hkind
      rfl
    obtain ⟨hpos, hle⟩ := hplaced.fixedBytes hkind
    rw [hcompile slot, hafter] at hnext ⊢
    exact ⟨_, rfl, h.byteString (by omega) (by omega) trivial rfl hnext⟩

end Behind

end Layout

theorem Field.assign_of_moving {field : Field} (h : field.elementRead? = none) (used : Nat) :
    (field.assign used).2 = 0 := by
  obtain ⟨name, kind, extraLevels, shift, components⟩ := field
  cases kind with
  | leaf type =>
    cases type with
    | primitive type => cases h
    | fixedBytes size => cases h
    | _ => rfl
  | _ => rfl

/-- All reads of a scope are in windows as needed, whatever run is open before them. -/
theorem Field.windowed_compileFrom {fields : List Field} (h : ∀ field ∈ fields, field.Readable)
    (slot : Nat) {reads : List Op} {used : Nat} {window : Layout.Window}
    (hbehind : Layout.Behind reads used window) :
    Op.Windowed reads (compileFrom (assignFrom fields used) slot window).1 := by
  induction fields generalizing slot reads used window with
  | nil =>
    rw [assignFrom, compileFrom]
    exact .done
  | cons field fields ih =>
    have hfield := h field (by simp)
    have hfields : ∀ other ∈ fields, other.Readable := fun other hmem => h other (by simp [hmem])
    rw [assignFrom, compileFrom_cons]
    by_cases hread : field.elementRead? = none
    · have hassigned : (field.assign used).1.elementRead? = none := by
        rw [elementRead?_assign, hread]
      have hskip := compile_skip_of_moving hassigned slot window
      have hspan : ((field.assign used).1.compile slot window).1.span? = none := by
        by_contra hspan
        rw [Op.skip?_eq_none_iff.mpr (Option.ne_none_iff_exists'.mp hspan)] at hskip
        cases hskip
      rw [assign_of_moving hread, compile_window_of_moving hassigned]
      exact .move hspan (ih hfields (slot + 1) .start)
    · obtain ⟨span, hspan, hopens, hnext⟩ := hbehind.read hfield hread slot
      exact .read hspan hopens (ih hfields (slot + 1) hnext)

theorem Block.Placed.windowed {block : Block Op} (h : block.Placed) :
    Op.Windowed [] block.ops := by
  cases h with
  | scope hfields => exact Field.windowed_compileFrom hfields 0 .start
  | @single op hslot hskip =>
    cases hspan : op.span? with
    | none => exact .move hspan .done
    | some span =>
      rw [Op.skip?_eq_none_iff.mpr ⟨span, hspan⟩] at hskip
      cases hskip

namespace Op

variable {reads front run rest ops : List Op} {op : Op}

namespace Windowed

theorem opensAsNeeded (h : Windowed reads (op :: ops)) {span : Span}
    (hspan : op.span? = some span) :
    OpensAsNeeded reads op span ∧ Windowed (reads ++ [op]) ops := by
  cases h with
  | read hother hop hrest =>
    rw [hspan] at hother
    cases hother
    exact ⟨hop, hrest⟩
  | move hother =>
    rw [hspan] at hother
    cases hother

theorem behind_reads (h : Windowed reads (run ++ rest))
    (hrun : ∀ op ∈ run, ∃ span, op.span? = some span) : Windowed (reads ++ run) rest := by
  induction run generalizing reads with
  | nil => simpa using h
  | cons op run ih =>
    obtain ⟨span, hspan⟩ := hrun op (by simp)
    obtain ⟨_, hrest⟩ := opensAsNeeded h hspan
    simpa using ih hrest fun other hmem => hrun other (by simp [hmem])

theorem behind_move (h : Windowed reads (front ++ op :: rest)) (hop : op.span? = none) :
    Windowed [] rest := by
  induction front generalizing reads with
  | nil =>
    cases h with
    | read hspan _ _ =>
      rw [hop] at hspan
      cases hspan
    | move _ hrest => exact hrest
  | cons first front ih =>
    cases h with
    | read _ _ hrest => exact ih hrest
    | move _ hrest => exact ih hrest

end Windowed

namespace OpensAsNeeded

variable {span last : Span} {before : Op}

/-- A read opens a window exactly when it needs one, and is in that of the read before it
exactly when it does not. -/
theorem opens_iff (h : OpensAsNeeded (reads ++ [before]) op span)
    (hbefore : before.span? = some last) :
    (span.Opens last ↔ NeedsWindow (reads ++ [before]) last op span) ∧
      (span.offset = last.offset ↔ ¬ NeedsWindow (reads ++ [before]) last op span) := by
  obtain ⟨other, hother, hused, hopens, hcontinues⟩ := h.next before (by simp)
  rw [hbefore] at hother
  cases hother
  by_cases hneed : NeedsWindow (reads ++ [before]) last op span
  · have hopen := hopens hneed
    exact ⟨iff_of_true hopen hneed, iff_of_false (hopen.offset_ne hused) (not_not.mpr hneed)⟩
  · have hkeep := (hcontinues hneed).1
    exact ⟨iff_of_false (fun hopen => hopen.offset_ne hused hkeep) hneed, iff_of_true hkeep hneed⟩

end OpensAsNeeded

theorem IsNumber.exists_span {op : Op} (h : op.IsNumber) : ∃ span, op.span? = some span := by
  cases op with
  | primitive type read => exact ⟨_, rfl⟩
  | _ => cases h

/-- Behind numbers only the room that is left decides. -/
theorem needsWindow_behind_numbers {last span : Span} {taken : Nat}
    (h : ∀ other ∈ reads, other.IsNumber) (htaken : last.used = taken) :
    NeedsWindow reads last op span ↔ 256 < taken + span.bits := by
  unfold NeedsWindow
  rw [htaken, or_iff_left fun hcrossed => not_crossed_of_numbers h hcrossed.2]
  norm_cast

namespace Windowed

/-- Numbers behind numbers are packed on in the window of the last of these. -/
theorem packed_behind {before : Op} {last : Span} (taken : Nat)
    (h : Windowed (reads ++ [before]) (run ++ rest))
    (hreads : ∀ op ∈ reads ++ [before], op.IsNumber) (hrun : ∀ op ∈ run, op.IsNumber)
    (hlast : before.span? = some last) (htaken : last.used = taken) :
    run.filterMap span? =
      Span.pack last.offset taken ((run.filterMap span?).map Span.bits) := by
  induction run generalizing reads before last taken with
  | nil => rfl
  | cons op run ih =>
    obtain ⟨hop, hothers⟩ := List.forall_mem_cons.mp hrun
    obtain ⟨⟨offset, position, bits⟩, hspan⟩ := hop.exists_span
    obtain ⟨hneeded, hrest⟩ := opensAsNeeded h hspan
    have hpacked (after : Nat) := ih after hrest
      (List.forall_mem_append.mpr ⟨hreads, List.forall_mem_singleton.mpr hop⟩) hothers hspan
    have hneeds : NeedsWindow (reads ++ [before]) last op ⟨offset, position, bits⟩ ↔
        256 < taken + bits := needsWindow_behind_numbers hreads htaken
    obtain ⟨other, hother, _, hopens, hcontinues⟩ := hneeded.next before (by simp)
    rw [hlast] at hother
    cases hother
    rw [List.filterMap_cons_some hspan, List.map_cons, Span.pack]
    by_cases hroom : taken + bits ≤ 256
    · obtain ⟨hoffset, hposition⟩ := hcontinues (fun hneed => absurd (hneeds.mp hneed) (by omega))
      obtain rfl : offset = last.offset := hoffset
      obtain rfl : position = taken := hposition.trans htaken
      rw [if_pos hroom]
      exact congrArg _ (hpacked _ rfl)
    · obtain ⟨hoffset, hposition⟩ := hopens (hneeds.mpr (by omega))
      obtain rfl : position = 0 := hposition
      obtain rfl : offset = last.offset + taken / 8 := by
        change 8 * (offset : Int) = 8 * last.offset + last.used at hoffset
        omega
      rw [if_neg hroom]
      exact congrArg _ (hpacked _ (Int.zero_add _))

/-- A run of numbers is packed from its start. -/
theorem packed (h : Windowed [] (run ++ rest)) (hrun : ∀ op ∈ run, op.IsNumber) :
    run.filterMap span? = Span.pack 0 0 ((run.filterMap span?).map Span.bits) := by
  cases run with
  | nil => rfl
  | cons op run =>
    obtain ⟨hop, hothers⟩ := List.forall_mem_cons.mp hrun
    obtain ⟨⟨offset, position, bits⟩, hspan⟩ := hop.exists_span
    obtain ⟨hneeded, hrest⟩ := opensAsNeeded h hspan
    obtain ⟨rfl, rfl⟩ : offset = 0 ∧ position = 0 := hneeded.first rfl
    have hbits : bits ≤ 256 := hneeded.width
    have hpacked := packed_behind bits hrest (List.forall_mem_singleton.mpr hop) hothers hspan
      (Int.zero_add _)
    rw [List.filterMap_cons_some hspan, List.map_cons, Span.pack, Nat.zero_add, if_pos hbits]
    exact congrArg _ hpacked

end Windowed

end Op

/-- The reads of a run, seen from its start. -/
theorem Block.Run.windowed {block : Block Op} {front run rest : List Op}
    (h : block.Run front run rest) (hblock : block.Placed) : Op.Windowed [] (run ++ rest) :=
  h.of_block (motive := Op.Windowed []) hblock.windowed
    fun _ _ _ hop hwindowed => hwindowed.behind_move hop

namespace Codec

variable {schema : Schema} {options : Options} {codec : Codec}

/-- Blocks of a compiled codec's program. -/
theorem placed_block (h : compile schema options = .ok codec) {block : Block Op}
    (hblock : codec.program.HasBlock block) : block.Placed := by
  obtain ⟨_, _, hprogram⟩ := compile_eq_ok h
  rw [hprogram] at hblock
  exact (wellFormed_shape h).placed_block schema.name hblock

/-- A run begins in a window of its own. Each further read of it opens one if it needs one,
at its first byte, and is in the window of the read before it otherwise. Numbers alone are
packed greedily. -/
theorem windows_open_as_needed (h : compile schema options = .ok codec)
    {block : Block Op} {front run rest : List Op} (hblock : codec.program.HasBlock block)
    (hrun : block.Run front run rest) :
    (∀ op ∈ run.head?, ∃ span, op.span? = some span ∧ span.offset = 0 ∧ span.position = 0) ∧
    (∀ reads before op after, run = reads ++ before :: op :: after →
      ∃ last span, before.span? = some last ∧ op.span? = some span ∧
        (span.Opens last ↔ Op.NeedsWindow (reads ++ [before]) last op span) ∧
        (span.offset = last.offset ↔ ¬ Op.NeedsWindow (reads ++ [before]) last op span)) ∧
    ((∀ op ∈ run, op.IsNumber) →
      run.filterMap Op.span? = Span.pack 0 0 ((run.filterMap Op.span?).map Span.bits)) := by
  have hwindowed := hrun.windowed (placed_block h hblock)
  refine ⟨?_, ?_, hwindowed.packed⟩
  · intro op hop
    obtain ⟨others, rfl⟩ := List.head?_eq_some_iff.mp hop
    obtain ⟨span, hspan⟩ := hrun.reads op (by simp)
    exact ⟨span, hspan, (hwindowed.opensAsNeeded hspan).1.first rfl⟩
  · rintro reads before op after rfl
    obtain ⟨last, hlast⟩ := hrun.reads before (by simp)
    obtain ⟨span, hspan⟩ := hrun.reads op (by simp)
    have hsplit : Op.Windowed [] ((reads ++ [before]) ++ (op :: (after ++ rest))) := by
      simpa using hwindowed
    have hbehind := hsplit.behind_reads
      fun other hmem => hrun.reads other (by simp at hmem ⊢; tauto)
    rw [List.nil_append] at hbehind
    exact ⟨last, span, hlast, hspan, (hbehind.opensAsNeeded hspan).1.opens_iff hlast⟩

/-- A key that has no room behind an address opens a window, and so does the count behind
the key, which had room. Two numbers fill a window, and a third opens the next. -/
theorem windows_of_key_and_full_word :
    (∃ codec, compile ⟨"r", "tuple", [⟨"who", "address", []⟩, ⟨"key", "bytes16", []⟩,
        ⟨"count", "uint64", []⟩]⟩ {} = .ok codec ∧
      ∃ who key count, codec.program.body = ⟨[who, key, count], 44⟩ ∧
        key.span? = some ⟨20, 0, 128⟩ ∧
        (Span.Opens ⟨20, 0, 128⟩ ⟨0, 0, 160⟩ ↔
          Op.NeedsWindow [who] ⟨0, 0, 160⟩ key ⟨20, 0, 128⟩) ∧
        count.span? = some ⟨36, 0, 64⟩ ∧ Span.used ⟨20, 0, 128⟩ + 64 ≤ 256 ∧
        Op.NeedsWindow [who, key] ⟨20, 0, 128⟩ count ⟨36, 0, 64⟩) ∧
    ∃ codec, compile ⟨"r", "tuple", [⟨"a", "uint128", []⟩, ⟨"b", "uint128", []⟩,
        ⟨"c", "uint8", []⟩]⟩ {} = .ok codec ∧
      codec.program.body.ops.filterMap Op.span? = Span.pack 0 0 [128, 128, 8] ∧
      Span.pack 0 0 [128, 128, 8] = [⟨0, 0, 128⟩, ⟨0, 128, 128⟩, ⟨32, 0, 8⟩] := by
  constructor
  · let who : Op := .primitive .address ⟨"who", 0, 0, 96, 160⟩
    let key : Op := .fixedBytes ⟨"key", 1, 20, 0, 128⟩
    let count : Op := .primitive (.uint 64) ⟨"count", 2, 36, 192, 64⟩
    let shape : Shape := .tuple [("who", .leaf (.primitive .address)),
      ("key", .leaf (.fixedBytes 16)), ("count", .leaf (.primitive (.uint 64)))]
    have hprogram : shape.program "r" = ⟨"r", .tuple, ⟨[who, key, count], 44⟩⟩ := by cbv
    have hcodec : compile ⟨"r", "tuple", [⟨"who", "address", []⟩, ⟨"key", "bytes16", []⟩,
        ⟨"count", "uint64", []⟩]⟩ {} = .ok ⟨"r", shape,
          [⟨"R", [⟨"who", "address"⟩, ⟨"key", "bytes16"⟩, ⟨"count", "uint64"⟩]⟩],
          shape.program "r"⟩ := rfl
    rw [hprogram] at hcodec
    have hrun : Block.Run ⟨[who, key, count], 44⟩ [] [who, key, count] [] :=
      ⟨rfl, by simp [who, key, count, Op.span?], by simp, by simp⟩
    obtain ⟨_, hbehind, _⟩ := windows_open_as_needed hcodec (.inl rfl) hrun
    obtain ⟨_, _, hwho, hkey, hopens, _⟩ := hbehind [] who key [count] rfl
    obtain ⟨_, _, hlast, hcount, hneeds, _⟩ := hbehind [who] key count [] rfl
    cases hwho
    cases hkey
    cases hlast
    cases hcount
    exact ⟨_, hcodec, who, key, count, rfl, rfl, hopens, rfl, by decide,
      hneeds.mp ⟨by decide, rfl⟩⟩
  · let a : Op := .primitive (.uint 128) ⟨"a", 0, 0, 128, 128⟩
    let b : Op := .primitive (.uint 128) ⟨"b", 1, 0, 0, 128⟩
    let c : Op := .primitive (.uint 8) ⟨"c", 2, 32, 248, 8⟩
    let shape : Shape := .tuple [("a", .leaf (.primitive (.uint 128))),
      ("b", .leaf (.primitive (.uint 128))), ("c", .leaf (.primitive (.uint 8)))]
    have hprogram : shape.program "r" = ⟨"r", .tuple, ⟨[a, b, c], 33⟩⟩ := by cbv
    have hcodec : compile ⟨"r", "tuple", [⟨"a", "uint128", []⟩, ⟨"b", "uint128", []⟩,
        ⟨"c", "uint8", []⟩]⟩ {} = .ok ⟨"r", shape,
          [⟨"R", [⟨"a", "uint128"⟩, ⟨"b", "uint128"⟩, ⟨"c", "uint8"⟩]⟩],
          shape.program "r"⟩ := rfl
    rw [hprogram] at hcodec
    have hrun : Block.Run ⟨[a, b, c], 33⟩ [] [a, b, c] [] :=
      ⟨rfl, by simp [a, b, c, Op.span?], by simp, by simp⟩
    obtain ⟨_, _, hpacked⟩ := windows_open_as_needed hcodec (.inl rfl) hrun
    exact ⟨_, hcodec, hpacked (by simp [a, b, c, Op.IsNumber]), by decide⟩

end Codec

end RecordCodec
