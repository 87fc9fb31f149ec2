import RecordCodec.Proofs.Program.Operation

/-!
# Compiled fields read what they say

Running the operation of a field yields the value that the field reads. Word reads
leave the cursor behind, at the start of their run, and the window behind the
operation still holds the bytes by which it lags. Moving operations and the end of
a scope make up for them, so a whole scope ends where its fields do, with the same
value or the same error.
-/

namespace RecordCodec

namespace Field

theorem compileFrom_cons (field : Field) (fields : List Field) (slot : Nat)
    (window : Layout.Window) :
    compileFrom (field :: fields) slot window =
      ((field.compile slot window).1 ::
          (compileFrom fields (slot + 1) (field.compile slot window).2).1,
        (compileFrom fields (slot + 1) (field.compile slot window).2).2) := by
  rw [compileFrom]

/-- The leaf of a field has a width that fits a word, and its number lies inside one. -/
def Placed (field : Field) : Prop :=
  match field.kind with
  | .leaf (.primitive type) => type.WellFormed ∧ ∀ shift, field.shift = some shift → 0 ≤ shift
  | .leaf type => type.WellFormed
  | _ => True

inductive Readable : Field → Prop
  | intro {field : Field} (hplaced : field.Placed)
      (hcomponents : ∀ component ∈ field.components, Readable component) : Readable field

theorem Readable.placed {field : Field} (h : field.Readable) : field.Placed := by
  obtain ⟨hplaced, _⟩ := h
  exact hplaced

theorem Placed.primitive {field : Field} (h : field.Placed) {type : Primitive}
    (hkind : field.kind = .leaf (.primitive type)) : type.WellFormed := by
  unfold Placed at h
  rw [hkind] at h
  exact h.1

theorem Placed.fixedBytes {field : Field} (h : field.Placed) {size : Nat}
    (hkind : field.kind = .leaf (.fixedBytes size)) : 0 < size ∧ size ≤ 32 := by
  unfold Placed at h
  rw [hkind] at h
  exact h

theorem Readable.components {field : Field} (h : field.Readable) :
    ∀ component ∈ field.components, component.Readable := by
  obtain ⟨_, hcomponents⟩ := h
  exact hcomponents

/-- An operation yields what a field reads, or its error, and leaves the cursor behind
by the bytes of the run that the next window holds. -/
def RunsAs (data : Bytes) (field : Field) (window : Layout.Window)
    (compiled : Op × Layout.Window) : Prop :=
  ∀ ⦃cursor⦄, window.runBytes ≤ Input.remaining data cursor →
    match field.read data (cursor + window.runBytes) with
    | .ok (value, after) => ∃ start, compiled.1.run data cursor = .ok (value, start) ∧
        start + compiled.2.runBytes = after ∧
        compiled.2.runBytes ≤ Input.remaining data start
    | .error error => compiled.1.run data cursor = .error error

/-- Compiling a field keeps windows sound, and its operation runs as the field reads. -/
def Compiles (data : Bytes) (field : Field) : Prop :=
  ∀ (slot : Nat) ⦃window : Layout.Window⦄, window.Sound →
    (field.compile slot window).2.Sound ∧ RunsAs data field window (field.compile slot window)

/-- A scope ends where its fields do, with the same values or the same error. -/
theorem runAll_compileFrom {data : Bytes} {fields : List Field}
    (h : ∀ field ∈ fields, Compiles data field) (slot : Nat) {window : Layout.Window}
    (hwindow : window.Sound) {cursor : Nat}
    (hcursor : window.runBytes ≤ Input.remaining data cursor) :
    Op.runAll data (compileFrom fields slot window).1 (compileFrom fields slot window).2.runBytes
        cursor =
      readAll data fields (cursor + window.runBytes) := by
  induction fields generalizing slot window cursor with
  | nil =>
    rw [compileFrom, readAll]
    exact Op.runAll_nil hcursor
  | cons field fields ih =>
    obtain ⟨hnext, hrun⟩ := h field (by simp) slot hwindow
    have hfield := hrun hcursor
    rw [compileFrom_cons, Op.runAll, readAll]
    cases hread : field.read data (cursor + window.runBytes) with
    | error error =>
      rw [hread] at hfield
      rw [hfield]
      rfl
    | ok result =>
      obtain ⟨value, after⟩ := result
      rw [hread] at hfield
      obtain ⟨start, hop, hafter, hstart⟩ := hfield
      have hrest := ih (fun other hmem => h other (by simp [hmem])) (slot + 1) hnext hstart
      rw [hop, Outcome.ok_bind, Outcome.ok_bind]
      dsimp only
      rw [hrest, hafter]

/-- A scope of its own starts at the cursor, with nothing pending. -/
theorem runAll_scope {data : Bytes} {fields : List Field}
    (h : ∀ field ∈ fields, Compiles data field) (cursor : Nat) :
    Op.runAll data (compileFrom fields 0 {}).1 (compileFrom fields 0 {}).2.runBytes cursor =
      readAll data fields cursor :=
  runAll_compileFrom h 0 .empty (Nat.zero_le (Input.remaining data cursor))

theorem runsAs_of_moving {data : Bytes} {field : Field} {window : Layout.Window} {op : Op}
    (h : ∀ cursor, window.runBytes ≤ Input.remaining data cursor →
      op.run data cursor = field.read data (cursor + window.runBytes)) :
    RunsAs data field window (op, {}) := by
  intro cursor hcursor
  have hop := h cursor hcursor
  split
  · rename_i value after hread
    exact ⟨after, hop.trans hread, by simp, by simp⟩
  · rename_i error hread
    exact hop.trans hread

theorem runsAs_of_fixed {data : Bytes} {field : Field} {window next : Layout.Window} {op : Op}
    {width : Nat} {value : Bytes → Value}
    (hread : ∀ cursor, field.read data cursor = do
      let (bytes, cursor) ← Input.take data cursor width
      return (value bytes, cursor))
    (hop : ∀ cursor, op.run data cursor = do
      let (bytes, _) ← Input.take data (cursor + window.runBytes) width
      return (value bytes, cursor))
    (hnext : next.runBytes = window.runBytes + width) :
    RunsAs data field window (op, next) := by
  intro cursor hcursor
  rw [hread, hop, Input.take]
  by_cases hinput : cursor + window.runBytes + width ≤ data.length
  · rw [Input.takeOr_of_le hinput]
    refine ⟨cursor, rfl, ?_, ?_⟩
    · rw [hnext, Nat.add_assoc]
    · apply (Input.le_remaining_iff (by omega)).mpr
      change cursor + next.runBytes ≤ data.length
      omega
  · rw [Input.takeOr_of_not_le hinput]
    rfl

/-- Only leaves of a fixed width are read as elements, at the end of a word that their
kind asks for. -/
theorem elementRead?_eq_some {element : Field} {read : ElementRead}
    (h : element.elementRead? = some read) :
    (∃ type, element.kind = .leaf (.primitive type) ∧
      read = ⟨.primitive type, type.bitSize / 8, 256 - type.bitSize, type.bitSize⟩) ∨
    ∃ size, element.kind = .leaf (.fixedBytes size) ∧
      read = ⟨.fixedBytes size, size, 0, 8 * size⟩ := by
  rw [elementRead?] at h
  split at h
  · rename_i type hkind
    cases h
    exact .inl ⟨type, hkind, rfl⟩
  · rename_i size hkind
    cases h
    exact .inr ⟨size, hkind, rfl⟩
  · cases h

theorem read_element {data : Bytes} {element : Field} {read : ElementRead}
    (hplaced : element.Placed) (hread : element.elementRead? = some read) {cursor offset : Nat}
    (hinput : cursor + offset + read.stride ≤ data.length) :
    ∃ value, read.leaf.read data cursor offset read.shift read.bits = .ok value ∧
      element.read data (cursor + offset) = .ok (value, cursor + offset + read.stride) := by
  have hlength := Bytes.length_slice hinput
  rcases elementRead?_eq_some hread with ⟨type, hkind, rfl⟩ | ⟨size, hkind, rfl⟩
  · obtain ⟨name, kind, extraLevels, shift, components⟩ := element
    cases hkind
    obtain ⟨⟨hpos, hbits, hle⟩, _⟩ := hplaced
    dsimp only at hinput hlength ⊢
    have hstart : cursor + offset + (256 - (256 - type.bitSize) - type.bitSize) / 8 =
        cursor + offset := by omega
    refine ⟨type.ofBytes (data.slice (cursor + offset) (type.bitSize / 8)), ?_, ?_⟩
    · rw [ElementKind.read, Input.readNumber_eq data cursor offset (by omega) hbits (by omega)]
      dsimp only
      rw [hstart, if_pos hinput, Outcome.ok_bind,
        Primitive.value_rightAligned ⟨hpos, hbits, hle⟩ hlength]
      rfl
    · rw [Field.read, Leaf.read, Input.take, Input.takeOr_of_le hinput]
      rfl
  · obtain ⟨name, kind, extraLevels, shift, components⟩ := element
    cases hkind
    obtain ⟨hpos, hle⟩ := hplaced
    dsimp only at hinput hlength ⊢
    have hsize : 8 * size / 8 = size := by omega
    refine ⟨.fixedBytes (data.slice (cursor + offset) size), ?_, ?_⟩
    · rw [ElementKind.read, Input.readBytes_eq data cursor offset (by omega) (by omega) (by omega)]
      dsimp only
      rw [Nat.zero_div, Nat.add_zero, hsize, if_pos hinput, Outcome.ok_bind]
      have htake := Word.take_toBytes_leftAligned (Nat.le_trans (Nat.le_of_eq hlength) hle)
      rw [hlength] at htake
      exact congrArg (fun field => Except.ok (Value.fixedBytes field)) htake
    · rw [Field.read, Leaf.read, Input.take, Input.takeOr_of_le hinput]
      rfl

/-- The operation of an array over elements of a width is a loop over them. -/
theorem run_elements {data : Bytes} {element : Field} {read : ElementRead}
    (hplaced : element.Placed) (hread : element.elementRead? = some read) (entry : Entry)
    {cursor : Nat} (hskip : entry.skip ≤ Input.remaining data cursor) :
    (Op.lengthPrefixed entry (.elements read)).run data cursor =
      readLoop data entry.name read.stride (readOne (element.read data)) (cursor + entry.skip) := by
  rw [Op.run_lengthPrefixed hskip, readLoop]
  cases hcount : Input.count data (cursor + entry.skip) with
  | error error => rfl
  | ok header =>
    obtain ⟨count, start⟩ := header
    have hstart := Input.le_of_count_eq_ok hcount
    rw [Outcome.ok_bind, Outcome.ok_bind]
    dsimp only
    by_cases hsize : count * read.stride ≤ Input.remaining data start
    · have hinput := (Input.le_remaining_iff hstart).mp hsize
      have hpayload : (Payload.elements read).size count ≤ Input.remaining data start := hsize
      obtain ⟨values, hvalues, hrepeat⟩ := ElementRead.readFrom_eq
        (fun offset h => read_element hplaced hread h) count 0 (by omega)
      rw [Nat.add_zero] at hrepeat
      rw [Payload.run_of_le hpayload, if_pos hsize, Payload.read, hvalues, hrepeat]
      rfl
    · have hpayload : ¬ (Payload.elements read).size count ≤ Input.remaining data start := hsize
      rw [Payload.run_of_not_le hpayload, if_neg hsize]

section Step

variable {data : Bytes} {name : String} {extraLevels : Nat} {shift : Option Int}
variable {components : List Field}

theorem compiles_primitive {type : Primitive} (htype : type.WellFormed)
    (hshift : ∀ s, shift = some s → 0 ≤ s) :
    Compiles data ⟨name, .leaf (.primitive type), extraLevels, shift, components⟩ := by
  intro slot window hwindow
  obtain ⟨hpos, hbits, hle⟩ := htype
  obtain ⟨hsound, hrun, hfit⟩ := hwindow.forNumber hle hshift
  rw [compile]
  refine ⟨hsound.take hbits hfit, runsAs_of_fixed (fun _ => rfl) ?_ ?_⟩
  · intro cursor
    rw [Op.run, hsound.readNumber_eq data cursor hbits hfit, hrun, Input.take]
    by_cases hinput : cursor + window.runBytes + type.bitSize / 8 ≤ data.length
    · rw [Input.takeOr_of_le hinput]
      simp [Primitive.value_rightAligned ⟨hpos, hbits, hle⟩ (Bytes.length_slice hinput)]
    · rw [Input.takeOr_of_not_le hinput]
      rfl
  · rw [hsound.runBytes_take hbits, hrun]

theorem compiles_fixedBytes {size : Nat} (hsize : size ≤ 32) :
    Compiles data ⟨name, .leaf (.fixedBytes size), extraLevels, shift, components⟩ := by
  intro slot window hwindow
  have hbits : 8 ∣ 8 * size := Nat.dvd_mul_right 8 size
  have hwidth : 8 * size / 8 = size := by omega
  have hle : 8 * size ≤ 256 := by omega
  obtain ⟨hsound, hrun, hfit⟩ := hwindow.forBytes hle
  rw [compile]
  refine ⟨hsound.take hbits hfit, runsAs_of_fixed (fun _ => rfl) ?_ ?_⟩
  · intro cursor
    rw [Op.run, hsound.readBytes_eq data cursor hbits hfit, hrun, hwidth, Input.take]
    by_cases hinput : cursor + window.runBytes + size ≤ data.length
    · have hlength := Bytes.length_slice hinput
      have htake := Word.take_toBytes_leftAligned (Nat.le_trans (Nat.le_of_eq hlength) hsize)
      rw [hlength] at htake
      rw [Input.takeOr_of_le hinput]
      simp [htake]
    · rw [Input.takeOr_of_not_le hinput]
      rfl
  · rw [hsound.runBytes_take hbits, hrun, hwidth]

theorem compiles_bytes : Compiles data ⟨name, .leaf .bytes, extraLevels, shift, components⟩ := by
  intro slot window hwindow
  rw [compile]
  refine ⟨.empty, runsAs_of_moving ?_⟩
  intro cursor hcursor
  have hskip : (Entry.mk name slot window.runBytes).skip ≤ Input.remaining data cursor := hcursor
  exact Op.run_content .bytes (fun bytes => .ok (.bytes bytes)) (fun _ => rfl)
    (fun _ _ => rfl) hskip

theorem compiles_string : Compiles data ⟨name, .leaf .string, extraLevels, shift, components⟩ := by
  intro slot window hwindow
  rw [compile]
  refine ⟨.empty, runsAs_of_moving ?_⟩
  intro cursor hcursor
  have hskip : (Entry.mk name slot window.runBytes).skip ≤ Input.remaining data cursor := hcursor
  exact Op.run_content .text (Text.read name) (fun _ => rfl) (fun _ _ => rfl) hskip

theorem compiles_tuple (h : ∀ component ∈ components, Compiles data component) :
    Compiles data ⟨name, .tuple, extraLevels, shift, components⟩ := by
  intro slot window hwindow
  rw [compile]
  refine ⟨.empty, runsAs_of_moving ?_⟩
  intro cursor hcursor
  rw [Op.run, Input.move_of_le_remaining hcursor, Outcome.ok_bind, runAll_scope h, read]

theorem compiles_fixedArray {size : Nat} (h : ∀ component ∈ components, Compiles data component) :
    Compiles data ⟨name, .fixedArray size, extraLevels, shift, components⟩ := by
  intro slot window hwindow
  rw [compile]
  refine ⟨.empty, runsAs_of_moving ?_⟩
  intro cursor hcursor
  rw [Op.run, Input.move_of_le_remaining hcursor, Outcome.ok_bind, runAll_scope h, read]

/-- The innermost loop of a dynamic array, whether or not its elements have a width. -/
theorem run_compileElement (hplaced : ∀ component ∈ components, component.Placed)
    (h : ∀ component ∈ components, Compiles data component) (entry : Entry) {cursor : Nat}
    (hskip : entry.skip ≤ Input.remaining data cursor) :
    (compileElement components entry).run data cursor =
      readArray data components entry.name (cursor + entry.skip) := by
  cases components with
  | nil =>
    rw [compileElement, Op.run_loop hskip, readArray]
    rfl
  | cons element others =>
    rw [compileElement, readArray, unit]
    cases hread : element.elementRead? with
    | some read => exact run_elements (hplaced element (by simp)) hread entry hskip
    | none =>
      have hbody : Op.runAll data [(element.compile 0 {}).1] (element.compile 0 {}).2.runBytes =
          readOne (element.read data) := by
        have helement : ∀ field ∈ [element], Compiles data field := by
          intro field hmem
          exact h field (by rw [List.mem_singleton.mp hmem]; simp)
        funext cursor
        have hscope := runAll_scope helement cursor
        rw [compileFrom_cons, compileFrom] at hscope
        exact hscope
      exact (Op.run_loop hskip).trans (by rw [hbody])

theorem compiles_dynamicArray (hplaced : ∀ component ∈ components, component.Placed)
    (h : ∀ component ∈ components, Compiles data component) :
    Compiles data ⟨name, .dynamicArray, extraLevels, shift, components⟩ := by
  intro slot window hwindow
  rw [compile]
  refine ⟨.empty, runsAs_of_moving ?_⟩
  intro cursor hcursor
  exact Op.run_counted (fun entry cursor => run_compileElement hplaced h entry) extraLevels
    ⟨name, slot, window.runBytes⟩ hcursor

end Step

/-- Every readable field compiles to an operation that runs as the field reads. -/
theorem Readable.compiles {field : Field} (hfield : field.Readable) (data : Bytes) :
    Compiles data field := by
  induction hfield with
  | @intro field hplaced hcomponents ih =>
    obtain ⟨name, kind, extraLevels, shift, components⟩ := field
    cases kind with
    | leaf type =>
      cases type with
      | primitive type => exact compiles_primitive hplaced.1 hplaced.2
      | fixedBytes size => exact compiles_fixedBytes hplaced.2
      | bytes => exact compiles_bytes
      | string => exact compiles_string
    | tuple => exact compiles_tuple ih
    | fixedArray size => exact compiles_fixedArray ih
    | dynamicArray =>
      refine compiles_dynamicArray ?_ ih
      intro component hmem
      obtain ⟨hplaced, _⟩ := hcomponents component hmem
      exact hplaced

/-- A scope that stands for one value of its own. -/
theorem compileScope_run {data : Bytes} {fields : List Field}
    (h : ∀ field ∈ fields, field.Readable) (cursor : Nat) :
    (compileScope fields).run data cursor = readAll data fields cursor :=
  runAll_scope (fun field hmem => (h field hmem).compiles data) cursor

theorem run_single {data : Bytes} {name : String} {block : Block Op}
    (read : Nat → Except ReadError (Value × Nat)) (h : block.run data 0 = readOne read 0) :
    (Program.mk name .single block).run data = do
      let (value, consumed) ← read 0
      return ⟨value, consumed⟩ := by
  rw [Program.run, h, readOne]
  cases read 0 <;> rfl

/-- The program of a root runs as the root reads. -/
theorem Readable.run_ofRoot {root : Field} (hroot : root.Readable) (name : String) (data : Bytes) :
    (Program.ofRoot root name).run data = do
      let (value, consumed) ← root.readRoot data name
      return ⟨value, consumed⟩ := by
  have hcomponents := hroot.components
  unfold Program.ofRoot readRoot
  split
  · rename_i hkind
    obtain ⟨_, kind, _, _, components⟩ := root
    change kind = .tuple at hkind
    subst hkind
    change (compileScope components).run data 0 >>= _ = _
    rw [compileScope_run hcomponents, read]
    cases readAll data components 0 <;> rfl
  · rename_i hkind hlevels
    have hskip : (Entry.mk name 0 0).skip ≤ Input.remaining data 0 := Nat.zero_le _
    have hbody : Op.runAll data (compileScope root.components).ops
        (compileScope root.components).tail = readAll data root.components := by
      funext cursor
      exact compileScope_run hcomponents cursor
    have hblock : Op.runAll data
        [.nested ⟨name, 0, 0⟩ .dynamicArray (compileScope root.components)] 0 0 =
          readOne (readLoop data name 1 (readAll data root.components)) 0 := by
      rw [Op.runAll_singleton, readOne, readOne, ← hbody]
      exact congrArg (· >>= _) (Op.run_loop hskip)
    rw [hkind, hlevels]
    exact run_single (readLoop data name 1 (readAll data root.components)) hblock
  · rename_i hnotTuple hnotLoop
    have hsingle : ∀ field ∈ [root], field.Readable := List.forall_mem_singleton.mpr hroot
    split
    · rename_i hkind hlevels
      exact absurd hlevels (hnotLoop hkind)
    · exact run_single (root.read data) ((compileScope_run hsingle 0).trans rfl)

end Field

end RecordCodec
