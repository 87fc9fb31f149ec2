import RecordCodec.Proofs.Program.Shape

/-!
# Moves of the cursor

A run moves its cursor by skips, behind headers and payloads, and by tails. Every move
is checked against the end of the input. The traced run is the run with a list of the
moves it tries: forgetting the list leaves the run itself.

In a compiled program these checks never fail. A skip or a tail moves over a run whose
last leaf has been read already, a header is read before it is moved over, and the size
of a payload is compared with the rest of the input before anything of it is read.
-/

namespace RecordCodec

/-- A move over `length` bytes that is tried at the cursor `start`. -/
structure Move where
  start : Nat
  length : Nat
  deriving DecidableEq, Repr

/-- The move is not stopped by the end of the input. -/
def Move.Succeeds (data : Bytes) (move : Move) : Prop :=
  Input.move data move.start move.length = .ok (move.start + move.length)

/-- The outcome of a run and the moves it has tried, in order. -/
structure Traced (α : Type) where
  moves : List Move
  outcome : Except ReadError α

namespace Traced

variable {α β : Type} {data : Bytes}

/-- A step that leaves the cursor where it is. -/
def still (outcome : Except ReadError α) : Traced α := ⟨[], outcome⟩

def move (data : Bytes) (cursor n : Nat) : Traced Nat :=
  ⟨[⟨cursor, n⟩], Input.move data cursor n⟩

/-- Continues a run that has not failed, with its moves in front. -/
def andThen (x : Traced α) (f : α → Traced β) : Traced β :=
  match x.outcome with
  | .ok a => ⟨x.moves ++ (f a).moves, (f a).outcome⟩
  | .error error => ⟨x.moves, .error error⟩

instance : Monad Traced where
  pure a := still (.ok a)
  bind := andThen

@[simp] theorem outcome_pure (a : α) : (pure a : Traced α).outcome = .ok a := rfl

@[simp] theorem outcome_still (outcome : Except ReadError α) : (still outcome).outcome = outcome :=
  rfl

@[simp] theorem outcome_move (cursor n : Nat) :
    (move data cursor n).outcome = Input.move data cursor n := rfl

@[simp] theorem outcome_bind (x : Traced α) (f : α → Traced β) :
    (x >>= f).outcome = x.outcome >>= fun a => (f a).outcome := by
  obtain ⟨moves, outcome⟩ := x
  cases outcome <;> rfl

/-- No move fails. -/
def Inside (data : Bytes) (x : Traced α) : Prop := ∀ move ∈ x.moves, move.Succeeds data

theorem inside_still (outcome : Except ReadError α) : (still outcome).Inside data := by
  intro move hmem
  cases hmem

theorem inside_pure (a : α) : (pure a : Traced α).Inside data := inside_still _

theorem inside_move {cursor n : Nat} (h : n ≤ Input.remaining data cursor) :
    (move data cursor n).Inside data :=
  List.forall_mem_singleton.mpr (Input.move_of_le_remaining h)

/-- What follows has to be looked at only where the run gets that far. -/
theorem Inside.bind {x : Traced α} {f : α → Traced β} (h : x.Inside data)
    (hnext : ∀ a, x.outcome = .ok a → (f a).Inside data) : (x >>= f).Inside data := by
  obtain ⟨moves, outcome⟩ := x
  cases outcome with
  | error error => exact h
  | ok a =>
    intro move hmem
    rcases List.mem_append.mp hmem with hmem | hmem
    · exact h move hmem
    · exact hnext a rfl move hmem

end Traced

namespace Input

def traceHeader (data : Bytes) (cursor : Nat) : Traced (Nat × Nat) := do
  let field ← Traced.still (readNumber data cursor 0 224 32)
  let cursor ← Traced.move data cursor 4
  return (field.toNat, cursor)

end Input

namespace Payload

def trace (data : Bytes) (name : String) (count cursor : Nat) (payload : Payload) :
    Traced (Value × Nat) :=
  if payload.size count ≤ Input.remaining data cursor then do
    let value ← Traced.still (payload.read data name count cursor)
    let cursor ← Traced.move data cursor (payload.size count)
    return (value, cursor)
  else Traced.still (.error (.lengthOverflow name count))

end Payload

namespace Op

def repeatTrace (body : Nat → Traced (List Value × Nat)) :
    (count cursor : Nat) → Traced (List Value × Nat)
  | 0, cursor => pure ([], cursor)
  | count + 1, cursor => do
    let (first, cursor) ← body cursor
    let (rest, cursor) ← repeatTrace body count cursor
    return (first ++ rest, cursor)

mutual

/-- Runs an operation and lists the moves it tries. -/
def trace (data : Bytes) : Op → (cursor : Nat) → Traced (Value × Nat)
  | .primitive type read, cursor => do
    let field ← Traced.still (Input.readNumber data cursor read.offset read.shift read.bits)
    return (type.value field, cursor)
  | .fixedBytes read, cursor => do
    let field ← Traced.still (Input.readBytes data cursor read.offset read.shift read.bits)
    return (.fixedBytes (field.toBytes.take (read.bits / 8)), cursor)
  | .lengthPrefixed entry payload, cursor => do
    let cursor ← Traced.move data cursor entry.skip
    let (count, cursor) ← Input.traceHeader data cursor
    payload.trace data entry.name count cursor
  | .nested entry .tuple ⟨ops, tail⟩, cursor => do
    let cursor ← Traced.move data cursor entry.skip
    let (values, cursor) ← traceAll data ops tail cursor
    return (.tuple values, cursor)
  | .nested entry (.fixedArray _) ⟨ops, tail⟩, cursor => do
    let cursor ← Traced.move data cursor entry.skip
    let (values, cursor) ← traceAll data ops tail cursor
    return (.array values, cursor)
  | .nested entry .dynamicArray ⟨ops, tail⟩, cursor => do
    let cursor ← Traced.move data cursor entry.skip
    let (count, cursor) ← Input.traceHeader data cursor
    if count ≤ Input.remaining data cursor then
      let (values, cursor) ← repeatTrace (traceAll data ops tail) count cursor
      return (.array values, cursor)
    else Traced.still (.error (.lengthOverflow entry.name count))

def traceAll (data : Bytes) : List Op → (tail cursor : Nat) → Traced (List Value × Nat)
  | [], tail, cursor => do
    let cursor ← Traced.move data cursor tail
    return ([], cursor)
  | op :: ops, tail, cursor => do
    let (value, cursor) ← op.trace data cursor
    let (values, cursor) ← traceAll data ops tail cursor
    return (value :: values, cursor)

end

end Op

namespace Program

/-- The moves that a program tries on an input. -/
def trace (program : Program) (data : Bytes) : Traced Decoded := do
  let (values, consumed) ← Op.traceAll data program.body.ops program.body.tail 0
  return ⟨program.root.assemble values, consumed⟩

end Program

@[simp] theorem Input.outcome_traceHeader (data : Bytes) (cursor : Nat) :
    (traceHeader data cursor).outcome = readHeader data cursor := by
  simp [traceHeader, readHeader]

@[simp] theorem Payload.outcome_trace (data : Bytes) (name : String) (count cursor : Nat)
    (payload : Payload) :
    (payload.trace data name count cursor).outcome = payload.run data name count cursor := by
  rw [trace, run]
  split
  · simp
  · rfl

namespace Op

theorem outcome_repeatTrace {body : Nat → Traced (List Value × Nat)}
    {run : Nat → Except ReadError (List Value × Nat)}
    (h : ∀ cursor, (body cursor).outcome = run cursor) (count cursor : Nat) :
    (repeatTrace body count cursor).outcome = repeatRun run count cursor := by
  induction count generalizing cursor with
  | zero => rfl
  | succ count ih => simp [repeatTrace, repeatRun, h, ih]

mutual

@[simp] theorem outcome_trace (data : Bytes) : (op : Op) → (cursor : Nat) →
    (op.trace data cursor).outcome = op.run data cursor
  | .primitive type read, cursor => by simp [trace, run]
  | .fixedBytes read, cursor => by simp [trace, run]
  | .lengthPrefixed entry payload, cursor => by simp [trace, run]
  | .nested entry .tuple ⟨ops, tail⟩, cursor => by
    simp [trace, run, outcome_traceAll data ops tail]
  | .nested entry (.fixedArray _) ⟨ops, tail⟩, cursor => by
    simp [trace, run, outcome_traceAll data ops tail]
  | .nested entry .dynamicArray ⟨ops, tail⟩, cursor => by
    have hloop := outcome_repeatTrace (outcome_traceAll data ops tail)
    rw [trace, run, Traced.outcome_bind, Traced.outcome_move]
    congr 1
    funext cursor
    rw [Traced.outcome_bind, Input.outcome_traceHeader]
    congr 1
    funext ⟨count, cursor⟩
    dsimp only
    split
    · simp [hloop]
    · rfl

theorem outcome_traceAll (data : Bytes) : (ops : List Op) → (tail cursor : Nat) →
    (traceAll data ops tail cursor).outcome = runAll data ops tail cursor
  | [], tail, cursor => by simp [traceAll, runAll]
  | op :: ops, tail, cursor => by
    simp [traceAll, runAll, outcome_trace data op, outcome_traceAll data ops tail]

end

end Op

/-- The outcome of a traced run is that of the run. -/
theorem Program.outcome_trace (program : Program) (data : Bytes) :
    (program.trace data).outcome = program.run data := by
  simp [trace, run, Block.run, Op.outcome_traceAll]

theorem Input.inside_traceHeader (data : Bytes) (cursor : Nat) :
    (traceHeader data cursor).Inside data := by
  refine (Traced.inside_still _).bind ?_
  intro field hfield
  have hheader : cursor + 4 ≤ data.length := by
    rw [Traced.outcome_still,
      readNumber_eq data cursor 0 (by decide) (by decide) (by decide)] at hfield
    exact (Outcome.check_eq_ok.mp hfield).1
  have hmove : 4 ≤ remaining data cursor := (le_remaining_iff (by omega)).mpr hheader
  exact (Traced.inside_move hmove).bind fun _ _ => Traced.inside_pure _

theorem Payload.inside_trace (data : Bytes) (name : String) (count cursor : Nat)
    (payload : Payload) : (payload.trace data name count cursor).Inside data := by
  rw [trace]
  split
  · rename_i hsize
    refine (Traced.inside_still _).bind ?_
    intro value _
    exact (Traced.inside_move hsize).bind fun _ _ => Traced.inside_pure _
  · exact Traced.inside_still _

namespace Op

variable {data : Bytes} {cursor : Nat}

theorem inside_repeatTrace {body : Nat → Traced (List Value × Nat)}
    (h : ∀ cursor, (body cursor).Inside data) (count cursor : Nat) :
    (repeatTrace body count cursor).Inside data := by
  induction count generalizing cursor with
  | zero => exact Traced.inside_pure _
  | succ count ih =>
    refine (h cursor).bind ?_
    intro first _
    exact (ih first.2).bind fun _ _ => Traced.inside_pure _

theorem inside_lengthPrefixed {entry : Entry} (payload : Payload)
    (hskip : entry.skip ≤ Input.remaining data cursor) :
    ((lengthPrefixed entry payload).trace data cursor).Inside data := by
  rw [trace]
  refine (Traced.inside_move hskip).bind ?_
  intro start _
  refine (Input.inside_traceHeader data start).bind ?_
  intro header _
  exact Payload.inside_trace data entry.name header.1 header.2 payload

/-- A block may be entered at any cursor, if no move inside it can fail. -/
theorem inside_nested {entry : Entry} {shape : NestedShape} {ops : List Op} {tail : Nat}
    (hskip : entry.skip ≤ Input.remaining data cursor)
    (hbody : ∀ cursor, (traceAll data ops tail cursor).Inside data) :
    ((nested entry shape ⟨ops, tail⟩).trace data cursor).Inside data := by
  cases shape with
  | tuple =>
    rw [trace]
    refine (Traced.inside_move hskip).bind ?_
    intro start _
    exact (hbody start).bind fun _ _ => Traced.inside_pure _
  | fixedArray size =>
    rw [trace]
    refine (Traced.inside_move hskip).bind ?_
    intro start _
    exact (hbody start).bind fun _ _ => Traced.inside_pure _
  | dynamicArray =>
    rw [trace]
    refine (Traced.inside_move hskip).bind ?_
    intro start _
    refine (Input.inside_traceHeader data start).bind ?_
    intro header _
    dsimp only
    split
    · exact (inside_repeatTrace hbody _ _).bind fun _ _ => Traced.inside_pure _
    · exact Traced.inside_still _

theorem inside_traceAll_nil {tail : Nat} (htail : tail ≤ Input.remaining data cursor) :
    (traceAll data [] tail cursor).Inside data := by
  rw [traceAll]
  exact (Traced.inside_move htail).bind fun _ _ => Traced.inside_pure _

theorem inside_traceAll_cons {op : Op} {ops : List Op} {tail : Nat}
    (hop : (op.trace data cursor).Inside data)
    (hops : ∀ value start, op.run data cursor = .ok (value, start) →
      (traceAll data ops tail start).Inside data) :
    (traceAll data (op :: ops) tail cursor).Inside data := by
  rw [traceAll]
  refine hop.bind ?_
  rintro ⟨value, start⟩ hrun
  rw [outcome_trace] at hrun
  exact (hops value start hrun).bind fun _ _ => Traced.inside_pure _

theorem inside_counted {operation : Entry → Op}
    (h : ∀ entry cursor, entry.skip ≤ Input.remaining data cursor →
      ((operation entry).trace data cursor).Inside data)
    (levels : Nat) (entry : Entry) (hskip : entry.skip ≤ Input.remaining data cursor) :
    ((counted operation levels entry).trace data cursor).Inside data := by
  induction levels generalizing entry cursor with
  | zero => exact h entry cursor hskip
  | succ levels ih =>
    refine inside_nested hskip ?_
    intro start
    exact inside_traceAll_cons (ih _ (Nat.zero_le _))
      fun _ _ _ => inside_traceAll_nil (Nat.zero_le _)

end Op

namespace Field

variable {data : Bytes}

/-- Where the bytes pending before a field are in the input, no move of its operation
fails. -/
def MovesInside (data : Bytes) (field : Field) : Prop :=
  ∀ (slot : Nat) ⦃window : Layout.Window⦄, window.Sound →
    ∀ ⦃cursor⦄, window.runBytes ≤ Input.remaining data cursor →
      ((field.compile slot window).1.trace data cursor).Inside data

/-- What is pending behind an operation has been read by it or before it, so the next
move over it does not fail. -/
theorem inside_compileFrom {fields : List Field} (hread : ∀ field ∈ fields, Compiles data field)
    (h : ∀ field ∈ fields, MovesInside data field) (slot : Nat) {window : Layout.Window}
    (hwindow : window.Sound) {cursor : Nat}
    (hcursor : window.runBytes ≤ Input.remaining data cursor) :
    (Op.traceAll data (compileFrom fields slot window).1
      (compileFrom fields slot window).2.runBytes cursor).Inside data := by
  induction fields generalizing slot window cursor with
  | nil =>
    rw [compileFrom]
    exact Op.inside_traceAll_nil hcursor
  | cons field fields ih =>
    obtain ⟨hnext, hrun⟩ := hread field (by simp) slot hwindow
    have hfield := hrun hcursor
    rw [compileFrom_cons]
    refine Op.inside_traceAll_cons (h field (by simp) slot hwindow hcursor) ?_
    intro value start hop
    have hstart : (field.compile slot window).2.runBytes ≤ Input.remaining data start := by
      split at hfield
      · obtain ⟨_, hok, _, hstart⟩ := hfield
        rw [hop] at hok
        cases hok
        exact hstart
      · rw [hop] at hfield
        cases hfield
    exact ih (fun other hmem => hread other (by simp [hmem]))
      (fun other hmem => h other (by simp [hmem])) (slot + 1) hnext hstart

/-- A scope of its own may be entered anywhere. -/
theorem inside_scope {fields : List Field} (hread : ∀ field ∈ fields, Compiles data field)
    (h : ∀ field ∈ fields, MovesInside data field) (cursor : Nat) :
    (Op.traceAll data (compileFrom fields 0 {}).1 (compileFrom fields 0 {}).2.runBytes
      cursor).Inside data :=
  inside_compileFrom hread h 0 .empty (Nat.zero_le (Input.remaining data cursor))

theorem inside_compileElement {components : List Field}
    (hread : ∀ component ∈ components, Compiles data component)
    (h : ∀ component ∈ components, MovesInside data component) (entry : Entry) {cursor : Nat}
    (hskip : entry.skip ≤ Input.remaining data cursor) :
    ((compileElement components entry).trace data cursor).Inside data := by
  cases components with
  | nil =>
    rw [compileElement]
    exact Op.inside_nested hskip fun start => Op.inside_traceAll_nil (Nat.zero_le _)
  | cons element components =>
    rw [compileElement]
    split
    · exact Op.inside_lengthPrefixed _ hskip
    · refine Op.inside_nested hskip ?_
      -- The body of the loop is a scope of the element alone.
      have hmem : ∀ field ∈ [element], field ∈ element :: components := by simp
      have hscope := inside_scope (fun field hfield => hread field (hmem field hfield))
        (fun field hfield => h field (hmem field hfield))
      simpa only [compileFrom] using hscope

theorem Readable.movesInside {field : Field} (hfield : field.Readable) (data : Bytes) :
    MovesInside data field := by
  induction hfield with
  | @intro field hplaced hcomponents ih =>
    have hread : ∀ component ∈ field.components, Compiles data component :=
      fun component hmem => (hcomponents component hmem).compiles data
    intro slot window hwindow cursor hcursor
    obtain ⟨name, kind, extraLevels, shift, components⟩ := field
    cases kind with
    | leaf type =>
      cases type with
      | primitive type =>
        rw [compile, Op.trace]
        exact (Traced.inside_still _).bind fun _ _ => Traced.inside_pure _
      | fixedBytes size =>
        rw [compile, Op.trace]
        exact (Traced.inside_still _).bind fun _ _ => Traced.inside_pure _
      | bytes => exact Op.inside_lengthPrefixed .bytes hcursor
      | string => exact Op.inside_lengthPrefixed .text hcursor
    | tuple => exact Op.inside_nested hcursor (inside_scope hread ih)
    | fixedArray size => exact Op.inside_nested hcursor (inside_scope hread ih)
    | dynamicArray =>
      exact Op.inside_counted (fun entry _ => inside_compileElement hread ih entry) extraLevels
        ⟨name, slot, window.runBytes⟩ hcursor

theorem inside_compileScope {fields : List Field} (h : ∀ field ∈ fields, field.Readable)
    (cursor : Nat) :
    (Op.traceAll data (compileScope fields).ops (compileScope fields).tail cursor).Inside data :=
  inside_scope (fun field hmem => (h field hmem).compiles data)
    (fun field hmem => (h field hmem).movesInside data) cursor

theorem Readable.inside_ofRoot {root : Field} (hroot : root.Readable) (name : String)
    (data : Bytes) : ((Program.ofRoot root name).trace data).Inside data := by
  suffices hbody : (Op.traceAll data (Program.ofRoot root name).body.ops
      (Program.ofRoot root name).body.tail 0).Inside data from
    hbody.bind fun _ _ => Traced.inside_pure _
  unfold Program.ofRoot
  split
  · exact inside_compileScope hroot.components 0
  · have hloop : ((Op.nested ⟨name, 0, 0⟩ .dynamicArray
        (compileScope root.components)).trace data 0).Inside data :=
      Op.inside_nested (Nat.zero_le _) (inside_compileScope hroot.components)
    exact Op.inside_traceAll_cons hloop fun _ _ _ => Op.inside_traceAll_nil (Nat.zero_le _)
  · exact inside_compileScope (List.forall_mem_singleton.mpr hroot) 0

end Field

end RecordCodec
