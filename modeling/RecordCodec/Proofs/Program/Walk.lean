import RecordCodec.Proofs.Program.Emission
import RecordCodec.Proofs.Program.Moves

/-!
# Runs stay inside the input

Any program can be run, also one that no schema is compiled to: with offsets and strides of
any size, blocks without operations and tails that move over what was never read. However
it goes wrong, its cursor never leaves the input and never moves back.

A run is a walk: each of its moves starts where the one before it has arrived. One that fails
has walked up to some cursor too, and its error says something true of the input from there
on. What each operation adds to a walk is shown operation by operation, for loops round by
round; the walk of a whole program is put together from that.
-/

namespace RecordCodec

namespace Move

/-- The bytes that some moves go over together. -/
def total (moves : List Move) : Nat := (moves.map Move.length).sum

@[simp] theorem total_cons (move : Move) (moves : List Move) :
    total (move :: moves) = move.length + total moves := rfl

/-- Moves that lead from one cursor to another, both inside the input. -/
inductive Walk (data : Bytes) : (start : Nat) → List Move → (stop : Nat) → Prop
  | stay {start : Nat} (hstart : start ≤ data.length) : Walk data start [] start
  | go {start length stop : Nat} {moves : List Move}
      (hrest : Walk data (start + length) moves stop) :
      Walk data start (⟨start, length⟩ :: moves) stop

namespace Walk

variable {data : Bytes} {start middle stop : Nat} {moves others : List Move}

theorem start_le (h : Walk data start moves stop) : start ≤ stop := by
  induction h with
  | stay => exact Nat.le_refl _
  | go _ ih => omega

theorem stop_le (h : Walk data start moves stop) : stop ≤ data.length := by
  induction h with
  | stay hstart => exact hstart
  | go _ ih => exact ih

theorem stop_eq (h : Walk data start moves stop) : stop = start + total moves := by
  induction h with
  | stay => rfl
  | go _ ih => rw [ih, total_cons, Nat.add_assoc]

theorem append (h : Walk data start moves middle) (hrest : Walk data middle others stop) :
    Walk data start (moves ++ others) stop := by
  induction h with
  | stay => exact hrest
  | go _ ih => exact .go (ih hrest)

/-- Each move starts where those before it lead, and stays inside. -/
theorem step {front rest : List Move} {move : Move}
    (h : Walk data start (front ++ move :: rest) stop) :
    move.start = start + total front ∧ move.start ≤ data.length ∧
      move.start + move.length ≤ data.length := by
  induction front generalizing start with
  | nil =>
    cases h with
    | @go start length _ _ hrest =>
      have hinput : start + length ≤ data.length := Nat.le_trans hrest.start_le hrest.stop_le
      exact ⟨rfl, Nat.le_of_add_right_le hinput, hinput⟩
  | cons first front ih =>
    cases h with
    | go hrest =>
      rw [total_cons, ← Nat.add_assoc]
      exact ih hrest

end Walk

end Move

namespace Op

/-- The bytes behind its header that the operation takes for a count, at the least. -/
def leastSize (count : Nat) : Op → Nat
  | lengthPrefixed _ payload => payload.size count
  | _ => count

/-- An operation of the given name, the header of which ends at the cursor. -/
structure Headed (data : Bytes) (name : String) (count cursor : Nat) (op : Op) : Prop where
  name_eq : op.name = name
  behind : 4 ≤ cursor
  count_eq : count = Bytes.toNat (data.slice (cursor - 4) 4)

theorem Headed.exists_header {data : Bytes} {name : String} {count cursor : Nat} {op : Op}
    (h : op.Headed data name count cursor) :
    ∃ header, cursor = header + 4 ∧ count = Bytes.toNat (data.slice header 4) :=
  ⟨cursor - 4, (Nat.sub_add_cancel h.behind).symm, h.count_eq⟩

end Op

/-- What an error says is true of the input, for a run of the operations that has come to
the cursor. -/
def ReadError.TrueAt (data : Bytes) (ops : List Op) (cursor : Nat) : ReadError → Prop
  | outOfBounds offset length => data.length < offset + length
  | lengthOverflow field count => ∃ op ∈ ops, op.Headed data field count cursor ∧
      Input.remaining data cursor < op.leastSize count
  | invalidUtf8 field => ∃ op ∈ ops, ∃ count, op.Headed data field count cursor ∧
      count ≤ Input.remaining data cursor ∧ Text.ofUtf8? (data.slice cursor count) = none
  | trailingBytes _ _ => False

theorem ReadError.TrueAt.mono {data : Bytes} {ops others : List Op} {cursor : Nat}
    {error : ReadError} (h : error.TrueAt data ops cursor) (hops : ∀ op ∈ ops, op ∈ others) :
    error.TrueAt data others cursor := by
  cases error with
  | outOfBounds offset length => exact h
  | lengthOverflow field count =>
    obtain ⟨op, hmem, hop⟩ := h
    exact ⟨op, hops op hmem, hop⟩
  | invalidUtf8 field =>
    obtain ⟨op, hmem, hop⟩ := h
    exact ⟨op, hops op hmem, hop⟩
  | trailingBytes consumed length => exact h

namespace Traced

variable {α β : Type} {data : Bytes} {ops : List Op}

/-- A traced run that walks from a cursor: to the cursor of its result, or to where it fails
with an error that is true there, be it the next move that fails. -/
inductive Walks (data : Bytes) (ops : List Op) (cursor : α → Nat) (start : Nat) :
    Traced α → Prop
  | ok {moves : List Move} {a : α} (h : Move.Walk data start moves (cursor a)) :
      Walks data ops cursor start ⟨moves, .ok a⟩
  | error {moves : List Move} {stop : Nat} {error : ReadError}
      (h : Move.Walk data start moves stop) (herror : error.TrueAt data ops stop) :
      Walks data ops cursor start ⟨moves, .error error⟩
  | stopped {moves : List Move} {stop length : Nat} (h : Move.Walk data start moves stop)
      (hout : data.length < stop + length) :
      Walks data ops cursor start ⟨moves ++ [⟨stop, length⟩], .error (.outOfBounds stop length)⟩

variable {cursor : α → Nat} {next : β → Nat} {start middle : Nat} {x : Traced α}

theorem Walks.mono {others : List Op} (h : x.Walks data ops cursor start)
    (hops : ∀ op ∈ ops, op ∈ others) : x.Walks data others cursor start := by
  cases h with
  | ok h => exact .ok h
  | error h herror => exact .error h (herror.mono hops)
  | stopped h hout => exact .stopped h hout

theorem Walks.behind {moves : List Move} (hmoves : Move.Walk data start moves middle)
    (h : x.Walks data ops cursor middle) :
    Walks data ops cursor start ⟨moves ++ x.moves, x.outcome⟩ := by
  cases h with
  | ok h => exact .ok (hmoves.append h)
  | error h herror => exact .error (hmoves.append h) herror
  | stopped h hout =>
    rw [← List.append_assoc]
    exact .stopped (hmoves.append h) hout

theorem Walks.inside (h : x.Walks data ops cursor start) {a : α} (ha : x.outcome = .ok a) :
    cursor a ≤ data.length := by
  cases h with
  | ok h =>
    cases ha
    exact h.stop_le
  | error => cases ha
  | stopped => cases ha

/-- Each move starts where those before it lead, inside the input, and only the last one
may be stopped there. -/
theorem Walks.step (h : x.Walks data ops cursor start) {front rest : List Move} {move : Move}
    (hmoves : x.moves = front ++ move :: rest) :
    move.start = start + Move.total front ∧ move.start ≤ data.length ∧
      (move.start + move.length ≤ data.length ∨
        rest = [] ∧ x.outcome = .error (.outOfBounds move.start move.length)) := by
  cases h with
  | ok h =>
    dsimp only at hmoves
    rw [hmoves] at h
    obtain ⟨hstart, hbefore, hinput⟩ := h.step
    exact ⟨hstart, hbefore, .inl hinput⟩
  | error h herror =>
    dsimp only at hmoves
    rw [hmoves] at h
    obtain ⟨hstart, hbefore, hinput⟩ := h.step
    exact ⟨hstart, hbefore, .inl hinput⟩
  | @stopped moves stop length h hout =>
    dsimp only at hmoves
    rcases List.eq_nil_or_concat rest with rfl | ⟨others, last, rfl⟩
    · obtain ⟨rfl, hlast⟩ := List.append_inj' hmoves rfl
      cases hlast
      exact ⟨h.stop_eq, h.stop_le, .inr ⟨rfl, rfl⟩⟩
    · have hfront : moves ++ [⟨stop, length⟩] = (front ++ move :: others) ++ [last] := by
        rw [hmoves]
        simp
      obtain ⟨rfl, _⟩ := List.append_inj' hfront rfl
      obtain ⟨hstart, hbefore, hinput⟩ := h.step
      exact ⟨hstart, hbefore, .inl hinput⟩

/-- A run that succeeds has arrived where its moves lead. -/
theorem Walks.arrives (h : x.Walks data ops cursor start) {a : α} (ha : x.outcome = .ok a) :
    start ≤ cursor a ∧ cursor a = start + Move.total x.moves := by
  cases h with
  | ok h =>
    cases ha
    exact ⟨h.start_le, h.stop_eq⟩
  | error => cases ha
  | stopped => cases ha

/-- A run that fails says something true of the input from some cursor on. Unless it was its
last move that failed, this is where its moves lead. -/
theorem Walks.trueAt (h : x.Walks data ops cursor start) {error : ReadError}
    (herror : x.outcome = .error error) :
    ∃ stop ≤ data.length, error.TrueAt data ops stop ∧
      (stop = start + Move.total x.moves ∨ ∃ length, error = .outOfBounds stop length) := by
  cases h with
  | ok => cases herror
  | error h htrue =>
    cases herror
    exact ⟨_, h.stop_le, htrue, .inl h.stop_eq⟩
  | stopped h hout =>
    cases herror
    exact ⟨_, h.stop_le, hout, .inr ⟨_, rfl⟩⟩

/-- What follows walks on from the cursor of the result. -/
theorem Walks.bind {f : α → Traced β} (h : x.Walks data ops cursor start)
    (hnext : ∀ a, x.outcome = .ok a → (f a).Walks data ops next (cursor a)) :
    (x >>= f).Walks data ops next start := by
  cases h with
  | ok h => exact (hnext _ rfl).behind h
  | error h herror => exact .error h herror
  | stopped h hout => exact .stopped h hout

theorem walks_pure {a : α} (ha : cursor a = start) (hstart : start ≤ data.length) :
    (pure a : Traced α).Walks data ops cursor start := by
  rw [← ha] at hstart ⊢
  exact .ok (.stay hstart)

theorem walks_still {outcome : Except ReadError α} (hstart : start ≤ data.length)
    (herror : ∀ error, outcome = .error error → error.TrueAt data ops start) :
    (still outcome).Walks data ops (fun _ => start) start := by
  cases outcome with
  | ok a => exact .ok (.stay hstart)
  | error error => exact .error (.stay hstart) (herror error rfl)

theorem walks_move (hstart : start ≤ data.length) (n : Nat) :
    (move data start n).Walks data ops id start := by
  rw [move, Input.move]
  split
  · rename_i hn
    exact .ok (.go (.stay ((Input.le_remaining_iff hstart).mp hn)))
  · rename_i hn
    rw [Input.le_remaining_iff hstart, Nat.not_le] at hn
    exact .stopped (.stay hstart) hn

end Traced

namespace Input

variable {data : Bytes} {ops : List Op} {cursor offset shift bits : Nat} {error : ReadError}

/-- A window is refused for a field that is not in the input, wherever it lies in the word. -/
theorem trueAt_of_window {position start : Nat}
    (h : window data cursor offset position bits = .error error) :
    error.TrueAt data ops start := by
  obtain ⟨hout, rfl⟩ := Outcome.check_eq_error.mp h
  exact Nat.not_le.mp hout

theorem trueAt_of_readNumber {start : Nat}
    (h : readNumber data cursor offset shift bits = .error error) :
    error.TrueAt data ops start := by
  rcases Outcome.bind_eq_error.mp h with hwindow | ⟨_, _, hword⟩
  · exact trueAt_of_window hwindow
  · cases hword

theorem trueAt_of_readBytes {start : Nat}
    (h : readBytes data cursor offset shift bits = .error error) :
    error.TrueAt data ops start := by
  rcases Outcome.bind_eq_error.mp h with hwindow | ⟨_, _, hword⟩
  · exact trueAt_of_window hwindow
  · cases hword

theorem walks_traceHeader (hcursor : cursor ≤ data.length) :
    (traceHeader data cursor).Walks data ops Prod.snd cursor := by
  refine (Traced.walks_still hcursor fun error => trueAt_of_readNumber).bind ?_
  intro field _
  refine (Traced.walks_move hcursor 4).bind ?_
  intro next hnext
  obtain ⟨hinput, rfl⟩ := move_eq_ok.mp hnext
  exact Traced.walks_pure rfl ((le_remaining_iff hcursor).mp hinput)

/-- A header that has been read stands right before the cursor. -/
theorem headed_of_traceHeader (op : Op) {count next : Nat}
    (h : (traceHeader data cursor).outcome = .ok (count, next)) :
    next ≤ data.length ∧ op.Headed data op.name count next := by
  rw [outcome_traceHeader, readHeader_eq, Outcome.check_eq_ok] at h
  obtain ⟨hinput, hheader⟩ := h
  cases hheader
  exact ⟨hinput, rfl, Nat.le_add_left 4 cursor, by rw [Nat.add_sub_cancel]⟩

end Input

theorem ElementKind.trueAt_of_read {data : Bytes} {ops : List Op} {kind : ElementKind}
    {cursor offset shift bits start : Nat} {error : ReadError}
    (h : kind.read data cursor offset shift bits = .error error) :
    error.TrueAt data ops start := by
  cases kind with
  | primitive type =>
    rcases Outcome.bind_eq_error.mp h with hfield | ⟨_, _, hvalue⟩
    · exact Input.trueAt_of_readNumber hfield
    · cases hvalue
  | fixedBytes size =>
    rcases Outcome.bind_eq_error.mp h with hfield | ⟨_, _, hvalue⟩
    · exact Input.trueAt_of_readBytes hfield
    · cases hvalue

theorem ElementRead.trueAt_of_readFrom {data : Bytes} {ops : List Op} {element : ElementRead}
    {cursor count offset start : Nat} {error : ReadError}
    (h : element.readFrom data cursor count offset = .error error) :
    error.TrueAt data ops start := by
  induction count generalizing offset with
  | zero => cases h
  | succ count ih =>
    rcases Outcome.bind_eq_error.mp h with hfirst | ⟨first, _, hrest⟩
    · exact ElementKind.trueAt_of_read hfirst
    · rcases Outcome.bind_eq_error.mp hrest with hrest | ⟨_, _, hlist⟩
      · exact ih hrest
      · cases hlist

namespace Payload

variable {data : Bytes} {ops : List Op} {entry : Entry} {payload : Payload} {count cursor : Nat}

theorem trueAt_of_read {error : ReadError} (hmem : .lengthPrefixed entry payload ∈ ops)
    (hheaded : (Op.lengthPrefixed entry payload).Headed data entry.name count cursor)
    (hcursor : cursor ≤ data.length) (hsize : payload.size count ≤ Input.remaining data cursor)
    (h : payload.read data entry.name count cursor = .error error) :
    error.TrueAt data ops cursor := by
  cases payload with
  | bytes => cases h
  | text =>
    have hinput : cursor + count ≤ data.length := (Input.le_remaining_iff hcursor).mp hsize
    rw [read, Input.copy_eq hinput] at h
    split at h
    · cases h
    · rename_i hutf8
      cases h
      exact ⟨_, hmem, count, hheaded, hsize, hutf8⟩
  | elements element =>
    rcases Outcome.bind_eq_error.mp h with hitems | ⟨_, _, hvalue⟩
    · exact ElementRead.trueAt_of_readFrom hitems
    · cases hvalue

theorem walks_trace (hmem : .lengthPrefixed entry payload ∈ ops)
    (hheaded : (Op.lengthPrefixed entry payload).Headed data entry.name count cursor)
    (hcursor : cursor ≤ data.length) :
    (payload.trace data entry.name count cursor).Walks data ops Prod.snd cursor := by
  rw [trace]
  split
  · rename_i hsize
    refine (Traced.walks_still hcursor fun error =>
      trueAt_of_read hmem hheaded hcursor hsize).bind ?_
    intro value _
    refine (Traced.walks_move hcursor _).bind ?_
    intro next hnext
    obtain ⟨hinput, rfl⟩ := Input.move_eq_ok.mp hnext
    exact Traced.walks_pure rfl ((Input.le_remaining_iff hcursor).mp hinput)
  · rename_i hsize
    exact .error (.stay hcursor) ⟨_, hmem, hheaded, Nat.not_le.mp hsize⟩

end Payload

namespace Op

variable {data : Bytes} {ops : List Op}

/-- A loop walks on round by round, if each round walks. -/
theorem walks_repeatTrace {body : Nat → Traced (List Value × Nat)}
    (h : ∀ start ≤ data.length, (body start).Walks data ops Prod.snd start) (count : Nat)
    {start : Nat} (hstart : start ≤ data.length) :
    (repeatTrace body count start).Walks data ops Prod.snd start := by
  induction count generalizing start with
  | zero => exact Traced.walks_pure rfl hstart
  | succ count ih =>
    have hbody := h start hstart
    refine hbody.bind ?_
    rintro ⟨first, middle⟩ hfirst
    have hrest := ih (hbody.inside hfirst)
    refine hrest.bind ?_
    rintro ⟨rest, stop⟩ hstop
    exact Traced.walks_pure rfl (hrest.inside hstop)

theorem walks_lengthPrefixed (entry : Entry) (payload : Payload) {start : Nat}
    (hstart : start ≤ data.length) :
    ((lengthPrefixed entry payload).trace data start).Walks data
      (lengthPrefixed entry payload).all Prod.snd start := by
  have hskip : (Traced.move data start entry.skip).Walks data
      (lengthPrefixed entry payload).all id start := Traced.walks_move hstart entry.skip
  rw [trace]
  refine hskip.bind ?_
  intro cursor hcursor
  refine (Input.walks_traceHeader (hskip.inside hcursor)).bind ?_
  rintro ⟨count, next⟩ hheader
  obtain ⟨hnext, hheaded⟩ := Input.headed_of_traceHeader (lengthPrefixed entry payload) hheader
  exact Payload.walks_trace (List.mem_singleton_self _) hheaded hnext

/-- A block that walks from wherever it is entered is walked behind the skip. -/
theorem walks_nested (entry : Entry) (shape : NestedShape) {body : Block Op}
    (hbody : ∀ start ≤ data.length,
      (traceAll data body.ops body.tail start).Walks data (allIn body.ops) Prod.snd start)
    {start : Nat} (hstart : start ≤ data.length) :
    ((nested entry shape body).trace data start).Walks data (nested entry shape body).all
      Prod.snd start := by
  obtain ⟨inner, tail⟩ := body
  have hbody : ∀ start ≤ data.length, (traceAll data inner tail start).Walks data
      (nested entry shape ⟨inner, tail⟩).all Prod.snd start := by
    intro start hstart
    refine (hbody start hstart).mono ?_
    intro op hop
    rw [all]
    exact List.mem_cons_of_mem _ hop
  have hskip : (Traced.move data start entry.skip).Walks data
      (nested entry shape ⟨inner, tail⟩).all id start := Traced.walks_move hstart entry.skip
  cases shape with
  | tuple =>
    rw [trace]
    refine hskip.bind ?_
    intro cursor hcursor
    have hblock := hbody cursor (hskip.inside hcursor)
    exact hblock.bind fun block hok => Traced.walks_pure rfl (hblock.inside hok)
  | fixedArray size =>
    rw [trace]
    refine hskip.bind ?_
    intro cursor hcursor
    have hblock := hbody cursor (hskip.inside hcursor)
    exact hblock.bind fun block hok => Traced.walks_pure rfl (hblock.inside hok)
  | dynamicArray =>
    rw [trace]
    refine hskip.bind ?_
    intro cursor hcursor
    refine (Input.walks_traceHeader (hskip.inside hcursor)).bind ?_
    rintro ⟨count, next⟩ hheader
    obtain ⟨hnext, hheaded⟩ :=
      Input.headed_of_traceHeader (nested entry .dynamicArray ⟨inner, tail⟩) hheader
    dsimp only
    split
    · have hloop := walks_repeatTrace hbody count hnext
      exact hloop.bind fun rounds hok => Traced.walks_pure rfl (hloop.inside hok)
    · rename_i hcount
      refine .error (.stay hnext) ⟨_, ?_, hheaded, Nat.not_le.mp hcount⟩
      rw [all]
      exact List.mem_cons_self

mutual

/-- Every operation walks from wherever in the input it is run. -/
theorem walks_trace (data : Bytes) : (op : Op) → (start : Nat) → start ≤ data.length →
    (op.trace data start).Walks data op.all Prod.snd start
  | primitive type read, start, hstart => by
    rw [trace]
    refine (Traced.walks_still hstart fun error => Input.trueAt_of_readNumber).bind ?_
    intro field _
    exact Traced.walks_pure rfl hstart
  | fixedBytes read, start, hstart => by
    rw [trace]
    refine (Traced.walks_still hstart fun error => Input.trueAt_of_readBytes).bind ?_
    intro field _
    exact Traced.walks_pure rfl hstart
  | lengthPrefixed entry payload, start, hstart => walks_lengthPrefixed entry payload hstart
  | nested entry shape ⟨ops, tail⟩, start, hstart =>
    walks_nested entry shape (fun start hstart => walks_traceAll data ops tail start hstart) hstart

theorem walks_traceAll (data : Bytes) : (ops : List Op) → (tail start : Nat) →
    start ≤ data.length → (traceAll data ops tail start).Walks data (allIn ops) Prod.snd start
  | [], tail, start, hstart => by
    have htail : (Traced.move data start tail).Walks data [] id start :=
      Traced.walks_move hstart tail
    rw [traceAll]
    exact htail.bind fun stop hstop => Traced.walks_pure rfl (htail.inside hstop)
  | op :: ops, tail, start, hstart => by
    have hop : (op.trace data start).Walks data (allIn (op :: ops)) Prod.snd start :=
      (walks_trace data op start hstart).mono (by simp +contextual [allIn])
    rw [traceAll]
    refine hop.bind ?_
    rintro ⟨value, middle⟩ hvalue
    have hops : (traceAll data ops tail middle).Walks data (allIn (op :: ops)) Prod.snd middle :=
      (walks_traceAll data ops tail middle (hop.inside hvalue)).mono (by simp +contextual [allIn])
    exact hops.bind fun rest hrest => Traced.walks_pure rfl (hops.inside hrest)

end

end Op

namespace Program

theorem walks_trace (program : Program) (data : Bytes) :
    (program.trace data).Walks data program.allOps Decoded.consumed 0 := by
  have hbody := Op.walks_traceAll data program.body.ops program.body.tail 0 (Nat.zero_le _)
  refine hbody.bind ?_
  rintro ⟨values, consumed⟩ hrun
  exact Traced.walks_pure rfl (hbody.inside hrun)

/-- However a program runs, its cursor moves forward only and stays inside the input. It
stops where the moves of the run add up to, and what its errors say is true: a count that is
too large and a text that is not well formed stand behind the header that was read last. -/
theorem run_stays_inside (program : Program) (data : Bytes) :
    (∀ op cursor value next, cursor ≤ data.length → Op.run data op cursor = .ok (value, next) →
      cursor ≤ next ∧ next ≤ data.length) ∧
    (program.trace data).outcome = program.run data ∧
    (∀ front move rest, (program.trace data).moves = front ++ move :: rest →
      move.start = Move.total front ∧ move.start ≤ data.length ∧
        (move.start + move.length ≤ data.length ∨
          rest = [] ∧ program.run data = .error (.outOfBounds move.start move.length))) ∧
    (∀ decoded, program.run data = .ok decoded →
      decoded.consumed ≤ data.length ∧
        decoded.consumed = Move.total (program.trace data).moves) ∧
    (∀ offset length, program.run data = .error (.outOfBounds offset length) →
      data.length < offset + length) ∧
    (∀ field count, program.run data = .error (.lengthOverflow field count) →
      ∃ op ∈ program.allOps, op.name = field ∧
        ∃ header, header + 4 = Move.total (program.trace data).moves ∧
          header + 4 ≤ data.length ∧ count = Bytes.toNat (data.slice header 4) ∧
          data.length < header + 4 + op.leastSize count) ∧
    (∀ field, program.run data = .error (.invalidUtf8 field) →
      ∃ op ∈ program.allOps, op.name = field ∧
        ∃ header count, header + 4 = Move.total (program.trace data).moves ∧
          count = Bytes.toNat (data.slice header 4) ∧ header + 4 + count ≤ data.length ∧
          Text.ofUtf8? (data.slice (header + 4) count) = none) := by
  have hwalks := program.walks_trace data
  have houtcome := program.outcome_trace data
  refine ⟨?step, houtcome, ?moves, ?success, ?bounds, ?overflow, ?text⟩
  case step =>
    intro op cursor value next hcursor hrun
    have hop := Op.walks_trace data op cursor hcursor
    rw [← Op.outcome_trace] at hrun
    exact ⟨(hop.arrives hrun).1, hop.inside hrun⟩
  case moves =>
    intro front move rest hmoves
    rw [← houtcome, ← Nat.zero_add (Move.total front)]
    exact hwalks.step hmoves
  case success =>
    intro decoded hrun
    rw [← houtcome] at hrun
    refine ⟨hwalks.inside hrun, ?_⟩
    rw [(hwalks.arrives hrun).2, Nat.zero_add]
  case bounds =>
    intro offset length hrun
    rw [← houtcome] at hrun
    obtain ⟨stop, _, hout, _⟩ := hwalks.trueAt hrun
    exact hout
  case overflow =>
    intro field count hrun
    rw [← houtcome] at hrun
    obtain ⟨stop, hstop, ⟨op, hmem, hheaded, hover⟩, hlast⟩ := hwalks.trueAt hrun
    obtain ⟨header, rfl, hcount⟩ := hheaded.exists_header
    obtain htotal | ⟨length, hmove⟩ := hlast
    · rw [Input.remaining] at hover
      exact ⟨op, hmem, hheaded.name_eq, header, htotal.trans (Nat.zero_add _), hstop, hcount,
        by omega⟩
    · cases hmove
  case text =>
    intro field hrun
    rw [← houtcome] at hrun
    obtain ⟨stop, hstop, ⟨op, hmem, count, hheaded, hinput, hutf8⟩, hlast⟩ := hwalks.trueAt hrun
    obtain ⟨header, rfl, hcount⟩ := hheaded.exists_header
    obtain htotal | ⟨length, hmove⟩ := hlast
    · exact ⟨op, hmem, hheaded.name_eq, header, count, htotal.trans (Nat.zero_add _), hcount,
        (Input.le_remaining_iff hstop).mp hinput, hutf8⟩
    · cases hmove

/-- A loop without operations, which moves by its tail alone, two bytes a round. -/
def emptyRounds : Program :=
  ⟨"p", .single, ⟨[.nested ⟨"a", 0, 1⟩ .dynamicArray ⟨[], 2⟩], 1⟩⟩

/-- Two rounds go over what is there, the third of five is stopped at the end. -/
theorem run_stays_inside_emptyRounds :
    (emptyRounds.trace [9, 0, 0, 0, 2, 7, 7, 7, 7, 7]).moves =
        [⟨0, 1⟩, ⟨1, 4⟩, ⟨5, 2⟩, ⟨7, 2⟩, ⟨9, 1⟩] ∧
      (∃ decoded, emptyRounds.run [9, 0, 0, 0, 2, 7, 7, 7, 7, 7] = .ok decoded ∧
        decoded.consumed = 1 + (4 + (2 + (2 + (1 + 0))))) ∧
      emptyRounds.run [9, 0, 0, 0, 5, 7, 7, 7, 7, 7] = .error (.outOfBounds 9 2) ∧
      10 < 9 + 2 := by
  have hmoves : (emptyRounds.trace [9, 0, 0, 0, 2, 7, 7, 7, 7, 7]).moves =
      [⟨0, 1⟩, ⟨1, 4⟩, ⟨5, 2⟩, ⟨7, 2⟩, ⟨9, 1⟩] := rfl
  have hsuccess : emptyRounds.run [9, 0, 0, 0, 2, 7, 7, 7, 7, 7] = .ok ⟨.array [], 10⟩ := rfl
  have hfailure : emptyRounds.run [9, 0, 0, 0, 5, 7, 7, 7, 7, 7] = .error (.outOfBounds 9 2) :=
    rfl
  obtain ⟨_, _, _, htotal, _⟩ := run_stays_inside emptyRounds [9, 0, 0, 0, 2, 7, 7, 7, 7, 7]
  obtain ⟨_, _, _, _, hbounds, _⟩ := run_stays_inside emptyRounds [9, 0, 0, 0, 5, 7, 7, 7, 7, 7]
  obtain ⟨_, hconsumed⟩ := htotal _ hsuccess
  rw [hmoves] at hconsumed
  exact ⟨hmoves, ⟨_, hsuccess, hconsumed⟩, hfailure, hbounds 9 2 hfailure⟩

end Program

end RecordCodec
