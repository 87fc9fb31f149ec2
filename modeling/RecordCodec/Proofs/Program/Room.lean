import RecordCodec.Proofs.Program.Emission
import RecordCodec.Proofs.Program.Locality

/-!
# Runs with room for their addresses

A run adds offsets to its cursor, so what it yields may depend on the address space.
The cursor of a run never leaves the input. In a space that holds the end of the input,
and behind it the farthest read of the program with its word, no sum wraps around, and an
aligned program yields the same as without an end of addresses.
-/

namespace RecordCodec

namespace Outcome

variable {ε α β : Type}

/-- The outcomes are the same, and what they yield is as it should be. -/
structure Agree (P : α → Prop) (x y : Except ε α) : Prop where
  eq : x = y
  holds : ∀ a, y = .ok a → P a

namespace Agree

variable {P : α → Prop} {Q : β → Prop} {x y : Except ε α}

theorem ok {a : α} (h : P a) : Agree P (.ok a : Except ε α) (.ok a) := by
  refine ⟨rfl, ?_⟩
  intro b hb
  cases hb
  exact h

theorem error {error : ε} : Agree P (.error error) (.error error) :=
  ⟨rfl, fun a ha => by cases ha⟩

theorem bind {f g : α → Except ε β} (h : Agree P x y) (hrest : ∀ a, P a → Agree Q (f a) (g a)) :
    Agree Q (x >>= f) (y >>= g) := by
  obtain ⟨rfl, hvalue⟩ := h
  cases x with
  | error error => exact .error
  | ok a => exact hrest a (hvalue a rfl)

theorem guard {c : Prop} [Decidable c] {error : ε} (h : c → Agree P x y) :
    Agree P (if c then x else .error error) (if c then y else .error error) := by
  split
  · rename_i hc
    exact h hc
  · exact .error

end Agree

end Outcome

open AddressSpace Outcome

namespace Op

/-- How far behind the cursor the word of an operation begins. -/
def offset : Op → Nat
  | primitive _ read => read.offset
  | fixedBytes read => read.offset
  | _ => 0

/-- The words of the operation and of those in its blocks begin at most `reach` bytes
behind the cursor. -/
def Within (reach : Nat) (op : Op) : Prop := ∀ inner ∈ op.all, inner.offset ≤ reach

theorem within_leaf {reach : Nat} {op : Op} (hop : op.offset ≤ reach) (hall : op.all = [op]) :
    op.Within reach := by
  intro inner hmem
  rw [hall, List.mem_singleton] at hmem
  rw [hmem]
  exact hop

theorem within_nested {reach : Nat} {entry : Entry} {shape : NestedShape} {body : Block Op} :
    (nested entry shape body).Within reach ↔ ∀ op ∈ body.ops, op.Within reach := by
  rw [Within, forall_mem_all_nested]
  exact and_iff_right (Nat.zero_le reach)

end Op

def Program.Within (reach : Nat) (program : Program) : Prop :=
  ∀ op ∈ program.body.ops, op.Within reach

variable {data : Bytes} {reach cursor : Nat}

theorem Input.agree_move (hcursor : cursor ≤ data.length) (n : Nat) :
    Agree (· ≤ data.length) (move data cursor n) (move data cursor n) := by
  refine .guard fun hmove => .ok ?_
  exact (le_remaining_iff hcursor).mp hmove

variable [AddressSpace]

/-- A header that is read ends inside the input. -/
theorem Input.agree_readHeader (hroom : Holds (data.length + 32)) (hcursor : cursor ≤ data.length) :
    Agree (fun result => result.2 ≤ data.length) (readHeader data cursor)
      (@readHeader .unbounded data cursor) := by
  have hfield : Holds (cursor + 0 + (256 - 224 - 32) / 8 + 32 / 8) := hroom.mono (by omega)
  rw [readHeader, readNumber_eq_unbounded hfield]
  refine ⟨rfl, ?_⟩
  rintro ⟨count, next⟩ hheader
  rw [readHeader_eq, check_eq_ok] at hheader
  obtain ⟨hinput, hnext⟩ := hheader
  cases hnext
  exact hinput

theorem ElementKind.read_eq_unbounded {kind : ElementKind} {offset shift bits : Nat}
    (hroom : Holds (cursor + offset + 32)) (hinside : shift + bits ≤ 256) :
    kind.read data cursor offset shift bits =
      @ElementKind.read .unbounded data cursor offset shift bits kind := by
  cases kind with
  | primitive type =>
    rw [read, Input.readNumber_eq_unbounded (hroom.mono (by omega))]
    rfl
  | fixedBytes size =>
    rw [read, Input.readBytes_eq_unbounded (hroom.mono (by omega))]
    rfl

/-- Elements that are all in the input are read alike. -/
theorem ElementRead.readFrom_eq_unbounded (hroom : Holds (data.length + 32))
    {element : ElementRead} (hinside : element.shift + element.bits ≤ 256) {count offset : Nat}
    (hinput : cursor + offset + count * element.stride ≤ data.length) :
    element.readFrom data cursor count offset =
      @ElementRead.readFrom .unbounded element data cursor count offset := by
  induction count generalizing offset with
  | zero => rfl
  | succ count ih =>
    rw [Nat.succ_mul] at hinput
    have hfirst : Holds (cursor + offset + 32) := hroom.mono (by omega)
    have hrest : cursor + (offset + element.stride) + count * element.stride ≤ data.length := by
      omega
    simp only [readFrom, ElementKind.read_eq_unbounded hfirst hinside, ih hrest]

theorem Payload.read_eq_unbounded (hroom : Holds (data.length + 32)) {payload : Payload}
    (h : payload.Aligned) (name : String) {count : Nat}
    (hinput : cursor + payload.size count ≤ data.length) :
    payload.read data name count cursor =
      @Payload.read .unbounded data name count cursor payload := by
  have hdata : Holds data.length := hroom.mono (Nat.le_add_right _ _)
  cases payload with
  | bytes =>
    change cursor + count ≤ data.length at hinput
    simp only [read, Input.copy_eq_unbounded hdata hinput]
  | text =>
    change cursor + count ≤ data.length at hinput
    simp only [read, Input.copy_eq_unbounded hdata hinput]
  | elements element =>
    change cursor + 0 + count * element.stride ≤ data.length at hinput
    simp only [read, ElementRead.readFrom_eq_unbounded hroom h.1.inside hinput]

theorem Payload.agree_run (hroom : Holds (data.length + 32)) {payload : Payload}
    (h : payload.Aligned) (name : String) (count : Nat) (hcursor : cursor ≤ data.length) :
    Agree (fun result => result.2 ≤ data.length) (payload.run data name count cursor)
      (@Payload.run .unbounded data name count cursor payload) := by
  refine .guard fun hsize => ?_
  rw [read_eq_unbounded hroom h name ((Input.le_remaining_iff hcursor).mp hsize)]
  refine .bind (P := fun _ => True) ⟨rfl, fun _ _ => trivial⟩ fun value _ => ?_
  exact .bind (Input.agree_move hcursor _) fun next hnext => .ok hnext

namespace Op

omit [AddressSpace] in
theorem agree_repeatRun {body other : Nat → Except ReadError (List Value × Nat)}
    (h : ∀ cursor ≤ data.length, Agree (fun result => result.2 ≤ data.length) (body cursor)
      (other cursor)) (count : Nat) (hcursor : cursor ≤ data.length) :
    Agree (fun result => result.2 ≤ data.length) (repeatRun body count cursor)
      (repeatRun other count cursor) := by
  induction count generalizing cursor with
  | zero => exact .ok hcursor
  | succ count ih =>
    refine .bind (h cursor hcursor) ?_
    rintro ⟨first, middle⟩ hmiddle
    exact .bind (ih hmiddle) fun result hresult => .ok hresult

theorem agree_runAll {ops : List Op}
    (h : ∀ op ∈ ops, ∀ cursor ≤ data.length, Agree (fun result => result.2 ≤ data.length)
      (op.run data cursor) (@Op.run .unbounded data op cursor))
    (tail : Nat) (hcursor : cursor ≤ data.length) :
    Agree (fun result => result.2 ≤ data.length) (runAll data ops tail cursor)
      (@runAll .unbounded data ops tail cursor) := by
  induction ops generalizing cursor with
  | nil =>
    simp only [runAll]
    exact .bind (Input.agree_move hcursor tail) fun next hnext => .ok hnext
  | cons op ops ih =>
    simp only [runAll]
    refine .bind (h op (by simp) cursor hcursor) ?_
    rintro ⟨value, middle⟩ hmiddle
    refine .bind (ih (fun other hmem => h other (by simp [hmem])) hmiddle) ?_
    exact fun result hresult => .ok hresult

/-- An aligned operation is run alike where there is room for the input, the farthest of
its words and what a word reaches over. -/
theorem Aligned.agree_run {op : Op} (h : op.Aligned) (hwithin : op.Within reach)
    (hroom : Holds (data.length + reach + 32)) (hcursor : cursor ≤ data.length) :
    Agree (fun result => result.2 ≤ data.length) (op.run data cursor)
      (@Op.run .unbounded data op cursor) := by
  have hinput : Holds (data.length + 32) := hroom.mono (by omega)
  induction h generalizing cursor with
  | @primitive type read hread =>
    have hoffset : read.offset ≤ reach := hwithin _ (List.mem_singleton_self _)
    have hinside := hread.inside
    simp only [run]
    rw [Input.readNumber_eq_unbounded (hroom.mono (by omega))]
    exact .bind (P := fun _ => True) ⟨rfl, fun _ _ => trivial⟩ fun field _ => .ok hcursor
  | @fixedBytes read hread =>
    have hoffset : read.offset ≤ reach := hwithin _ (List.mem_singleton_self _)
    have hinside := hread.inside
    simp only [run]
    rw [Input.readBytes_eq_unbounded (hroom.mono (by omega))]
    exact .bind (P := fun _ => True) ⟨rfl, fun _ _ => trivial⟩ fun field _ => .ok hcursor
  | @lengthPrefixed entry payload hpayload =>
    simp only [run]
    refine .bind (Input.agree_move hcursor entry.skip) fun start hstart => ?_
    refine .bind (Input.agree_readHeader hinput hstart) ?_
    rintro ⟨count, next⟩ hnext
    exact payload.agree_run hinput hpayload entry.name count hnext
  | @nested entry shape body hops ih =>
    obtain ⟨ops, tail⟩ := body
    have hbody : ∀ cursor ≤ data.length, Agree (fun result => result.2 ≤ data.length)
        (runAll data ops tail cursor) (@runAll .unbounded data ops tail cursor) :=
      fun cursor hcursor => agree_runAll
        (fun op hmem cursor hcursor => ih op hmem (within_nested.mp hwithin op hmem) hcursor)
        tail hcursor
    cases shape with
    | tuple =>
      simp only [run]
      refine .bind (Input.agree_move hcursor entry.skip) fun start hstart => ?_
      exact .bind (hbody start hstart) fun result hresult => .ok hresult
    | fixedArray size =>
      simp only [run]
      refine .bind (Input.agree_move hcursor entry.skip) fun start hstart => ?_
      exact .bind (hbody start hstart) fun result hresult => .ok hresult
    | dynamicArray =>
      simp only [run]
      refine .bind (Input.agree_move hcursor entry.skip) fun start hstart => ?_
      refine .bind (Input.agree_readHeader hinput hstart) ?_
      rintro ⟨count, next⟩ hnext
      refine .guard fun _ => ?_
      exact .bind (agree_repeatRun hbody count hnext) fun result hresult => .ok hresult

end Op

/-- In an address space with room, an aligned program yields what it does without an end
of addresses. -/
theorem Program.Aligned.run_eq_unbounded {program : Program} (h : program.Aligned)
    (hwithin : program.Within reach) (hroom : Holds (data.length + reach + 32)) :
    program.run data = @Program.run .unbounded program data := by
  have hstart : 0 ≤ data.length := Nat.zero_le _
  have hbody := Op.agree_runAll (fun op hmem cursor hcursor =>
    (h op hmem).agree_run (hwithin op hmem) hroom hcursor) program.body.tail hstart
  simp only [run, Block.run, hbody.eq]

end RecordCodec
