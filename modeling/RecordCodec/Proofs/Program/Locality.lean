import RecordCodec.Program.Run
import RecordCodec.Proofs.Input.Read

/-!
# Programs on longer inputs

Words are loaded 32 bytes at a time and filled up behind the end of the input, and
counts are compared with the rest of it, so a run looks at more than it consumes.
In a program whose reads are aligned nothing of this shows: what succeeds on an
input succeeds on every longer one, with the same value and cursor. Programs need
not be compiled ones.
-/

namespace RecordCodec

namespace Outcome

variable {ε α β : Type}

/-- Where the first outcome is a success, the second one is the same. -/
def Persists (x y : Except ε α) : Prop := ∀ ⦃a⦄, x = .ok a → y = .ok a

namespace Persists

variable {x y : Except ε α}

theorem refl (x : Except ε α) : Persists x x := fun _ h => h

theorem bind {f g : α → Except ε β} (h : Persists x y) (hrest : ∀ a, Persists (f a) (g a)) :
    Persists (x >>= f) (y >>= g) := by
  intro b hb
  obtain ⟨a, ha, hfa⟩ := bind_eq_ok.mp hb
  exact bind_eq_ok.mpr ⟨a, h ha, hrest a hfa⟩

/-- A guard that lets more through, before what persists where the first one holds. -/
theorem guard {c d : Prop} [Decidable c] [Decidable d] {error other : ε} (hguard : c → d)
    (h : c → Persists x y) :
    Persists (if c then x else .error error) (if d then y else .error other) := by
  intro a ha
  split at ha
  · rename_i hc
    rw [if_pos (hguard hc)]
    exact h hc ha
  · cases ha

end Persists

end Outcome

open Outcome (Persists)

/-- A field of whole bytes that starts at a whole byte and lies inside its word. -/
structure Word.FieldAligned (shift bits : Nat) : Prop where
  start : 8 ∣ shift
  whole : 8 ∣ bits
  inside : shift + bits ≤ 256

/-- A byte string is no longer than the word that it is taken from. -/
def ElementKind.InWord : ElementKind → Prop
  | primitive _ => True
  | fixedBytes size => size ≤ 32

def Payload.Aligned : Payload → Prop
  | elements read => Word.FieldAligned read.shift read.bits ∧ read.leaf.InWord
  | _ => True

inductive Op.Aligned : Op → Prop
  | primitive {type : Primitive} {read : WordRead}
      (hread : Word.FieldAligned read.shift read.bits) : Aligned (.primitive type read)
  | fixedBytes {read : WordRead} (hread : Word.FieldAligned read.shift read.bits) :
      Aligned (.fixedBytes read)
  | lengthPrefixed {entry : Entry} {payload : Payload} (hpayload : payload.Aligned) :
      Aligned (.lengthPrefixed entry payload)
  | nested {entry : Entry} {shape : NestedShape} {body : Block Op}
      (hops : ∀ op ∈ body.ops, Aligned op) : Aligned (.nested entry shape body)

/-- All word and element reads of the program are aligned, at every depth. -/
def Program.Aligned (program : Program) : Prop := ∀ op ∈ program.body.ops, op.Aligned

section Longer

variable (data rest : Bytes)

namespace Bytes

theorem slice_append {data : Bytes} {start n : Nat} (h : start + n ≤ data.length) :
    (data ++ rest).slice start n = data.slice start n := by
  apply slice_congr
  rw [List.take_append_of_le_length h]

end Bytes

namespace Input

theorem remaining_append (cursor : Nat) :
    remaining data cursor ≤ remaining (data ++ rest) cursor := by
  unfold remaining
  rw [List.length_append]
  omega

theorem persists_move (cursor n : Nat) :
    Persists (move data cursor n) (move (data ++ rest) cursor n) := by
  refine .guard ?_ fun _ => .refl _
  intro h
  exact Nat.le_trans h (remaining_append data rest cursor)

/-- What is made from a stretch of the input, if it is there. -/
theorem persists_slice {α : Type} (make : Bytes → α) (start n : Nat) (error : ReadError) :
    Persists (if start + n ≤ data.length then .ok (make (data.slice start n)) else .error error)
      (if start + n ≤ (data ++ rest).length then .ok (make ((data ++ rest).slice start n))
        else .error error) := by
  apply Persists.guard
  · intro hinput
    rw [List.length_append]
    omega
  · intro hinput
    rw [Bytes.slice_append rest hinput]
    exact .refl _

variable {shift bits : Nat} (h : Word.FieldAligned shift bits)

include h in
theorem persists_readNumber (cursor offset : Nat) :
    Persists (readNumber data cursor offset shift bits)
      (readNumber (data ++ rest) cursor offset shift bits) := by
  obtain ⟨hshift, hbits, hinside⟩ := h
  rw [readNumber_eq data cursor offset hshift hbits hinside,
    readNumber_eq (data ++ rest) cursor offset hshift hbits hinside]
  apply persists_slice

include h in
theorem persists_readBytes (cursor offset : Nat) :
    Persists (readBytes data cursor offset shift bits)
      (readBytes (data ++ rest) cursor offset shift bits) := by
  obtain ⟨hshift, hbits, hinside⟩ := h
  rw [readBytes_eq data cursor offset hshift hbits hinside,
    readBytes_eq (data ++ rest) cursor offset hshift hbits hinside]
  apply persists_slice

theorem persists_readHeader (cursor : Nat) :
    Persists (readHeader data cursor) (readHeader (data ++ rest) cursor) := by
  have hheader : Word.FieldAligned 224 32 := ⟨by decide, by decide, by decide⟩
  apply Persists.bind (persists_readNumber data rest hheader cursor 0)
  intro field
  exact .bind (persists_move data rest cursor 4) fun _ => .refl _

/-- What is left of the input holds the same bytes in a longer one. -/
theorem copy_append {data : Bytes} {cursor n : Nat} (h : n ≤ remaining data cursor) :
    copy (data ++ rest) cursor n = copy data cursor n := by
  unfold remaining at h
  by_cases hcursor : cursor ≤ data.length
  · have hinput : cursor + n ≤ data.length := by omega
    have hlonger : cursor + n ≤ (data ++ rest).length := by
      rw [List.length_append]
      omega
    rw [copy_eq hinput, copy_eq hlonger, Bytes.slice_append rest hinput]
  · -- A cursor behind the end leaves nothing to copy.
    have hn : n = 0 := by omega
    rw [hn, copy_zero, copy_zero]

end Input

theorem ElementKind.persists_read (kind : ElementKind) (cursor offset : Nat) {shift bits : Nat}
    (h : Word.FieldAligned shift bits) :
    Persists (kind.read data cursor offset shift bits)
      (kind.read (data ++ rest) cursor offset shift bits) := by
  cases kind with
  | primitive type =>
    exact .bind (Input.persists_readNumber data rest h cursor offset) fun _ => .refl _
  | fixedBytes size =>
    exact .bind (Input.persists_readBytes data rest h cursor offset) fun _ => .refl _

theorem ElementRead.persists_readFrom (element : ElementRead)
    (h : Word.FieldAligned element.shift element.bits) (cursor count offset : Nat) :
    Persists (element.readFrom data cursor count offset)
      (element.readFrom (data ++ rest) cursor count offset) := by
  induction count generalizing offset with
  | zero => exact .refl _
  | succ count ih =>
    apply Persists.bind (element.leaf.persists_read data rest cursor offset h)
    intro first
    exact .bind (ih (offset + element.stride)) fun _ => .refl _

namespace Payload

theorem persists_read {data : Bytes} {payload : Payload} (h : payload.Aligned) (name : String)
    {count cursor : Nat} (hsize : payload.size count ≤ Input.remaining data cursor) :
    Persists (payload.read data name count cursor)
      (payload.read (data ++ rest) name count cursor) := by
  cases payload with
  | bytes =>
    change count ≤ Input.remaining data cursor at hsize
    rw [read, read, Input.copy_append rest hsize]
    exact .refl _
  | text =>
    change count ≤ Input.remaining data cursor at hsize
    rw [read, read, Input.copy_append rest hsize]
    exact .refl _
  | elements element =>
    exact .bind (element.persists_readFrom data rest h.1 cursor count 0) fun _ => .refl _

theorem persists_run {payload : Payload} (h : payload.Aligned) (name : String)
    (count cursor : Nat) :
    Persists (payload.run data name count cursor)
      (payload.run (data ++ rest) name count cursor) := by
  apply Persists.guard
  · intro hsize
    exact Nat.le_trans hsize (Input.remaining_append data rest cursor)
  · intro hsize
    apply Persists.bind (persists_read rest h name hsize)
    intro value
    exact .bind (Input.persists_move data rest cursor _) fun _ => .refl _

end Payload

namespace Op

theorem persists_repeatRun {body other : Nat → Except ReadError (List Value × Nat)}
    (h : ∀ cursor, Persists (body cursor) (other cursor)) (count cursor : Nat) :
    Persists (repeatRun body count cursor) (repeatRun other count cursor) := by
  induction count generalizing cursor with
  | zero => exact .refl _
  | succ count ih =>
    apply Persists.bind (h cursor)
    rintro ⟨first, middle⟩
    exact .bind (ih middle) fun _ => .refl _

theorem persists_runAll {ops : List Op}
    (h : ∀ op ∈ ops, ∀ cursor, Persists (op.run data cursor) (op.run (data ++ rest) cursor))
    (tail cursor : Nat) :
    Persists (runAll data ops tail cursor) (runAll (data ++ rest) ops tail cursor) := by
  induction ops generalizing cursor with
  | nil =>
    rw [runAll, runAll]
    exact .bind (Input.persists_move data rest cursor tail) fun _ => .refl _
  | cons op ops ih =>
    rw [runAll, runAll]
    apply Persists.bind (h op (by simp) cursor)
    rintro ⟨value, middle⟩
    exact .bind (ih (fun other hmem => h other (by simp [hmem])) middle) fun _ => .refl _

/-- An aligned operation that succeeds does so on every longer input. -/
theorem Aligned.persists_run {op : Op} (h : op.Aligned) (cursor : Nat) :
    Persists (op.run data cursor) (op.run (data ++ rest) cursor) := by
  induction h generalizing cursor with
  | @primitive type read hread =>
    rw [run, run]
    exact .bind (Input.persists_readNumber data rest hread cursor read.offset) fun _ => .refl _
  | @fixedBytes read hread =>
    rw [run, run]
    exact .bind (Input.persists_readBytes data rest hread cursor read.offset) fun _ => .refl _
  | @lengthPrefixed entry payload hpayload =>
    rw [run, run]
    apply Persists.bind (Input.persists_move data rest cursor entry.skip)
    intro start
    apply Persists.bind (Input.persists_readHeader data rest start)
    rintro ⟨count, next⟩
    exact payload.persists_run data rest hpayload entry.name count next
  | @nested entry shape body hops ih =>
    obtain ⟨ops, tail⟩ := body
    have hbody := persists_runAll data rest ih tail
    cases shape with
    | tuple =>
      rw [run, run]
      apply Persists.bind (Input.persists_move data rest cursor entry.skip)
      intro start
      exact .bind (hbody start) fun _ => .refl _
    | fixedArray size =>
      rw [run, run]
      apply Persists.bind (Input.persists_move data rest cursor entry.skip)
      intro start
      exact .bind (hbody start) fun _ => .refl _
    | dynamicArray =>
      rw [run, run]
      apply Persists.bind (Input.persists_move data rest cursor entry.skip)
      intro start
      apply Persists.bind (Input.persists_readHeader data rest start)
      rintro ⟨count, next⟩
      apply Persists.guard
      · intro hcount
        exact Nat.le_trans hcount (Input.remaining_append data rest next)
      · intro _
        exact .bind (persists_repeatRun hbody count next) fun _ => .refl _

end Op

end Longer

/-- An aligned program yields the same on an input and on every longer one, unless it
fails on the shorter. -/
theorem Program.Aligned.persists_run {program : Program} (h : program.Aligned)
    (data rest : Bytes) : Persists (program.run data) (program.run (data ++ rest)) := by
  refine .bind (Op.persists_runAll data rest ?_ program.body.tail 0) fun _ => .refl _
  intro op hmem cursor
  exact (h op hmem).persists_run data rest cursor

end RecordCodec
