import RecordCodec.Proofs.Program.Window

/-!
# Operations as readers

What the moving operations of a program read, once their skip is behind the cursor:
payloads come from the bytes behind their header, blocks that run once per element
are counted loops, and elements of a width are read one after the other although
the program looks them up at fixed strides.
-/

namespace RecordCodec

namespace Payload

variable {data : Bytes} {name : String} {count cursor : Nat} {payload : Payload}

theorem run_of_le (h : payload.size count ≤ Input.remaining data cursor) :
    payload.run data name count cursor = do
      let value ← payload.read data name count cursor
      return (value, cursor + payload.size count) := by
  rw [run, if_pos h]
  congr 1
  funext value
  rw [Input.move_of_le_remaining h]
  rfl

theorem run_of_not_le (h : ¬ payload.size count ≤ Input.remaining data cursor) :
    payload.run data name count cursor = .error (.lengthOverflow name count) := by
  rw [run, if_neg h]

end Payload

namespace Op

variable {data : Bytes} {cursor : Nat}

theorem run_lengthPrefixed {entry : Entry} {payload : Payload}
    (hskip : entry.skip ≤ Input.remaining data cursor) :
    (lengthPrefixed entry payload).run data cursor =
      Input.count data (cursor + entry.skip) >>= fun (n, start) =>
        payload.run data entry.name n start := by
  rw [run, Input.move_of_le_remaining hskip, Outcome.ok_bind, Input.readHeader_eq_count]

/-- A byte string or text is made from the bytes behind its header. -/
theorem run_content {entry : Entry} (payload : Payload) (content : Bytes → Except ReadError Value)
    (hsize : ∀ n, payload.size n = n)
    (hread : ∀ n cursor, payload.read data entry.name n cursor = content (Input.copy data cursor n))
    (hskip : entry.skip ≤ Input.remaining data cursor) :
    (lengthPrefixed entry payload).run data cursor = do
      let (bytes, next) ← Input.payload data entry.name (cursor + entry.skip)
      let value ← content bytes
      return (value, next) := by
  rw [run_lengthPrefixed hskip, Input.payload]
  cases hcount : Input.count data (cursor + entry.skip) with
  | error error => rfl
  | ok header =>
    obtain ⟨n, start⟩ := header
    have hstart := Input.le_of_count_eq_ok hcount
    rw [Outcome.ok_bind, Outcome.ok_bind]
    dsimp only
    have hpayload : payload.size n ≤ Input.remaining data start ↔ start + n ≤ data.length := by
      rw [hsize]
      exact Input.le_remaining_iff hstart
    by_cases hinput : start + n ≤ data.length
    · rw [Payload.run_of_le (hpayload.mpr hinput), hread, Input.copy_eq hinput, hsize,
        Input.takeOr_of_le hinput]
      rfl
    · rw [Payload.run_of_not_le (mt hpayload.mp hinput), Input.takeOr_of_not_le hinput]
      rfl

/-- Behind its skip, a block that is run as often as a header says is a loop. -/
theorem run_loop {entry : Entry} {ops : List Op} {tail : Nat}
    (hskip : entry.skip ≤ Input.remaining data cursor) :
    (nested entry .dynamicArray ⟨ops, tail⟩).run data cursor =
      Field.readLoop data entry.name 1 (runAll data ops tail) (cursor + entry.skip) := by
  simp only [run, Input.move_of_le_remaining hskip, Outcome.ok_bind, Input.readHeader_eq_count,
    Field.readLoop, Nat.mul_one]

theorem runAll_nil {tail : Nat} (htail : tail ≤ Input.remaining data cursor) :
    runAll data [] tail cursor = .ok ([], cursor + tail) := by
  simp [runAll, Input.move_of_le_remaining htail]

/-- A block of one operation without a tail. -/
theorem runAll_singleton (op : Op) : runAll data [op] 0 = Field.readOne (op.run data) := by
  funext cursor
  rw [runAll, Field.readOne]
  rfl

theorem run_counted {operation : Entry → Op} {read : String → Nat → Except ReadError (Value × Nat)}
    (h : ∀ entry cursor, entry.skip ≤ Input.remaining data cursor →
      (operation entry).run data cursor = read entry.name (cursor + entry.skip))
    (levels : Nat) (entry : Entry) (hskip : entry.skip ≤ Input.remaining data cursor) :
    (counted operation levels entry).run data cursor =
      Field.readLevels data read levels entry.name (cursor + entry.skip) := by
  induction levels generalizing entry cursor with
  | zero => exact h entry cursor hskip
  | succ levels ih =>
    have hinner : (counted operation levels ⟨entry.name ++ "[]", 0, 0⟩).run data =
        Field.readLevels data read levels (entry.name ++ "[]") := by
      funext cursor
      exact ih ⟨entry.name ++ "[]", 0, 0⟩ (Nat.zero_le _)
    rw [counted, run_loop hskip, runAll_singleton, hinner, Field.readLevels]

end Op

namespace ElementRead

/-- Reading elements at fixed strides is reading them one after the other. -/
theorem readFrom_eq {data : Bytes} {element : ElementRead} {cursor : Nat}
    {read : Nat → Except ReadError (Value × Nat)}
    (h : ∀ offset, cursor + offset + element.stride ≤ data.length → ∃ value,
      element.leaf.read data cursor offset element.shift element.bits = .ok value ∧
        read (cursor + offset) = .ok (value, cursor + offset + element.stride))
    (count offset : Nat) (hinput : cursor + offset + count * element.stride ≤ data.length) :
    ∃ values, element.readFrom data cursor count offset = .ok values ∧
      Op.repeatRun (Field.readOne read) count (cursor + offset) =
        .ok (values, cursor + offset + count * element.stride) := by
  induction count generalizing offset with
  | zero => exact ⟨[], rfl, by simp [Op.repeatRun]⟩
  | succ count ih =>
    rw [Nat.succ_mul] at hinput ⊢
    obtain ⟨first, hfirst, hread⟩ := h offset (by omega)
    obtain ⟨rest, hrest, hrepeat⟩ := ih (offset + element.stride) (by omega)
    refine ⟨first :: rest, ?_, ?_⟩
    · rw [readFrom, hfirst, Outcome.ok_bind, hrest]
      rfl
    · have hone : Field.readOne read (cursor + offset) =
          .ok ([first], cursor + offset + element.stride) := by
        rw [Field.readOne, hread]
        rfl
      rw [Op.repeatRun, hone, Outcome.ok_bind]
      dsimp only
      rw [Nat.add_assoc cursor, hrepeat, Outcome.ok_bind]
      exact congrArg (fun next => Except.ok (first :: rest, next)) (by omega)

end ElementRead

end RecordCodec
