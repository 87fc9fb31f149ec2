import RecordCodec.Proofs.Program.Operation

/-!
# Two ways to read counted elements

Elements of a fixed width can be read in two ways. Read directly, the space of all of
them is checked once and each is looked up at its stride from a cursor that stands
still. Read in a loop, their number is checked, each is looked up where the cursor
stands, and the cursor moves on by the stride behind each.

Both ways take the same inputs to the same array and the same cursor, for any field
of the word, also one that reaches past its stride or leaves some of it out. Only
which error stops them can differ, since a loop begins to read elements although the
last of them are missing.
-/

namespace RecordCodec

namespace ElementRead

/-- The word read of one element where the cursor stands. -/
def op (element : ElementRead) (name : String) (slot : Nat) : Op :=
  match element.leaf with
  | .primitive type => .primitive type ⟨name, slot, 0, element.shift, element.bits⟩
  | .fixedBytes _ => .fixedBytes ⟨name, slot, 0, element.shift, element.bits⟩

/-- An element that is a byte string has the bytes of its field. -/
def Sized (element : ElementRead) : Prop :=
  ∀ size, element.leaf = .fixedBytes size → size = element.bits / 8

variable {element : ElementRead} {data : Bytes} {cursor : Nat} {name : String} {slot : Nat}

theorem run_op (hsized : element.Sized) (offset : Nat) :
    (element.op name slot).run data (cursor + offset) = do
      let value ← element.leaf.read data cursor offset element.shift element.bits
      return (value, cursor + offset) := by
  obtain ⟨leaf, stride, shift, bits⟩ := element
  cases leaf with
  | primitive type =>
    change (Input.readNumber data cursor offset shift bits >>= _) =
      (Input.readNumber data cursor offset shift bits >>= _) >>= _
    cases Input.readNumber data cursor offset shift bits <;> rfl
  | fixedBytes size =>
    have hsize : size = bits / 8 := hsized size rfl
    subst hsize
    change (Input.readBytes data cursor offset shift bits >>= _) =
      (Input.readBytes data cursor offset shift bits >>= _) >>= _
    cases Input.readBytes data cursor offset shift bits <;> rfl

/-- One round of the loop, if its stride lies inside the input. -/
theorem runAll_op (hsized : element.Sized) {offset : Nat}
    (hstride : element.stride ≤ Input.remaining data (cursor + offset)) :
    Op.runAll data [element.op name slot] element.stride (cursor + offset) = do
      let value ← element.leaf.read data cursor offset element.shift element.bits
      return ([value], cursor + offset + element.stride) := by
  rw [Op.runAll, run_op hsized]
  cases element.leaf.read data cursor offset element.shift element.bits with
  | error error => rfl
  | ok value =>
    simp only [Outcome.ok_bind, Outcome.pure_eq_ok, Op.runAll,
      Input.move_of_le_remaining hstride]

/-- A round that succeeds moves by the stride, inside the input. -/
theorem runAll_op_eq_ok {start next : Nat} {values : List Value}
    (h : Op.runAll data [element.op name slot] element.stride start = .ok (values, next)) :
    next = start + element.stride ∧ element.stride ≤ Input.remaining data start := by
  have hstay : ∀ value after, (element.op name slot).run data start = .ok (value, after) →
      after = start := by
    intro value after hrun
    unfold op at hrun
    split at hrun
    all_goals
      rw [Op.run] at hrun
      obtain ⟨field, _, hrun⟩ := Outcome.bind_eq_ok.mp hrun
      cases hrun
      rfl
  rw [Op.runAll] at h
  obtain ⟨⟨value, after⟩, hrun, h⟩ := Outcome.bind_eq_ok.mp h
  obtain ⟨⟨rest, last⟩, hrest, h⟩ := Outcome.bind_eq_ok.mp h
  cases h
  rw [Op.runAll] at hrest
  obtain ⟨moved, hmove, hrest⟩ := Outcome.bind_eq_ok.mp hrest
  cases hrest
  rw [hstay value after hrun] at hmove
  obtain ⟨hstride, hnext⟩ := Input.move_eq_ok.mp hmove
  exact ⟨hnext, hstride⟩

/-- If the strides of all rounds lie inside the input, the loop reads the elements one
after the other, and stops at the same error. -/
theorem repeatRun_op (hsized : element.Sized) (name : String) (slot count offset : Nat)
    (hinput : cursor + offset + count * element.stride ≤ data.length) :
    Op.repeatRun (Op.runAll data [element.op name slot] element.stride) count (cursor + offset) = do
      let items ← element.readFrom data cursor count offset
      return (items, cursor + offset + count * element.stride) := by
  induction count generalizing offset with
  | zero => simp [Op.repeatRun, readFrom]
  | succ count ih =>
    rw [Nat.succ_mul] at hinput
    have hstride : element.stride ≤ Input.remaining data (cursor + offset) :=
      (Input.le_remaining_iff (by omega)).mpr (by omega)
    have hrest := ih (offset + element.stride) (by omega)
    rw [← Nat.add_assoc] at hrest
    rw [Op.repeatRun, runAll_op hsized hstride, readFrom]
    cases element.leaf.read data cursor offset element.shift element.bits with
    | error error => rfl
    | ok first =>
      simp only [Outcome.ok_bind, Outcome.pure_eq_ok, hrest]
      cases element.readFrom data cursor count (offset + element.stride) with
      | error error => rfl
      | ok rest =>
        have hnext : cursor + offset + element.stride + count * element.stride =
            cursor + offset + (count + 1) * element.stride := by
          rw [Nat.succ_mul]
          omega
        simp [hnext]

/-- A loop that succeeds has moved by as many strides, inside the input. -/
theorem repeatRun_op_eq_ok {count start next : Nat} {values : List Value}
    (hstart : start ≤ data.length)
    (h : Op.repeatRun (Op.runAll data [element.op name slot] element.stride) count start =
      .ok (values, next)) : start + count * element.stride ≤ data.length := by
  induction count generalizing start values next with
  | zero => omega
  | succ count ih =>
    rw [Op.repeatRun] at h
    obtain ⟨⟨first, middle⟩, hfirst, h⟩ := Outcome.bind_eq_ok.mp h
    obtain ⟨⟨rest, last⟩, hrest, _⟩ := Outcome.bind_eq_ok.mp h
    obtain ⟨hmiddle, hstride⟩ := runAll_op_eq_ok hfirst
    have hinput := (Input.le_remaining_iff hstart).mp hstride
    have hothers := ih (by omega) hrest
    rw [hmiddle] at hothers
    rw [Nat.succ_mul]
    omega

end ElementRead

/-- Both fail, or both yield the same array and leave the cursor at the same place. -/
def SameArray (x y : Except ReadError (Value × Nat)) : Prop :=
  (∃ error other, x = .error error ∧ y = .error other) ∨
    ∃ items next, x = .ok (.array items, next) ∧ y = .ok (.array items, next)

/-- What two ways have in common before they part. -/
theorem SameArray.bind {α : Type} {x : Except ReadError α}
    {f g : α → Except ReadError (Value × Nat)} (h : ∀ a, x = .ok a → SameArray (f a) (g a)) :
    SameArray (x >>= f) (x >>= g) := by
  cases x with
  | error error => exact .inl ⟨error, error, rfl, rfl⟩
  | ok a => exact h a rfl

namespace ElementRead

variable {element : ElementRead} {data : Bytes} {start : Nat}

/-- Behind the header, with a cursor inside the input. A stride of at least one byte makes
the number of elements no more than the space of them. -/
theorem sameArray_payload (hstride : 1 ≤ element.stride) (hsized : element.Sized)
    (hstart : start ≤ data.length) (name loopName itemName : String) (slot count : Nat) :
    SameArray ((Payload.elements element).run data name count start)
      (if count ≤ Input.remaining data start then do
        let (items, next) ← Op.repeatRun
          (Op.runAll data [element.op itemName slot] element.stride) count start
        return (.array items, next)
      else .error (.lengthOverflow loopName count)) := by
  by_cases hsize : count * element.stride ≤ Input.remaining data start
  · have hcount : count ≤ Input.remaining data start :=
      Nat.le_trans (Nat.le_mul_of_pos_right count hstride) hsize
    have hpayload : (Payload.elements element).size count ≤ Input.remaining data start := hsize
    have hloop := repeatRun_op hsized itemName slot count 0
      ((Input.le_remaining_iff hstart).mp hsize)
    rw [Nat.add_zero] at hloop
    rw [Payload.run_of_le hpayload, Payload.read, if_pos hcount, hloop]
    cases element.readFrom data start count 0 with
    | error error => exact .inl ⟨error, error, rfl, rfl⟩
    | ok items => exact .inr ⟨items, _, rfl, rfl⟩
  · -- The loop can start, but not all of its rounds can succeed.
    have hpayload : ¬ (Payload.elements element).size count ≤ Input.remaining data start := hsize
    rw [Payload.run_of_not_le hpayload]
    split
    · cases hloop : Op.repeatRun (Op.runAll data [element.op itemName slot] element.stride) count
          start with
      | error error => exact .inl ⟨_, error, rfl, rfl⟩
      | ok result =>
        obtain ⟨items, next⟩ := result
        exact absurd ((Input.le_remaining_iff hstart).mpr (repeatRun_op_eq_ok hstart hloop)) hsize
    · exact .inl ⟨_, _, rfl, rfl⟩

end ElementRead

namespace Op

/-- Counted elements are read directly as they are in a loop. -/
theorem run_elements_sameArray_loop (element : ElementRead) (hstride : 1 ≤ element.stride)
    (hsized : element.Sized) (data : Bytes) (cursor skip : Nat) (name loopName itemName : String)
    (slot loopSlot itemSlot : Nat) :
    SameArray ((lengthPrefixed ⟨name, slot, skip⟩ (.elements element)).run data cursor)
      ((nested ⟨loopName, loopSlot, skip⟩ .dynamicArray
        ⟨[element.op itemName itemSlot], element.stride⟩).run data cursor) := by
  rw [run, run]
  apply SameArray.bind
  intro behind _
  apply SameArray.bind
  rintro ⟨count, start⟩ hheader
  rw [Input.readHeader_eq] at hheader
  obtain ⟨hinput, hstart⟩ := Outcome.check_eq_ok.mp hheader
  cases hstart
  exact element.sameArray_payload hstride hsized hinput name loopName itemName itemSlot _

/-- Signed numbers of two bytes that overlap, since the next one starts a byte further on. -/
theorem run_overlapping_elements :
    ∃ element : ElementRead, element = ⟨.primitive (.int 16), 1, 240, 16⟩ ∧
      1 ≤ element.stride ∧ element.Sized ∧
      (lengthPrefixed ⟨"v", 0, 1⟩ (.elements element)).run [9, 0, 0, 0, 2, 1, 255, 254] 0 =
        .ok (.array [.int 511, .int (-2)], 7) ∧
      (nested ⟨"v", 0, 1⟩ .dynamicArray ⟨[element.op "v[]" 0], element.stride⟩).run
        [9, 0, 0, 0, 2, 1, 255, 254] 0 = .ok (.array [.int 511, .int (-2)], 7) := by
  have hsized : (⟨.primitive (.int 16), 1, 240, 16⟩ : ElementRead).Sized := by
    intro size hleaf
    cases hleaf
  have hdirect : (lengthPrefixed ⟨"v", 0, 1⟩ (.elements ⟨.primitive (.int 16), 1, 240, 16⟩)).run
      [9, 0, 0, 0, 2, 1, 255, 254] 0 = .ok (.array [.int 511, .int (-2)], 7) := by rfl
  refine ⟨_, rfl, Nat.le_refl 1, hsized, hdirect, ?_⟩
  rcases run_elements_sameArray_loop _ (Nat.le_refl 1) hsized [9, 0, 0, 0, 2, 1, 255, 254] 0 1
    "v" "v" "v[]" 0 0 0 with ⟨error, _, herror, _⟩ | ⟨items, next, hitems, hloop⟩
  · rw [hdirect] at herror
    cases herror
  · rw [hdirect] at hitems
    rw [hloop, hitems]

end Op

end RecordCodec
