import RecordCodec.Proofs.Input.Read
import RecordCodec.Proofs.Reading.Unrolling

/-!
# Parts of the wire

A shape lays out the input as parts, one behind the other: leaves of a fixed width,
headers with their counts, and texts. Where a part starts depends on the parts before it,
so the parts are listed as far as a direct reader comes.

Reading a field tree stops at the first part that is not complete, and its error says
what is wrong with that part. So errors know nothing of windows or skips: an input that
ends too early is reported at the leaf or header in which it ends, a header that counts
more than the rest of the input can hold is reported with its count, and a text that is
all there is reported only if it is not well formed.
-/

namespace RecordCodec

/-- A part of the wire, by where it starts in the input. -/
inductive Part where
  /-- A leaf of a fixed width, in bytes. -/
  | leaf (start width : Nat)
  /-- A four-byte header, each unit counted by which takes at least `unit` bytes. -/
  | header (start unit : Nat)
  /-- The bytes of a text. -/
  | text (start length : Nat)
  deriving DecidableEq, Repr

namespace Part

/-- The part lies inside the input. What a header counts can do so too, and a text is
well formed. -/
def Complete (data : Bytes) : Part → Prop
  | leaf start width => start + width ≤ data.length
  | header start unit =>
    start + 4 ≤ data.length ∧ (data.slice start 4).toNat * unit ≤ data.length - (start + 4)
  | text start length =>
    start + length ≤ data.length ∧ Text.ofUtf8? (data.slice start length) ≠ none

/-- What an error reports of a part. -/
inductive Fault (data : Bytes) : Part → ReadError → Prop
  /-- The input ends in the leaf. -/
  | leaf {start width : Nat} (hstart : start ≤ data.length)
      (hend : data.length < start + width) :
      Fault data (.leaf start width) (.outOfBounds start width)
  /-- The input ends in the header. -/
  | header {start unit : Nat} (hstart : start ≤ data.length) (hend : data.length < start + 4) :
      Fault data (.header start unit) (.outOfBounds start 4)
  /-- The units counted take more than the bytes behind the header. -/
  | count {start unit : Nat} {field : String} (hheader : start + 4 ≤ data.length)
      (hcount : data.length - (start + 4) < (data.slice start 4).toNat * unit) :
      Fault data (.header start unit) (.lengthOverflow field (data.slice start 4).toNat)
  /-- All bytes of the text are there, but they are not well formed. -/
  | text {start length : Nat} {field : String} (hinput : start + length ≤ data.length)
      (htext : Text.ofUtf8? (data.slice start length) = none) :
      Fault data (.text start length) (.invalidUtf8 field)

theorem Fault.not_complete {data : Bytes} {part : Part} {error : ReadError}
    (h : part.Fault data error) : ¬ part.Complete data := by
  intro hcomplete
  cases h with
  | leaf hstart hend => exact Nat.not_le_of_lt hend hcomplete
  | header hstart hend => exact Nat.not_le_of_lt hend hcomplete.1
  | count hheader hcount => exact Nat.not_le_of_lt hcount hcomplete.2
  | text hinput htext => exact hcomplete.2 htext

end Part

/-- The parts behind something that is read, if it can be. -/
def Part.behind {α : Type} (read : Option (α × Nat)) (parts : α → Nat → List Part) : List Part :=
  match read with
  | some (a, next) => parts a next
  | none => []

def Leaf.wire (data : Bytes) (cursor : Nat) : Leaf → List Part
  | primitive type => [.leaf cursor (type.bitSize / 8)]
  | fixedBytes size => [.leaf cursor size]
  | bytes => [.header cursor 1]
  | string =>
    .header cursor 1 :: Part.behind (Input.count? data cursor) fun length start =>
      [.text start length]

namespace Shape

def wireElements (read? : Nat → Option (Value × Nat)) (wire : Nat → List Part) :
    (count cursor : Nat) → List Part
  | 0, _ => []
  | count + 1, cursor =>
    wire cursor ++ Part.behind (read? cursor) fun _ next => wireElements read? wire count next

/-- The parts of an array over elements of at least `unit` bytes. -/
def wireArray (data : Bytes) (dim : Dimension) (unit : Nat) (read? : Nat → Option (Value × Nat))
    (wire : Nat → List Part) (cursor : Nat) : List Part :=
  match dim with
  | .fixed size => wireElements read? wire size cursor
  | .dynamic =>
    .header cursor unit :: Part.behind (Input.count? data cursor) fun count start =>
      wireElements read? wire count start

mutual

/-- The parts of a shape from the cursor on, in wire order. -/
def wire (data : Bytes) : Shape → (cursor : Nat) → List Part
  | leaf type, cursor => type.wire data cursor
  | tuple components, cursor => wireComponents data components cursor
  | array dim element, cursor =>
    wireArray data dim element.unit (element.read? data) (element.wire data) cursor

def wireComponents (data : Bytes) : List (String × Shape) → (cursor : Nat) → List Part
  | [], _ => []
  | (_, shape) :: components, cursor =>
    shape.wire data cursor ++ Part.behind (shape.read? data cursor) fun _ next =>
      wireComponents data components next

end

/-- The parts of an input. The elements of an outermost dynamic array are counted as one
byte each, also if they have a width. -/
def rootWire (data : Bytes) : Shape → List Part
  | array .dynamic element =>
    wireArray data .dynamic 1 (element.read? data) (element.wire data) 0
  | shape => shape.wire data 0

end Shape

/-- The error reports the first part that is not complete. -/
def FirstFault (data : Bytes) (parts : List Part) (error : ReadError) : Prop :=
  ∃ front part rest, parts = front ++ part :: rest ∧ (∀ other ∈ front, other.Complete data) ∧
    part.Fault data error

/-- A success has read complete parts only, and an error reports the first that is not. -/
inductive Accounts {α : Type} (data : Bytes) : Except ReadError (α × Nat) → List Part → Prop
  | ok {a : α} {next : Nat} {parts : List Part} (hnext : next ≤ data.length)
      (hparts : ∀ part ∈ parts, part.Complete data) : Accounts data (.ok (a, next)) parts
  | error {error : ReadError} {parts : List Part} (h : FirstFault data parts error) :
      Accounts data (.error error) parts

/-- Wherever the reader starts, the parts from there on account for its outcome. -/
def Explains {α : Type} (data : Bytes) (read : Nat → Except ReadError (α × Nat))
    (wire : Nat → List Part) : Prop :=
  ∀ ⦃cursor⦄, cursor ≤ data.length → Accounts data (read cursor) (wire cursor)

theorem FirstFault.exists_not_complete {data : Bytes} {parts : List Part} {error : ReadError}
    (h : FirstFault data parts error) : ∃ part ∈ parts, ¬ part.Complete data := by
  obtain ⟨part, hmem, hpart⟩ := FirstFailure.exists_mem h
  exact ⟨part, hmem, hpart.not_complete⟩

theorem FirstFault.append {data : Bytes} {parts : List Part} {error : ReadError}
    (h : FirstFault data parts error) (others : List Part) :
    FirstFault data (parts ++ others) error :=
  FirstFailure.append h others

theorem FirstFault.behind {data : Bytes} {parts : List Part} {error : ReadError}
    (h : FirstFault data parts error) {complete : List Part}
    (hcomplete : ∀ part ∈ complete, part.Complete data) :
    FirstFault data (complete ++ parts) error :=
  FirstFailure.behind h hcomplete

namespace Accounts

variable {α β : Type} {data : Bytes}

theorem behind {x : Except ReadError (α × Nat)} {front back : List Part}
    (hfront : ∀ part ∈ front, part.Complete data) (h : Accounts data x back) :
    Accounts data x (front ++ back) := by
  cases h with
  | ok hnext hback =>
    refine .ok hnext ?_
    intro part hmem
    rcases List.mem_append.mp hmem with hmem | hmem
    · exact hfront part hmem
    · exact hback part hmem
  | error h => exact .error (h.behind hfront)

/-- What is read next accounts for the parts that follow. -/
theorem bind {x : Except ReadError (α × Nat)} {f : α × Nat → Except ReadError (β × Nat)}
    {front back : List Part} (h : Accounts data x front)
    (hnext : ∀ a next, x = .ok (a, next) → next ≤ data.length →
      Accounts data (f (a, next)) back) :
    Accounts data (x >>= f) (front ++ back) := by
  cases h with
  | ok hinput hfront => exact (hnext _ _ rfl hinput).behind hfront
  | error h => exact .error (h.append back)

/-- What follows depends on what was read, as it does for a reader that agrees. -/
theorem bind_behind {x : Except ReadError (α × Nat)} {read? : Option (α × Nat)}
    {f : α × Nat → Except ReadError (β × Nat)} {front : List Part}
    {parts : α → Nat → List Part} (h : Accounts data x front) (hagrees : x.toOption = read?)
    (hnext : ∀ a next, next ≤ data.length → Accounts data (f (a, next)) (parts a next)) :
    Accounts data (x >>= f) (front ++ Part.behind read? parts) := by
  refine h.bind ?_
  rintro a next rfl hinput
  rw [← hagrees]
  exact hnext a next hinput

/-- Changing what was read changes neither its end nor its parts. -/
theorem map {x : Except ReadError (α × Nat)} {parts : List Part} (h : Accounts data x parts)
    (f : α → β) : Accounts data (x >>= fun (a, next) => .ok (f a, next)) parts := by
  cases h with
  | ok hnext hparts => exact .ok hnext hparts
  | error h => exact .error h

end Accounts

theorem Input.accounts_take {data : Bytes} {cursor : Nat} (hcursor : cursor ≤ data.length)
    (width : Nat) : Accounts data (take data cursor width) [.leaf cursor width] := by
  by_cases hinput : cursor + width ≤ data.length
  · rw [take, takeOr_of_le hinput]
    exact .ok hinput (List.forall_mem_singleton.mpr hinput)
  · rw [take, takeOr_of_not_le hinput]
    exact .error ⟨[], _, [], rfl, by simp, .leaf hcursor (by omega)⟩

/-- Behind a header, whatever is read once the count has been checked. -/
theorem Input.accounts_count {data : Bytes} {cursor : Nat} (hcursor : cursor ≤ data.length)
    (name : String) (unit : Nat) {α : Type} (f : Nat → Nat → Except ReadError (α × Nat))
    {parts : List Part}
    (h : ∀ n start, count? data cursor = some (n, start) → n * unit ≤ remaining data start →
      Accounts data (f n start) parts) :
    Accounts data
      (count data cursor >>= fun (n, start) =>
        if n * unit ≤ remaining data start then f n start else .error (.lengthOverflow name n))
      (.header cursor unit :: parts) := by
  by_cases hinput : cursor + 4 ≤ data.length
  · have hcount : count data cursor = .ok ((data.slice cursor 4).toNat, cursor + 4) := by
      rw [count, take, takeOr_of_le hinput]
      rfl
    rw [hcount, Outcome.ok_bind]
    dsimp only
    split
    · rename_i hsize
      have hheader : ∀ part ∈ [Part.header cursor unit], part.Complete data :=
        List.forall_mem_singleton.mpr ⟨hinput, hsize⟩
      have hparts := h _ _ (count?_eq_some.mpr ⟨hinput, rfl, rfl⟩) hsize
      exact Accounts.behind hheader hparts
    · rename_i hsize
      rw [remaining] at hsize
      exact .error ⟨[], _, parts, rfl, by simp, .count hinput (by omega)⟩
  · have hcount : count data cursor = .error (.outOfBounds cursor 4) := by
      rw [count, take, takeOr_of_not_le hinput]
      rfl
    rw [hcount]
    exact .error ⟨[], _, parts, rfl, by simp, .header hcursor (by omega)⟩

namespace Input

/-- A payload is there if its header counts no more than the rest of the input. -/
theorem payload_eq (data : Bytes) (name : String) (cursor : Nat) :
    payload data name cursor =
      count data cursor >>= fun (n, start) =>
        if n * 1 ≤ remaining data start then .ok (data.slice start n, start + n)
        else .error (.lengthOverflow name n) := by
  rw [payload]
  cases hcount : count data cursor with
  | error error => rfl
  | ok header =>
    obtain ⟨n, start⟩ := header
    obtain ⟨hinput, _, hstart⟩ :=
      count?_eq_some.mp ((toOption_count data cursor).symm.trans (congrArg _ hcount))
    rw [Outcome.ok_bind, Outcome.ok_bind]
    dsimp only
    have hroom : n * 1 ≤ remaining data start ↔ start + n ≤ data.length := by
      rw [Nat.mul_one]
      exact le_remaining_iff (by omega)
    split
    · rename_i hsize
      exact takeOr_of_le (hroom.mp hsize)
    · rename_i hsize
      exact takeOr_of_not_le (mt hroom.mpr hsize)

theorem accounts_payload {data : Bytes} {cursor : Nat} (hcursor : cursor ≤ data.length)
    (name : String) : Accounts data (payload data name cursor) [.header cursor 1] := by
  rw [payload_eq]
  refine accounts_count hcursor name 1 (fun n start => .ok (data.slice start n, start + n)) ?_
  intro n start hcount hsize
  obtain ⟨hinput, _, hstart⟩ := count?_eq_some.mp hcount
  refine .ok ?_ (by simp)
  rw [remaining] at hsize
  omega

end Input

theorem Text.accounts_read {data : Bytes} {start length : Nat}
    (hinput : start + length ≤ data.length) (name : String) :
    Accounts data
      (read name (data.slice start length) >>= fun text => .ok (text, start + length))
      [.text start length] := by
  rw [read]
  cases htext : ofUtf8? (data.slice start length) with
  | some text =>
    exact .ok hinput (List.forall_mem_singleton.mpr ⟨hinput, by simp [htext]⟩)
  | none => exact .error ⟨[], _, [], rfl, by simp, .text hinput htext⟩

namespace Leaf

theorem explains_read (data : Bytes) (name : String) (type : Leaf) :
    Explains data (type.read data name ·) (type.wire data ·) := by
  intro cursor hcursor
  cases type with
  | primitive type => exact (Input.accounts_take hcursor _).map _
  | fixedBytes size => exact (Input.accounts_take hcursor _).map _
  | bytes => exact (Input.accounts_payload hcursor name).map _
  | string =>
    refine (Input.accounts_payload hcursor name).bind ?_
    intro payload next hpayload _
    -- The text stands behind the header that was read with it.
    obtain ⟨n, start, hcount, htake⟩ := Input.payload?_eq_some.mp
      ((Input.toOption_payload data name cursor).symm.trans (congrArg _ hpayload))
    obtain ⟨hinput, rfl, rfl⟩ := Input.take?_eq_some.mp htake
    rw [hcount]
    exact Text.accounts_read hinput name

end Leaf

namespace Field

variable {data : Bytes} {read : Nat → Except ReadError (Value × Nat)}
variable {read? : Nat → Option (Value × Nat)} {wire : Nat → List Part}

theorem explains_repeatRun (h : Explains data read wire) (hagrees : Agrees read read?)
    (count : Nat) :
    Explains data (Op.repeatRun (readOne read) count) (Shape.wireElements read? wire count) := by
  induction count with
  | zero =>
    intro cursor hcursor
    exact .ok hcursor (by simp [Shape.wireElements])
  | succ count ih =>
    intro cursor hcursor
    rw [Op.repeatRun, Shape.wireElements, readOne, bind_assoc]
    refine (h hcursor).bind_behind (hagrees cursor) ?_
    intro first next hnext
    exact (ih hnext).map _

theorem explains_readLoop (h : Explains data read wire) (hagrees : Agrees read read?)
    (unit : Nat) (name : String) :
    Explains data (readLoop data name unit (readOne read))
      (Shape.wireArray data .dynamic unit read? wire) := by
  intro cursor hcursor
  refine Input.accounts_count hcursor name unit (fun n start =>
    Op.repeatRun (readOne read) n start >>= fun result => .ok (Value.array result.1, result.2)) ?_
  intro n start hcount _
  obtain ⟨hinput, _, hstart⟩ := Input.count?_eq_some.mp hcount
  rw [hcount]
  exact (explains_repeatRun h hagrees n (by omega)).map _

end Field

namespace Shape

variable {data : Bytes} {shape : Shape}

theorem read?_dynamic (data : Bytes) (element : Shape) :
    (array .dynamic element).read? data = readArray? data .dynamic (element.read? data) := by
  funext cursor
  rw [read?]

theorem wire_dynamic (data : Bytes) (element : Shape) :
    (array .dynamic element).wire data =
      wireArray data .dynamic element.unit (element.read? data) (element.wire data) := by
  funext cursor
  rw [wire]

/-- Loops around loops are read as the dimensions they stand for. -/
theorem read?_iterate (data : Bytes) (shape : Shape) (run : Nat) :
    ((array .dynamic)^[run] shape).read? data =
      (readArray? data .dynamic)^[run] (shape.read? data) := by
  induction run with
  | zero => rfl
  | succ run ih =>
    rw [Function.iterate_succ_apply', Function.iterate_succ_apply', read?_dynamic, ih]

theorem unit_iterate_dynamic (element : Shape) (run : Nat) :
    ((array .dynamic)^[run] (array .dynamic element)).unit = 1 := by
  cases run with
  | zero => rfl
  | succ run =>
    rw [Function.iterate_succ_apply']
    rfl

theorem explains_readLevels {readArray : String → Nat → Except ReadError (Value × Nat)}
    {element : Shape}
    (h : ∀ name, Explains data (readArray name) ((array .dynamic element).wire data))
    (hagrees : ∀ name, Agrees (readArray name) ((array .dynamic element).read? data))
    (hforward : Advances data 1 ((array .dynamic element).read? data)) (levels : Nat)
    (name : String) :
    Explains data (Field.readLevels data readArray levels name)
      (((array .dynamic)^[levels] (array .dynamic element)).wire data) := by
  induction levels generalizing name with
  | zero => exact h name
  | succ levels ih =>
    have hinner := Field.agrees_readLevels hagrees hforward levels (name ++ "[]")
    rw [← read?_iterate] at hinner
    have hloop := Field.explains_readLoop (ih (name ++ "[]")) hinner 1 name
    rw [Function.iterate_succ_apply', wire_dynamic, unit_iterate_dynamic]
    exact hloop

theorem explains_collapse {element : String → Field}
    (h : ∀ name, Explains data ((element name).read data) (shape.wire data))
    (hagrees : ∀ name, Agrees ((element name).read data) (shape.read? data))
    (hunit : ∀ name, (element name).unit = shape.unit)
    (hforward : Advances data shape.unit (shape.read? data)) (run : Nat) (name : String) :
    Explains data ((collapse run name element).read data)
      (((array .dynamic)^[run] shape).wire data) := by
  cases run with
  | zero => exact h name
  | succ extra =>
    have hloop : ∀ label, Explains data (Field.readArray data [element (name ++ "[]")] label)
        ((array .dynamic shape).wire data) := by
      intro label
      rw [wire_dynamic, ← hunit (name ++ "[]")]
      exact Field.explains_readLoop (h _) (hagrees _) _ label
    have hread : ∀ label, Agrees (Field.readArray data [element (name ++ "[]")] label)
        ((array .dynamic shape).read? data) := by
      intro label
      rw [← hunit (name ++ "[]")] at hforward
      rw [read?_dynamic]
      exact Field.agrees_readLoop (hagrees _) hforward label
    have hone : Advances data 1 ((array .dynamic shape).read? data) := by
      rw [read?_dynamic]
      exact Field.advances_readArray? hforward
    rw [Function.iterate_succ_apply]
    exact explains_readLevels hloop hread hone extra name

theorem explains_readAll_unrollAll {components : List (String × Shape)}
    (h : ∀ component ∈ components, ∀ name,
      Explains data ((component.2.unrollIn 0 name).read data) (component.2.wire data))
    (hagrees : ∀ component ∈ components, ∀ name,
      Agrees ((component.2.unrollIn 0 name).read data) (component.2.read? data)) :
    Explains data (Field.readAll data (unrollAll components)) (wireComponents data components) := by
  induction components with
  | nil =>
    intro cursor hcursor
    rw [unrollAll, Field.readAll, wireComponents]
    exact .ok hcursor (by simp)
  | cons component components ih =>
    intro cursor hcursor
    obtain ⟨name, shape⟩ := component
    rw [unrollAll, Field.readAll, wireComponents]
    refine (h (name, shape) (by simp) name hcursor).bind_behind
      (hagrees (name, shape) (by simp) name cursor) ?_
    intro first next hnext
    have hrest := ih (fun other hmem => h other (by simp [hmem]))
      (fun other hmem => hagrees other (by simp [hmem])) hnext
    exact hrest.map _

theorem explains_readAll_map
    (h : ∀ name, Explains data ((shape.unrollIn 0 name).read data) (shape.wire data))
    (hagrees : ∀ name, Agrees ((shape.unrollIn 0 name).read data) (shape.read? data))
    (label : Nat → String) (indices : List Nat) :
    Explains data (Field.readAll data (indices.map fun i => shape.unrollIn 0 (label i)))
      (wireElements (shape.read? data) (shape.wire data) indices.length) := by
  induction indices with
  | nil =>
    intro cursor hcursor
    rw [List.map_nil, Field.readAll]
    exact .ok hcursor (by simp [wireElements])
  | cons i indices ih =>
    intro cursor hcursor
    rw [List.map_cons, Field.readAll, List.length_cons, wireElements]
    refine (h (label i) hcursor).bind_behind (hagrees (label i) cursor) ?_
    intro first next hnext
    exact (ih hnext).map _

/-- Inside `run` dynamic dimensions, the parts of as many loops over a shape account
for the outcome of reading its field tree. -/
theorem WellFormed.explains_unrollIn (hshape : shape.WellFormed) (data : Bytes) (run : Nat)
    (name : String) :
    Explains data ((shape.unrollIn run name).read data)
      (((Shape.array .dynamic)^[run] shape).wire data) := by
  induction hshape generalizing run name with
  | @leaf type htype =>
    have hagrees := (WellFormed.leaf htype).agrees_unrollIn data 0
    have hread : ∀ name, Explains data ((Field.plain name (.leaf type) []).read data)
        ((Shape.leaf type).wire data) := by
      intro name cursor hcursor
      rw [wire]
      exact Leaf.explains_read data name type hcursor
    have hunit : ∀ name, (Field.plain name (.leaf type) []).unit = (Shape.leaf type).unit := by
      intro name
      cases type <;> rfl
    rw [unrollIn]
    exact explains_collapse hread hagrees hunit ((WellFormed.leaf htype).advances data) run name
  | @tuple components hne hcomponents ih =>
    have hagrees := (WellFormed.tuple hne hcomponents).agrees_unrollIn data 0
    have hread : ∀ name, Explains data ((Field.plain name .tuple (unrollAll components)).read data)
        ((Shape.tuple components).wire data) := by
      intro name cursor hcursor
      rw [wire, Field.plain, Field.read]
      have hitems := explains_readAll_unrollAll (fun component hmem => ih component hmem 0)
        (fun component hmem => (hcomponents component hmem).agrees_unrollIn data 0) hcursor
      exact hitems.map _
    rw [unrollIn]
    exact explains_collapse hread hagrees (fun _ => rfl)
      ((WellFormed.tuple hne hcomponents).advances data) run name
  | @array dim element hdim helement ih =>
    cases dim with
    | fixed size =>
      have hagrees := (WellFormed.array hdim helement).agrees_unrollIn data 0
      have hread : ∀ name, Explains data ((Field.plain name (.fixedArray size)
          ((List.range size).map fun i => element.unrollIn 0 (elementName name i))).read data)
          ((Shape.array (.fixed size) element).wire data) := by
        intro name cursor hcursor
        have hitems := explains_readAll_map (ih 0) (helement.agrees_unrollIn data 0)
          (elementName name) (List.range size) hcursor
        rw [List.length_range] at hitems
        rw [wire, Field.plain, Field.read]
        exact hitems.map _
      rw [unrollIn]
      exact explains_collapse hread hagrees (fun _ => rfl)
        ((WellFormed.array hdim helement).advances data) run name
    | dynamic =>
      rw [unrollIn, ← Function.iterate_succ_apply]
      exact ih (run + 1) name

theorem rootWire_eq_wire (h : ∀ element, shape = array .dynamic element → element.isCounted = true)
    (data : Bytes) : shape.rootWire data = shape.wire data 0 := by
  unfold rootWire
  split
  · rename_i element
    have hunit : element.unit = 1 := by
      have hcounted := h element rfl
      cases element with
      | leaf type => cases hcounted
      | tuple components => rfl
      | array dim inner => rfl
    rw [wire_dynamic, hunit]
  · rfl

/-- The parts of an input account for the outcome of reading a root. -/
theorem WellFormed.accounts_readRoot (hshape : shape.WellFormed) (data : Bytes) (name : String) :
    Accounts data ((shape.unroll name).readRoot data name) (shape.rootWire data) := by
  rcases readRoot_unroll shape data name with ⟨element, rfl, hroot⟩ | ⟨hcounted, hroot⟩
  · cases hshape with | array hdim helement =>
    have hone := helement.explains_unrollIn data 0 (name ++ "[]")
    have hagrees := helement.agrees_unrollIn data 0 (name ++ "[]")
    rw [hroot]
    exact Field.explains_readLoop hone hagrees 1 name (Nat.zero_le _)
  · rw [hroot, rootWire_eq_wire hcounted]
    exact hshape.explains_unrollIn data 0 name (Nat.zero_le _)

end Shape

end RecordCodec
