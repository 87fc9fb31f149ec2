import Mathlib.Logic.Function.Iterate
import RecordCodec.Proofs.Reading.Extent
import RecordCodec.Proofs.Reading.Field

/-!
# Reading an unrolled shape

The field tree of a shape reads exactly what the shape does. Fixed dimensions are
read component by component instead of in a loop, and a run of dynamic dimensions
is read by as many loops as were collapsed into one field.

The one thing a field tree adds is that it refuses large counts at once. Every
element of a well-formed shape takes at least the bytes a count is charged for, so
whatever is refused could not have been read.
-/

namespace RecordCodec

/-- Both succeed at the same cursors, with the same results. -/
def Agrees {α : Type} (read : Nat → Except ReadError (α × Nat))
    (read? : Nat → Option (α × Nat)) : Prop :=
  ∀ cursor, (read cursor).toOption = read? cursor

namespace Input

theorem toOption_take (data : Bytes) (cursor n : Nat) :
    (take data cursor n).toOption = take? data cursor n := toOption_takeOr ..

theorem toOption_count (data : Bytes) (cursor : Nat) :
    (count data cursor).toOption = count? data cursor := by
  rw [count, count?, Outcome.toOption_bind, toOption_take]
  cases take? data cursor 4 <;> rfl

theorem toOption_payload (data : Bytes) (name : String) (cursor : Nat) :
    (payload data name cursor).toOption = payload? data cursor := by
  rw [payload, payload?, Outcome.toOption_bind, toOption_count]
  cases count? data cursor with
  | none => rfl
  | some header => exact toOption_takeOr ..

end Input

namespace Leaf

theorem toOption_read (data : Bytes) (name : String) (cursor : Nat) (type : Leaf) :
    (type.read data name cursor).toOption = type.read? data cursor := by
  cases type with
  | primitive type =>
    rw [read, read?, Outcome.toOption_bind, Input.toOption_take]
    cases Input.take? data cursor (type.bitSize / 8) <;> rfl
  | fixedBytes size =>
    rw [read, read?, Outcome.toOption_bind, Input.toOption_take]
    cases Input.take? data cursor size <;> rfl
  | bytes =>
    rw [read, read?, Outcome.toOption_bind, Input.toOption_payload]
    cases Input.payload? data cursor <;> rfl
  | string =>
    rw [read, read?, Outcome.toOption_bind, Input.toOption_payload]
    cases Input.payload? data cursor with
    | none => rfl
    | some taken =>
      obtain ⟨payload, next⟩ := taken
      change (Text.read name payload >>= _).toOption =
        (Text.ofUtf8? payload).bind fun text => some (Value.string text, next)
      rw [Text.read]
      cases Text.ofUtf8? payload <;> rfl

end Leaf

namespace Field

variable {data : Bytes} {read : Nat → Except ReadError (Value × Nat)}
variable {read? : Nat → Option (Value × Nat)}

theorem agrees_repeatRun (h : Agrees read read?) (count : Nat) :
    Agrees (Op.repeatRun (readOne read) count) (Shape.readElements? read? count) := by
  induction count with
  | zero =>
    intro cursor
    rfl
  | succ count ih =>
    intro cursor
    rw [Op.repeatRun, Shape.readElements?, readOne, Outcome.toOption_bind, Outcome.toOption_bind,
      h cursor]
    cases read? cursor with
    | none => rfl
    | some result =>
      obtain ⟨first, middle⟩ := result
      change (Op.repeatRun (readOne read) count middle >>= _).toOption = _
      rw [Outcome.toOption_bind, ih middle]
      change _ = (Shape.readElements? read? count middle).bind _
      cases Shape.readElements? read? count middle <;> rfl

/-- A loop that charges each element no more than it takes refuses nothing that can
be read. -/
theorem agrees_readLoop (h : Agrees read read?) {unit : Nat} (hunit : Advances data unit read?)
    (name : String) :
    Agrees (readLoop data name unit (readOne read)) (Shape.readArray? data .dynamic read?) := by
  intro cursor
  rw [readLoop, Outcome.toOption_bind, Input.toOption_count]
  change _ = (Input.count? data cursor).bind _
  cases hcount : Input.count? data cursor with
  | none => rfl
  | some header =>
    obtain ⟨count, start⟩ := header
    obtain ⟨hinput, _, hstart⟩ := Input.count?_eq_some.mp hcount
    dsimp only [Option.bind_some]
    split
    · rw [Outcome.toOption_bind, agrees_repeatRun h count start]
      cases Shape.readElements? read? count start <;> rfl
    · rename_i hsize
      -- The elements would have to lie inside the input, and their units do not.
      cases hitems : Shape.readElements? read? count start with
      | none => rfl
      | some result =>
        obtain ⟨items, next⟩ := result
        obtain ⟨hnext, hlast⟩ := Shape.advances_readElements? hunit count (by omega) hitems
        rw [Input.remaining] at hsize
        omega

theorem advances_readArray? {unit : Nat} (h : Advances data unit read?) :
    Advances data 1 (Shape.readArray? data .dynamic read?) := by
  intro cursor value next hcursor hread
  obtain ⟨count, start, items, hcount, hitems, _⟩ := Shape.readArray?_eq_some.mp hread
  obtain ⟨hstart, hinput⟩ := Input.advances_count? data hcursor hcount
  obtain ⟨hnext, hlast⟩ := Shape.advances_readElements? h count hinput hitems
  exact ⟨by omega, hlast⟩

theorem advances_iterate (h : Advances data 1 read?) (levels : Nat) :
    Advances data 1 ((Shape.readArray? data .dynamic)^[levels] read?) := by
  induction levels with
  | zero => exact h
  | succ levels ih =>
    rw [Function.iterate_succ_apply']
    exact advances_readArray? ih

theorem agrees_readLevels {readArray : String → Nat → Except ReadError (Value × Nat)}
    (h : ∀ name, Agrees (readArray name) read?) (hforward : Advances data 1 read?) (levels : Nat)
    (name : String) :
    Agrees (readLevels data readArray levels name)
      ((Shape.readArray? data .dynamic)^[levels] read?) := by
  induction levels generalizing name with
  | zero => exact h name
  | succ levels ih =>
    rw [Function.iterate_succ_apply']
    exact agrees_readLoop (ih (name ++ "[]")) (advances_iterate hforward levels) name

end Field

namespace Shape

variable {data : Bytes} {read? : Nat → Option (Value × Nat)}

/-- A field around an element that is read as `read?` reads one loop for each
dimension that was collapsed into it. -/
theorem agrees_collapse {element : String → Field} {unit : Nat}
    (h : ∀ name, Agrees ((element name).read data) read?)
    (hunit : ∀ name, (element name).unit = unit) (hforward : Advances data unit read?)
    (run : Nat) (name : String) :
    Agrees ((collapse run name element).read data) ((readArray? data .dynamic)^[run] read?) := by
  cases run with
  | zero => exact h name
  | succ extra =>
    have harray : ∀ label, Agrees (Field.readArray data [element (name ++ "[]")] label)
        (readArray? data .dynamic read?) := by
      intro label
      rw [← hunit (name ++ "[]")] at hforward
      exact Field.agrees_readLoop (h (name ++ "[]")) hforward label
    exact Field.agrees_readLevels harray (Field.advances_readArray? hforward) extra name

theorem agrees_readAll_unrollAll {components : List (String × Shape)}
    (h : ∀ component ∈ components, ∀ name,
      Agrees ((component.2.unrollIn 0 name).read data) (component.2.read? data)) :
    Agrees (Field.readAll data (unrollAll components)) (readComponents? data components) := by
  induction components with
  | nil =>
    intro cursor
    rw [unrollAll, Field.readAll, readComponents?]
    rfl
  | cons component components ih =>
    intro cursor
    obtain ⟨name, shape⟩ := component
    rw [unrollAll, Field.readAll, readComponents?, Outcome.toOption_bind,
      h (name, shape) (by simp) name cursor]
    change _ = (shape.read? data cursor).bind _
    cases shape.read? data cursor with
    | none => rfl
    | some result =>
      obtain ⟨first, middle⟩ := result
      have hrest := ih (fun other hmem => h other (by simp [hmem])) middle
      change (Field.readAll data (unrollAll components) middle >>= _).toOption = _
      rw [Outcome.toOption_bind, hrest]
      change _ = (readComponents? data components middle).bind _
      cases readComponents? data components middle <;> rfl

/-- Elements under different names are read alike. -/
theorem agrees_readAll_map {element : Shape}
    (h : ∀ name, Agrees ((element.unrollIn 0 name).read data) (element.read? data))
    (label : Nat → String) (indices : List Nat) :
    Agrees (Field.readAll data (indices.map fun i => element.unrollIn 0 (label i)))
      (readElements? (element.read? data) indices.length) := by
  induction indices with
  | nil =>
    intro cursor
    rw [List.map_nil, Field.readAll]
    rfl
  | cons i indices ih =>
    intro cursor
    rw [List.map_cons, Field.readAll, List.length_cons, readElements?, Outcome.toOption_bind,
      h (label i) cursor]
    change _ = (element.read? data cursor).bind _
    cases element.read? data cursor with
    | none => rfl
    | some result =>
      obtain ⟨first, middle⟩ := result
      change (Field.readAll data _ middle >>= _).toOption = _
      rw [Outcome.toOption_bind, ih middle]
      change _ = (readElements? (element.read? data) indices.length middle).bind _
      cases readElements? (element.read? data) indices.length middle <;> rfl

/-- Inside `run` dynamic dimensions, an unrolled shape reads as many loops over it. -/
theorem WellFormed.agrees_unrollIn {shape : Shape} (hshape : shape.WellFormed) (data : Bytes)
    (run : Nat) (name : String) :
    Agrees ((shape.unrollIn run name).read data)
      ((readArray? data .dynamic)^[run] (shape.read? data)) := by
  induction hshape generalizing run name with
  | @leaf type htype =>
    have hread : ∀ name, Agrees ((Field.plain name (.leaf type) []).read data)
        ((Shape.leaf type).read? data) := by
      intro name cursor
      rw [Shape.read?]
      exact Leaf.toOption_read data name cursor type
    have hunit : ∀ name, (Field.plain name (.leaf type) []).unit = (Shape.leaf type).unit := by
      intro name
      cases type <;> rfl
    exact agrees_collapse hread hunit ((WellFormed.leaf htype).advances data) run name
  | @tuple components hne hcomponents ih =>
    have hread : ∀ name, Agrees ((Field.plain name .tuple (unrollAll components)).read data)
        ((Shape.tuple components).read? data) := by
      intro name cursor
      rw [Shape.read?, Field.plain, Field.read, Outcome.toOption_bind,
        agrees_readAll_unrollAll (fun component hmem => ih component hmem 0) cursor]
      cases readComponents? data components cursor <;> rfl
    exact agrees_collapse hread (fun _ => rfl) ((WellFormed.tuple hne hcomponents).advances data)
      run name
  | @array dim element hdim helement ih =>
    cases dim with
    | fixed size =>
      have hread : ∀ name, Agrees ((Field.plain name (.fixedArray size)
          ((List.range size).map fun i => element.unrollIn 0 (elementName name i))).read data)
          ((Shape.array (.fixed size) element).read? data) := by
        intro name cursor
        have hitems := agrees_readAll_map (ih 0) (elementName name) (List.range size) cursor
        rw [List.length_range] at hitems
        rw [Shape.read?, Field.plain, Field.read, Outcome.toOption_bind, hitems]
        change _ = (readElements? (element.read? data) size cursor).map _
        cases readElements? (element.read? data) size cursor <;> rfl
      exact agrees_collapse hread (fun _ => rfl) ((WellFormed.array hdim helement).advances data)
        run name
    | dynamic =>
      have hloop : (Shape.array .dynamic element).read? data =
          readArray? data .dynamic (element.read? data) := by
        funext cursor
        rw [Shape.read?]
      rw [hloop, ← Function.iterate_succ_apply]
      exact ih (run + 1) name

end Shape

namespace Field

theorem readAll_singleton (data : Bytes) (field : Field) :
    readAll data [field] = readOne (field.read data) := by
  funext cursor
  rw [readAll, readOne]
  rfl

/-- Only an array of a single dynamic dimension is read in another way as a root. -/
theorem readRoot_eq_read {root : Field} (hroot : root.kind = .dynamicArray → root.extraLevels ≠ 0)
    (data : Bytes) (name : String) : root.readRoot data name = root.read data 0 := by
  unfold readRoot
  split
  · rename_i hkind hlevels
    exact absurd hlevels (hroot hkind)
  · rfl

end Field

namespace Shape

/-- Whether the outermost dimension is a dynamic one. -/
def isCounted : Shape → Bool
  | array .dynamic _ => true
  | _ => false

theorem unrollIn_of_not_isCounted {shape : Shape} (h : shape.isCounted = false) (run : Nat)
    (name : String) : shape.unrollIn run name = collapse run name (shape.unrollIn 0) := by
  cases shape with
  | leaf type => simp only [unrollIn, collapse]
  | tuple components => simp only [unrollIn, collapse]
  | array dim element =>
    cases dim with
    | fixed size => simp only [unrollIn, collapse]
    | dynamic => cases h

theorem kind_of_not_isCounted {shape : Shape} (h : shape.isCounted = false) (name : String) :
    (shape.unrollIn 0 name).kind ≠ .dynamicArray := by
  cases shape with
  | leaf type =>
    rw [unrollIn]
    intro hkind
    cases hkind
  | tuple components =>
    rw [unrollIn]
    intro hkind
    cases hkind
  | array dim element =>
    cases dim with
    | fixed size =>
      rw [unrollIn]
      intro hkind
      cases hkind
    | dynamic => cases h

/-- However many dimensions follow, those counted so far are collapsed into the field. -/
theorem le_extraLevels_unrollIn : (shape : Shape) → (extra : Nat) → (name : String) →
    extra ≤ (shape.unrollIn (extra + 1) name).extraLevels
  | leaf type, extra, name => by
    rw [unrollIn]
    exact Nat.le_refl extra
  | tuple components, extra, name => by
    rw [unrollIn]
    exact Nat.le_refl extra
  | array (.fixed size) element, extra, name => by
    rw [unrollIn]
    exact Nat.le_refl extra
  | array .dynamic element, extra, name => by
    rw [unrollIn]
    exact Nat.le_trans (Nat.le_succ extra) (le_extraLevels_unrollIn element (extra + 1) name)

theorem extraLevels_ne_zero {element : Shape} (h : element.isCounted = true) (name : String) :
    (element.unrollIn 1 name).extraLevels ≠ 0 := by
  cases element with
  | leaf type => cases h
  | tuple components => cases h
  | array dim inner =>
    cases dim with
    | fixed size => cases h
    | dynamic =>
      have hlevels := le_extraLevels_unrollIn inner 1 name
      rw [unrollIn]
      omega

/-- As a root, an array of a single dynamic dimension loops over its one component
itself, and anything else is read as a field. -/
theorem readRoot_unroll (shape : Shape) (data : Bytes) (name : String) :
    (∃ element, shape = array .dynamic element ∧
      (shape.unroll name).readRoot data name =
        Field.readLoop data name 1
          (Field.readOne ((element.unrollIn 0 (name ++ "[]")).read data)) 0) ∨
    (∀ element, shape = array .dynamic element → element.isCounted = true) ∧
      (shape.unroll name).readRoot data name = (shape.unrollIn 0 name).read data 0 := by
  cases hcounted : shape.isCounted with
  | false =>
    have hkind := kind_of_not_isCounted hcounted name
    refine .inr ⟨?_, Field.readRoot_eq_read (fun h => absurd h hkind) data name⟩
    rintro element rfl
    cases hcounted
  | true =>
    obtain ⟨element, rfl⟩ : ∃ element, shape = array .dynamic element := by
      unfold isCounted at hcounted
      split at hcounted
      · exact ⟨_, rfl⟩
      · cases hcounted
    cases hinner : element.isCounted with
    | false =>
      refine .inl ⟨element, rfl, ?_⟩
      rw [unroll, unrollIn, unrollIn_of_not_isCounted hinner, collapse, ← Field.readAll_singleton]
      rfl
    | true =>
      refine .inr ⟨?_, ?_⟩
      · intro other heq
        cases heq
        exact hinner
      · rw [unroll, unrollIn]
        exact Field.readRoot_eq_read (fun _ => extraLevels_ne_zero hinner name) data name

/-- The field tree of a well-formed shape reads what the shape does, also as a root. -/
theorem WellFormed.toOption_readRoot {shape : Shape} (hshape : shape.WellFormed) (data : Bytes)
    (name : String) : ((shape.unroll name).readRoot data name).toOption = shape.read? data 0 := by
  rcases readRoot_unroll shape data name with ⟨element, rfl, hroot⟩ | ⟨_, hroot⟩
  · cases hshape with | array hdim helement =>
    have hone := helement.agrees_unrollIn data 0 (name ++ "[]")
    rw [hroot, read?]
    exact Field.agrees_readLoop hone (helement.advances_one data) name 0
  · rw [hroot]
    exact hshape.agrees_unrollIn data 0 name 0

end Shape

end RecordCodec
