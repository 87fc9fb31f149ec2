import RecordCodec.Encoding
import RecordCodec.Proofs.Bytes.Slice

/-!
# Flags among the bytes of a value

The only freedom in the bytes of a value are its flags: any byte but zero is read
as true, and true is written as one. A mask tells for each byte of an encoded value
whether it holds a flag. It follows the shape as encoding does: headers, numbers,
byte strings and texts are unmarked, and the masks of parts are joined in order.
-/

namespace RecordCodec

namespace Bytes

/-- The byte that a flag is written as when it was read from this one. -/
def flagByte (byte : UInt8) : UInt8 := if byte = 0 then 0 else 1

/-- Writes every byte that a mask marks as a flag. -/
def withFlags (mask : List Bool) (bytes : Bytes) : Bytes :=
  List.zipWith (fun marked byte => if marked then flagByte byte else byte) mask bytes

theorem withFlags_append {mask maskRest : List Bool} {bytes rest : Bytes}
    (h : mask.length = bytes.length) :
    withFlags (mask ++ maskRest) (bytes ++ rest) =
      withFlags mask bytes ++ withFlags maskRest rest :=
  List.zipWith_append h

/-- Where nothing is marked, nothing changes. -/
theorem withFlags_of_unmarked {mask : List Bool} {bytes : Bytes}
    (hmask : ∀ marked ∈ mask, marked = false) (hlength : mask.length = bytes.length) :
    withFlags mask bytes = bytes := by
  induction mask generalizing bytes with
  | nil => exact (List.length_eq_zero_iff.mp hlength.symm).symm
  | cons marked mask ih =>
    cases bytes with
    | nil => cases hlength
    | cons byte bytes =>
      have hrest := ih (fun other hmem => hmask other (by simp [hmem])) (Nat.succ.inj hlength)
      rw [hmask marked (by simp)]
      exact congrArg (byte :: ·) hrest

theorem withFlags_replicate_false {bytes : Bytes} {n : Nat} (h : bytes.length = n) :
    withFlags (List.replicate n false) bytes = bytes :=
  withFlags_of_unmarked (fun _ hmem => List.eq_of_mem_replicate hmem) (by simp [h])

end Bytes

namespace Leaf

/-- For each byte of an encoded value, whether it holds a flag. -/
def flagMask : Leaf → Value → List Bool
  | primitive type, _ => List.replicate (type.bitSize / 8) (decide (type = .bool))
  | fixedBytes size, _ => List.replicate size false
  | bytes, .bytes payload => List.replicate (Header.size + payload.length) false
  | string, .string text => List.replicate (Header.size + (Text.utf8 text).length) false
  | _, _ => []

end Leaf

namespace Dimension

/-- The mask of what stands before the elements of an array. -/
def headerMask : Dimension → List Bool
  | fixed _ => []
  | dynamic => List.replicate Header.size false

end Dimension

namespace Shape

mutual

def flagMask : Shape → Value → List Bool
  | leaf type, value => type.flagMask value
  | tuple components, .tuple values => componentMask components values
  | array dim element, .array values => dim.headerMask ++ values.flatMap element.flagMask
  | _, _ => []

def componentMask : List (String × Shape) → List Value → List Bool
  | (_, shape) :: components, value :: values =>
    shape.flagMask value ++ componentMask components values
  | _, _ => []

end

/-- No leaf of the shape is a flag. -/
inductive FlagFree : Shape → Prop
  | leaf {type : Leaf} (htype : type ≠ .primitive .bool) : FlagFree (.leaf type)
  | tuple {components : List (String × Shape)}
      (hcomponents : ∀ component ∈ components, FlagFree component.2) :
      FlagFree (.tuple components)
  | array {dim : Dimension} {element : Shape} (helement : FlagFree element) :
      FlagFree (.array dim element)

end Shape

namespace Bytes

/-- What is written are the bytes of the input from `cursor` to `next`, but for the
flags among them. -/
structure Restored (data : Bytes) (cursor next : Nat) (mask : List Bool) (out : Bytes) :
    Prop where
  next_eq : next = cursor + mask.length
  le : next ≤ data.length
  out_eq : out = withFlags mask (data.slice cursor mask.length)

namespace Restored

variable {data out rest : Bytes} {cursor middle next : Nat} {mask maskRest : List Bool}

theorem empty (h : cursor ≤ data.length) : Restored data cursor cursor [] [] :=
  ⟨rfl, h, rfl⟩

theorem append (hfirst : Restored data cursor middle mask out)
    (hrest : Restored data middle next maskRest rest) :
    Restored data cursor next (mask ++ maskRest) (out ++ rest) := by
  obtain ⟨rfl, hmiddle, rfl⟩ := hfirst
  obtain ⟨rfl, hnext, rfl⟩ := hrest
  refine ⟨?_, hnext, ?_⟩
  · rw [List.length_append, Nat.add_assoc]
  · rw [List.length_append, slice_add, withFlags_append (length_slice hmiddle).symm]

/-- Bytes without flags are restored as they are. -/
theorem of_slice {n : Nat} (h : cursor + n ≤ data.length) :
    Restored data cursor (cursor + n) (List.replicate n false) (data.slice cursor n) := by
  refine ⟨by rw [List.length_replicate], h, ?_⟩
  rw [List.length_replicate, withFlags_replicate_false (length_slice h)]

theorem length_out (h : Restored data cursor next mask out) : out.length = mask.length := by
  obtain ⟨rfl, hle, rfl⟩ := h
  rw [withFlags, List.length_zipWith, length_slice hle, Nat.min_self]

/-- A marked byte is written as a flag, and every other byte as it was. -/
theorem getElem? (h : Restored data 0 next mask out) {i : Nat} (hi : i < next) :
    out[i]? = data[i]?.map fun byte => if mask[i]? = some true then flagByte byte else byte := by
  obtain ⟨rfl, hle, rfl⟩ := h
  rw [Nat.zero_add] at hi
  have hslice : (data.slice 0 mask.length)[i]? = data[i]? := by
    rw [slice, List.drop_zero, List.getElem?_take_of_lt hi]
  rw [withFlags, List.getElem?_zipWith, hslice, List.getElem?_eq_getElem hi]
  cases data[i]? with
  | none => rfl
  | some byte => simp

/-- Bytes of which none is marked are written as they are. -/
theorem eq_take (h : Restored data 0 next mask out) (hmask : ∀ marked ∈ mask, marked = false) :
    out = data.take next := by
  obtain ⟨rfl, hle, rfl⟩ := h
  rw [withFlags_of_unmarked hmask (length_slice hle).symm, Nat.zero_add, slice, List.drop_zero]

end Restored

end Bytes

namespace Leaf

theorem flagMask_unmarked {type : Leaf} (htype : type ≠ .primitive .bool) (value : Value) :
    ∀ marked ∈ type.flagMask value, marked = false := by
  cases type with
  | primitive type =>
    have hbool : decide (type = .bool) = false := decide_eq_false fun h => htype (by rw [h])
    rw [flagMask, hbool]
    exact fun _ hmem => List.eq_of_mem_replicate hmem
  | fixedBytes size => exact fun _ hmem => List.eq_of_mem_replicate hmem
  | bytes => cases value <;> simp [flagMask]
  | string => cases value <;> simp [flagMask]

end Leaf

namespace Shape

theorem componentMask_unmarked {components : List (String × Shape)}
    (h : ∀ component ∈ components, ∀ value, ∀ marked ∈ component.2.flagMask value,
      marked = false) (values : List Value) :
    ∀ marked ∈ componentMask components values, marked = false := by
  induction components generalizing values with
  | nil => simp [componentMask]
  | cons component components ih =>
    obtain ⟨name, shape⟩ := component
    cases values with
    | nil => simp [componentMask]
    | cons value values =>
      intro marked hmem
      rw [componentMask] at hmem
      rcases List.mem_append.mp hmem with hmem | hmem
      · exact h (name, shape) (by simp) value marked hmem
      · exact ih (fun other hother => h other (by simp [hother])) values marked hmem

/-- A shape without flags leaves no byte open. -/
theorem FlagFree.unmarked {shape : Shape} (hshape : shape.FlagFree) (value : Value) :
    ∀ marked ∈ shape.flagMask value, marked = false := by
  induction hshape generalizing value with
  | leaf htype =>
    rw [flagMask]
    exact Leaf.flagMask_unmarked htype value
  | tuple hcomponents ih =>
    cases value with
    | tuple values =>
      rw [flagMask]
      exact componentMask_unmarked ih values
    | _ => simp [flagMask]
  | @array dim element helement ih =>
    cases value with
    | array values =>
      intro marked hmem
      rw [flagMask] at hmem
      rcases List.mem_append.mp hmem with hheader | helements
      · cases dim with
        | fixed size => cases hheader
        | dynamic => exact List.eq_of_mem_replicate hheader
      · obtain ⟨item, _, hitem⟩ := List.mem_flatMap.mp helements
        exact ih item marked hitem
    | _ => simp [flagMask]

end Shape

end RecordCodec
