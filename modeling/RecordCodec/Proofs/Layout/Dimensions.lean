import Mathlib.Data.List.Induction
import RecordCodec.Proofs.Reading.Unrolling

/-!
# Unrolling by the list of dimensions

A shape can be taken for the list of its array dimensions, innermost first, around an
element that is no array. Unrolling takes this list from its end: a fixed dimension alone,
and dynamic ones together, as many as stand there in a row. What is left of the list
encloses the element of the field.
-/

namespace RecordCodec

namespace Dimension

/-- How many dynamic dimensions are outermost, of dimensions given innermost first. -/
def outerRun (dims : List Dimension) : Nat := (dims.reverse.takeWhile (· = .dynamic)).length

@[simp] theorem outerRun_nil : outerRun [] = 0 := rfl

@[simp] theorem outerRun_append_fixed (dims : List Dimension) (size : Nat) :
    outerRun (dims ++ [.fixed size]) = 0 := by
  simp [outerRun]

@[simp] theorem outerRun_append_dynamic (dims : List Dimension) :
    outerRun (dims ++ [.dynamic]) = outerRun dims + 1 := by
  simp [outerRun]

end Dimension

namespace Shape

open Dimension (outerRun)

/-- What stands inside all array dimensions is no array. -/
theorem outer?_unwrap (shape : Shape) : shape.unwrap.1.outer? = none := by
  fun_induction unwrap shape with
  | case1 dim element ih => exact ih
  | case2 shape hshape =>
    cases shape with
    | array dim element => exact absurd rfl (hshape dim element)
    | _ => rfl

/-- Dynamic dimensions that are counted on the way inwards are those at the end of the list. -/
theorem unrollIn_enclose {element : Shape} (helement : element.outer? = none)
    (dims : List Dimension) (run : Nat) (name : String) :
    (element.enclose dims).unrollIn run name =
      collapse (run + outerRun dims) name fun name =>
        (element.enclose (dims.take (dims.length - outerRun dims))).unroll name := by
  induction dims using List.reverseRecOn generalizing run with
  | nil =>
    have hend : element.isCounted = false := by
      cases element with
      | array dim inner => cases helement
      | _ => rfl
    exact unrollIn_of_not_isCounted hend run name
  | append_singleton dims dim ih =>
    cases dim with
    | fixed size =>
      rw [Dimension.outerRun_append_fixed, Nat.add_zero, Nat.sub_zero, List.take_length,
        enclose_append]
      exact unrollIn_of_not_isCounted rfl run name
    | dynamic =>
      have hfront : (dims ++ [Dimension.dynamic]).take
          ((dims ++ [Dimension.dynamic]).length - outerRun (dims ++ [Dimension.dynamic])) =
          dims.take (dims.length - outerRun dims) := by
        rw [Dimension.outerRun_append_dynamic, List.length_append, List.length_singleton,
          Nat.add_sub_add_right, List.take_append_of_le_length (Nat.sub_le _ _)]
      rw [hfront, enclose_append, unrollIn, ih, Dimension.outerRun_append_dynamic,
        Nat.add_assoc, Nat.add_comm 1]

/-- A fixed dimension that is outermost is unrolled alone, index by index. -/
theorem unroll_of_outer?_fixed {shape inner : Shape} {size : Nat}
    (h : shape.outer? = some (.fixed size, inner)) (name : String) :
    shape.unroll name = .plain name (.fixedArray size)
      ((List.range size).map fun i => inner.unroll (elementName name i)) := by
  cases shape with
  | array dim element =>
    cases h
    rfl
  | _ => cases h

/-- Dynamic dimensions that are outermost are unrolled together, into a field that stands for
all but one of them besides its own. -/
theorem unroll_of_outer?_dynamic {shape inner : Shape}
    (h : shape.outer? = some (.dynamic, inner)) (name : String) :
    let element := shape.unwrap.1
    let dims := shape.unwrap.2
    0 < outerRun dims ∧
      shape.unroll name = ⟨name, .dynamicArray, outerRun dims - 1, none,
        [(element.enclose (dims.take (dims.length - outerRun dims))).unroll (name ++ "[]")]⟩ := by
  intro element dims
  have hshape : element.enclose dims = shape := enclose_unwrap shape
  have hrun : 0 < outerRun dims := by
    rw [← hshape] at h
    rcases List.eq_nil_or_concat dims with hdims | ⟨front, dim, hdims⟩
    · rw [hdims, enclose_nil, outer?_unwrap] at h
      cases h
    · rw [List.concat_eq_append] at hdims
      rw [hdims, outer?_enclose_append] at h
      cases h
      rw [hdims, Dimension.outerRun_append_dynamic]
      exact Nat.succ_pos _
  have hunroll := unrollIn_enclose (outer?_unwrap shape) dims 0 name
  obtain ⟨extra, hextra⟩ : ∃ extra, outerRun dims = extra + 1 := ⟨_, (Nat.sub_add_cancel hrun).symm⟩
  refine ⟨hrun, ?_⟩
  rw [hextra] at hunroll ⊢
  rw [← hshape, unroll, hunroll, Nat.zero_add, Nat.add_sub_cancel]
  rfl

end Shape

end RecordCodec
