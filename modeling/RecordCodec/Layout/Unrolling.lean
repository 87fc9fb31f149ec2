import RecordCodec.Layout.Field
import RecordCodec.Schema.Shape

/-!
# Unrolling of shapes

Unrolling a shape under a name gives its field tree. A fixed dimension becomes
one component `name[i]` per index. Dynamic dimensions are counted on the way
inwards and become a single field as soon as something else is met; what they
hold is named `name[]`, however many there are.
-/

namespace RecordCodec

namespace Shape

/-- Puts the field of `run` dynamic dimensions around an element, if there are any. -/
def collapse (run : Nat) (name : String) (element : String → Field) : Field :=
  match run with
  | 0 => element name
  | extra + 1 => ⟨name, .dynamicArray, extra, none, [element (name ++ "[]")]⟩

/-- The name of an element of a fixed array. -/
def elementName (name : String) (i : Nat) : String := name ++ "[" ++ toString i ++ "]"

mutual

/-- Unrolls a shape inside `run` dynamic dimensions that are still to be collapsed. -/
def unrollIn : Shape → (run : Nat) → (name : String) → Field
  | leaf type, run, name => collapse run name fun name => .plain name (.leaf type) []
  | tuple components, run, name =>
    collapse run name fun name => .plain name .tuple (unrollAll components)
  | array (.fixed size) element, run, name =>
    collapse run name fun name =>
      .plain name (.fixedArray size)
        ((List.range size).map fun i => element.unrollIn 0 (elementName name i))
  | array .dynamic element, run, name => element.unrollIn (run + 1) name

def unrollAll : List (String × Shape) → List Field
  | [] => []
  | (name, shape) :: components => shape.unrollIn 0 name :: unrollAll components

end

def unroll (shape : Shape) (name : String) : Field := shape.unrollIn 0 name

end Shape

end RecordCodec
