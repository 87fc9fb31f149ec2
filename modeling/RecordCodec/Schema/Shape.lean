import RecordCodec.Schema.Basic

/-!
# Shapes

A shape is a schema with every type resolved: leaves, tuples of named
components, and arrays with one dimension each. Of several dimensions the
outermost encloses the others, so the last one written comes first.

Resolving judges a field before its components and the components from left to
right, and stops at the first fault.
-/

namespace RecordCodec

inductive Shape where
  | leaf (type : Leaf)
  | tuple (components : List (String × Shape))
  | array (dim : Dimension) (element : Shape)

namespace Shape

/-- Encloses an element in array dimensions that are given innermost first. -/
def enclose (element : Shape) (dims : List Dimension) : Shape :=
  dims.foldl (fun inner dim => array dim inner) element

@[simp] theorem enclose_nil (element : Shape) : element.enclose [] = element := rfl

@[simp] theorem enclose_cons (element : Shape) (dim : Dimension) (dims : List Dimension) :
    element.enclose (dim :: dims) = (array dim element).enclose dims := rfl

theorem enclose_append (element : Shape) (dims : List Dimension) (dim : Dimension) :
    element.enclose (dims ++ [dim]) = array dim (element.enclose dims) := by
  simp [enclose]

/-- The outermost dimension of an array and what it holds. -/
def outer? : Shape → Option (Dimension × Shape)
  | array dim element => some (dim, element)
  | _ => none

/-- What stands inside all array dimensions, and these, innermost first. -/
def unwrap : Shape → Shape × List Dimension
  | array dim element => (element.unwrap.1, element.unwrap.2 ++ [dim])
  | shape => (shape, [])

theorem enclose_unwrap (shape : Shape) : shape.unwrap.1.enclose shape.unwrap.2 = shape := by
  fun_induction unwrap shape with
  | case1 dim element ih =>
    rw [enclose_append]
    exact congrArg (array dim) ih
  | case2 => rfl

theorem outer?_enclose_append (element : Shape) (dims : List Dimension) (dim : Dimension) :
    (element.enclose (dims ++ [dim])).outer? = some (dim, element.enclose dims) := by
  rw [enclose_append, outer?]

end Shape

mutual

def Schema.resolve : Schema → Except SchemaError Shape
  | ⟨name, type, components⟩ => do
    let fieldType ← Schema.fieldType ⟨name, type, components⟩
    match fieldType.base with
    | .leaf leaf => return (Shape.leaf leaf).enclose fieldType.dims
    | .tuple => do
      let shapes ← resolveAll components
      return (Shape.tuple shapes).enclose fieldType.dims

/-- Resolves fields from left to right and keeps their names. -/
def Schema.resolveAll : List Schema → Except SchemaError (List (String × Shape))
  | [] => .ok []
  | schema :: schemas => do
    let shape ← schema.resolve
    let shapes ← resolveAll schemas
    return (schema.name, shape) :: shapes

end

end RecordCodec
