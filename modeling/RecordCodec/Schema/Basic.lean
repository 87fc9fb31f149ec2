import RecordCodec.FieldType.Parser

/-!
# Schemas

A schema is a named field with the text of its type and, for tuples, the
component fields. It is what an author writes; nothing about it is checked until
its type is read.

`Schema.fieldType` judges one field alone: its type must be readable, and exactly
the tuples have components.
-/

namespace RecordCodec

structure Schema where
  name : String
  type : String
  components : List Schema

namespace Schema

/-- The type of a field, if it is readable and agrees with the components. -/
def fieldType (schema : Schema) : Except SchemaError FieldType := do
  let type ← FieldType.parse schema.name schema.type
  if type.isTuple && schema.components.isEmpty then
    .error (.missingComponents schema.name)
  else if !type.isTuple && !schema.components.isEmpty then
    .error (.unexpectedComponents schema.name)
  else
    .ok type

end Schema

end RecordCodec
