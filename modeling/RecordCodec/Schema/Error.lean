/-!
# Schema errors

What can be wrong with a field of a schema. A type that cannot be read is quoted
as it was written, without the blanks around it.
-/

namespace RecordCodec

inductive SchemaError where
  /-- The base of the type is not a known one. -/
  | unsupportedType (field type : String)
  /-- An array suffix is neither `[]` nor `[n]` with a positive `n`. -/
  | invalidDimension (field type : String)
  /-- A tuple has no components. -/
  | missingComponents (field : String)
  /-- A field that is no tuple has components. -/
  | unexpectedComponents (field : String)
  deriving DecidableEq, Repr

namespace SchemaError

def message : SchemaError → String
  | unsupportedType field type => "field `" ++ field ++ "`: unsupported type `" ++ type ++ "`"
  | invalidDimension field type =>
    "field `" ++ field ++ "`: malformed array dimension in `" ++ type ++ "`"
  | missingComponents field => "field `" ++ field ++ "` is a tuple but declares no components"
  | unexpectedComponents field => "field `" ++ field ++ "` declares components but is not a tuple"

end SchemaError

end RecordCodec
