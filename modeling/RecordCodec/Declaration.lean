import RecordCodec.Schema.Basic
import RecordCodec.Text.Uppercase

/-!
# Record declarations

Every tuple of a schema is declared as a record, components first and the root
last. A member that is a tuple refers to its record by name and keeps its array
suffixes; all other members keep their type as it is written. A root that is no
tuple is declared as a record with itself as the only member.

Names stand for records, so a name that is taken is not declared again. By
structure, a record that repeats the members of an earlier one is not declared
either, and references to it go to the earlier one.
-/

namespace RecordCodec

structure Member where
  name : String
  type : String
  deriving DecidableEq, Repr

structure Declaration where
  name : String
  members : List Member
  deriving DecidableEq, Repr

/-- When a record counts as declared. -/
inductive Dedup where
  | byName
  | byStructure
  deriving DecidableEq, Repr

namespace Dedup

/-- An earlier declaration that serves in place of one with the given members. -/
def twin? (dedup : Dedup) (members : List Member) (declared : List Declaration) :
    Option Declaration :=
  match dedup with
  | byName => none
  | byStructure => declared.find? fun other => other.members == members

end Dedup

namespace Declaration

/-- Adds a declaration unless another serves in its place or has its name.
Returns the name to refer to it by, and all declarations. -/
def push (dedup : Dedup) (record : Declaration) (declared : List Declaration) :
    String × List Declaration :=
  match dedup.twin? record.members declared with
  | some twin => (twin.name, declared)
  | none =>
    if declared.any fun other => other.name == record.name then (record.name, declared)
    else (record.name, declared ++ [record])

end Declaration

namespace Schema

mutual

/-- Declares the records of a field. Returns the name of its own, if it has one. -/
def declare (dedup : Dedup) :
    Schema → List Declaration → Except SchemaError (Option String × List Declaration)
  | ⟨name, type, components⟩, declared => do
    let fieldType ← Schema.fieldType ⟨name, type, components⟩
    if fieldType.isTuple then
      let (members, declared) ← declareAll dedup components declared
      let (reference, declared) := Declaration.push dedup ⟨Text.capitalize name, members⟩ declared
      return (some reference, declared)
    else
      return (none, declared)

/-- Declares the records of components and returns the members they become. -/
def declareAll (dedup : Dedup) :
    List Schema → List Declaration → Except SchemaError (List Member × List Declaration)
  | [], declared => .ok ([], declared)
  | schema :: schemas, declared => do
    let (reference, declared) ← schema.declare dedup declared
    let type :=
      match reference with
      | some record => record ++ FieldType.suffix schema.type
      | none => schema.type
    let (members, declared) ← declareAll dedup schemas declared
    return (⟨schema.name, type⟩ :: members, declared)

end

/-- All records of a schema, in the order of their declaration. -/
def declarations (schema : Schema) (dedup : Dedup) : Except SchemaError (List Declaration) := do
  let (reference, declared) ← schema.declare dedup []
  match reference with
  | some _ => return declared
  | none =>
    let record := ⟨Text.capitalize schema.name, [⟨schema.name, schema.type⟩]⟩
    return (Declaration.push dedup record declared).2

end Schema

end RecordCodec
