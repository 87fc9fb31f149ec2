import RecordCodec.Codec
import RecordCodec.Json.Parser

/-!
# Definitions in JSON

Schemas and options as authors write them. A definition is an object with
members of fixed names, each at most once; members of other names are passed
over. It may also be an array of the members' values in order. The components of
a schema may be left out, and so may the choice of an option, but neither may be
null.

Definitions in text are read down to a fixed depth of nested objects and arrays.
What is passed over does not count.
-/

namespace RecordCodec

namespace Json

/-- The member of a name that must not repeat, or `none` inside if it is absent. -/
def unique? (members : List (String × Json)) (name : String) : Option (Option Json) :=
  match membersNamed members name with
  | [] => some none
  | [value] => some (some value)
  | _ => none

def text? : Json → Option String
  | string text => some text
  | _ => none

end Json

namespace Schema

/-- How many objects and arrays may stand inside each other in a definition. -/
def maxDepth : Nat := 127

/-- The name, the type and the components of a definition, of which the
components may be absent. -/
def parts? : Json → Option (Json × Json × Option Json)
  | .object members => do
    let name ← Json.unique? members "name"
    let type ← Json.unique? members "type"
    let components ← Json.unique? members "components"
    return (← name, ← type, components)
  | .array [name, type] => some (name, type, none)
  | .array [name, type, components] => some (name, type, some components)
  | _ => none

mutual

/-- Reads a definition in which `depth` objects and arrays may stand inside each other. -/
def ofJson? : (depth : Nat) → Json → Option Schema
  | 0, _ => none
  | depth + 1, json => do
    let (name, type, components) ← parts? json
    let name ← name.text?
    let type ← type.text?
    let components ← componentsOfJson? depth components
    return ⟨name, type, components⟩

/-- Reads the components of a definition, which may be absent. -/
def componentsOfJson? : (depth : Nat) → Option Json → Option (List Schema)
  | _, none => some []
  | depth + 1, some (.array items) => items.mapM (ofJson? depth)
  | _, some _ => none

end

/-- Reads a definition in JSON text. -/
def ofText? (text : String) : Option Schema := do
  let json ← Json.parse? text
  ofJson? maxDepth json

mutual

/-- The definition of a schema. Components are written only where there are any. -/
def toJson : Schema → Json
  | ⟨name, type, []⟩ => .object [("name", .string name), ("type", .string type)]
  | ⟨name, type, schema :: schemas⟩ =>
    .object [("name", .string name), ("type", .string type),
      ("components", .array (schema.toJson :: listToJson schemas))]

def listToJson : List Schema → List Json
  | [] => []
  | schema :: schemas => schema.toJson :: listToJson schemas

end

end Schema

namespace Dedup

def name : Dedup → String
  | byName => "by_name"
  | byStructure => "by_structure"

def ofName? (name : String) : Option Dedup :=
  [byName, byStructure].find? fun dedup => dedup.name == name

/-- Reads a choice, which is a name alone or an object with null under that name. -/
def ofJson? : Json → Option Dedup
  | .string name => ofName? name
  | .object [(name, .null)] => ofName? name
  | _ => none

end Dedup

namespace Options

def ofJson? : Json → Option Options
  | .object members => do
    match ← Json.unique? members "struct_dedup" with
    | none => return {}
    | some choice =>
      let dedup ← Dedup.ofJson? choice
      return ⟨dedup⟩
  | .array [] => some {}
  | .array [choice] => do
    let dedup ← Dedup.ofJson? choice
    return ⟨dedup⟩
  | _ => none

/-- Reads a definition in JSON text. -/
def ofText? (text : String) : Option Options := do
  let json ← Json.parse? text
  ofJson? json

def toJson (options : Options) : Json :=
  .object [("struct_dedup", .string options.dedup.name)]

end Options

end RecordCodec
