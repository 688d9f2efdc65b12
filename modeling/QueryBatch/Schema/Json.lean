import QueryBatch.Json.Decode
import QueryBatch.Json.Read
import QueryBatch.Schema.Description

/-!
# Schemas in JSON

A schema description as a JSON object: the names of the roots, a list of types that each name their sort under `kind`,
and a list of directives.

* `Schema.ofJson`: the schema of a JSON text.
-/

namespace QueryBatch

namespace SchemaDescription

open Json

/-! ## Decoders -/

/-- The default may be missing, but not from an array. -/
def decodeInput (value : Json) : Option InputDescription := do
  let [name, type, initial] ← value.record ["name", "type", "defaultValue"] 3 | none
  return ⟨← required string? name, ← required string? type, ← optional string? initial⟩

def decodeField (value : Json) : Option FieldDescription := do
  let [name, type, arguments] ← value.record ["name", "type", "args"] 2 | none
  return ⟨← required string? name, ← required string? type, ← listOrEmpty decodeInput arguments⟩

/-- An object or interface: its name, fields and interfaces. -/
def decodeComposite (make : String → List FieldDescription → List String → TypeDescription) (value : Json) :
    Option TypeDescription := do
  let [name, fields, interfaces] ← value.record ["name", "fields", "interfaces"] 1 | none
  return make (← required string? name) (← listOrEmpty decodeField fields) (← listOrEmpty string? interfaces)

/-- A union or enum: its name and a list of names under `key`. -/
def decodeNames (make : String → List String → TypeDescription) (key : String) (value : Json) :
    Option TypeDescription := do
  let [name, names] ← value.record ["name", key] 1 | none
  return make (← required string? name) (← listOrEmpty string? names)

/-- The decoder of the types of a sort. -/
def decodeKind (kind : String) (value : Json) : Option TypeDescription :=
  match kind with
  | "SCALAR" => do
    let [name] ← value.record ["name"] 1 | none
    return .scalar (← required string? name)
  | "OBJECT" => decodeComposite .object value
  | "INTERFACE" => decodeComposite .interface value
  | "UNION" => decodeNames .union "members" value
  | "ENUM" => decodeNames .enum "values" value
  | "INPUT_OBJECT" => do
    let [name, fields] ← value.record ["name", "fields"] 1 | none
    return .inputObject (← required string? name) (← listOrEmpty decodeInput fields)
  | _ => none

/-- How deep a member of a type may be nested, so that the whole text is nested no deeper than 127. -/
def memberRoom : Nat := 124

/-- A type. Its sort may stand anywhere among its members, so that the others are kept until it is known; every one of
them has to be sound. -/
def decodeType : Json → Option TypeDescription
  | .object members => do
    let members ← unescapeKeys members
    let kind ← required string? (← member members "kind")
    let others := members.filter fun m => m.1 != "kind"
    if others.all fun m => m.2.isSound memberRoom then
      decodeKind kind (.object (others.map fun (key, value) => (escapeString key, value)))
    else none
  | .array (kind :: others) => do
    if others.all fun item => item.isSound memberRoom then decodeKind (← kind.string?) (.array others) else none
  | _ => none

/-- A location is written as its name, or as an object with the name as its only key and the value null. -/
def decodeLocation : Json → Option DirectiveLocation
  | .string raw => (unescapeString raw).bind DirectiveLocation.ofName?
  | .object [(raw, .null)] => (unescapeString raw).bind DirectiveLocation.ofName?
  | _ => none

def decodeDirective (value : Json) : Option DirectiveDescription := do
  let [name, locations, arguments, repeatable] ←
    value.record ["name", "locations", "args", "isRepeatable"] 2 | none
  return { name := ← required string? name, locations := ← required (list decodeLocation) locations,
           arguments := ← listOrEmpty decodeInput arguments, repeatable := ← flag repeatable }

/-- A schema description. -/
def decode (value : Json) : Option SchemaDescription := do
  let [query, mutation, subscription, types, directives] ←
    value.record ["queryType", "mutationType", "subscriptionType", "types", "directives"] 4 | none
  return { queryType := ← optional string? query, mutationType := ← optional string? mutation,
           subscriptionType := ← optional string? subscription, types := ← required (list decodeType) types,
           directives := ← listOrEmpty decodeDirective directives }

end SchemaDescription

/-- The schema of a JSON text. -/
def Schema.ofJson (text : String) : Except SchemaFault Schema :=
  match (Json.read text).bind SchemaDescription.decode with
  | some description => description.build
  | none => .error .invalidJson

end QueryBatch
