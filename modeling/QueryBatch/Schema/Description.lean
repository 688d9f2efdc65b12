import QueryBatch.Schema.Builder

/-!
# Schema descriptions

A schema as plain lists of what it declares, with type references as texts.

* `SchemaDescription.build`: the schema that is described.
-/

namespace QueryBatch

/-! ## Parts -/

structure InputDescription where
  name : String
  type : String
  defaultText : Option String := none
  deriving DecidableEq, Repr, Inhabited

structure FieldDescription where
  name : String
  type : String
  arguments : List InputDescription := []
  deriving DecidableEq, Repr, Inhabited

inductive TypeDescription where
  | scalar (name : String)
  | object (name : String) (fields : List FieldDescription) (interfaces : List String)
  | interface (name : String) (fields : List FieldDescription) (interfaces : List String)
  | union (name : String) (members : List String)
  | enum (name : String) (values : List String)
  | inputObject (name : String) (fields : List InputDescription)
  deriving DecidableEq, Repr, Inhabited

structure DirectiveDescription where
  name : String
  locations : List DirectiveLocation
  arguments : List InputDescription := []
  repeatable : Bool := false
  deriving DecidableEq, Repr, Inhabited

structure SchemaDescription where
  queryType : Option String := none
  mutationType : Option String := none
  subscriptionType : Option String := none
  types : List TypeDescription
  directives : List DirectiveDescription := []
  deriving DecidableEq, Repr, Inhabited

/-! ## What the parts declare -/

/-- The type that a text stands for. -/
def TypeRef.parse (text : String) : Except SchemaFault TypeRef :=
  match TypeRef.ofText? text with
  | some type => .ok type
  | none => .error (.invalidTypeRef text)

def InputDescription.resolve (d : InputDescription) : Except SchemaFault InputDef := do
  return ⟨d.name, ← TypeRef.parse d.type, d.defaultText⟩

def resolveInputs (inputs : List InputDescription) : Except SchemaFault Inputs := do
  return .ofList (← inputs.mapM InputDescription.resolve)

/-- The type of a field is looked at before those of its arguments. -/
def FieldDescription.resolve (d : FieldDescription) : Except SchemaFault FieldDef := do
  let type ← TypeRef.parse d.type
  return { name := d.name, arguments := ← resolveInputs d.arguments, type }

def resolveFields (fields : List FieldDescription) : Except SchemaFault (OrderedMap FieldDef) := do
  return .ofList ((← fields.mapM FieldDescription.resolve).map fun f => (f.name, f))

def TypeDescription.resolve : TypeDescription → Except SchemaFault TypeDef
  | scalar name => .ok (.scalar name)
  | object name fields interfaces => do return .object name (← resolveFields fields) interfaces
  | interface name fields interfaces => do return .interface name (← resolveFields fields) interfaces
  | union name members => .ok (.union name members)
  | enum name values => .ok (.enum name values)
  | inputObject name fields => do return .inputObject name (← resolveInputs fields)

def DirectiveDescription.resolve (d : DirectiveDescription) : Except SchemaFault DirectiveDef := do
  return { name := d.name, arguments := ← resolveInputs d.arguments, locations := d.locations,
           repeatable := d.repeatable }

/-! ## The schema -/

/-- Adds described types one after the other. -/
def Builder.addTypes (b : Builder) (types : List TypeDescription) : Except SchemaFault Builder :=
  types.foldlM (fun b type => do b.addType (← type.resolve)) b

def Builder.addDirectives (b : Builder) (directives : List DirectiveDescription) : Except SchemaFault Builder :=
  directives.foldlM (fun b directive => do return b.addDirective (← directive.resolve)) b

/-- The schema of a description, or the first fault: of the types and directives in order, then of the whole. -/
def SchemaDescription.build (d : SchemaDescription) : Except SchemaFault Schema := do
  let roots : Builder :=
    { queryType := d.queryType, mutationType := d.mutationType, subscriptionType := d.subscriptionType }
  let withTypes ← roots.addTypes d.types
  let complete ← withTypes.addDirectives d.directives
  complete.build

end QueryBatch
