import QueryBatch.Schema.Basic

/-!
# Building schemas

A schema is put together from roots, types and directives and checked as a whole. Every schema has the built-in
scalars and the directives `include`, `skip` and `deprecated`.

* `SchemaFault`: what can be wrong with a schema.
* `Builder.addType`: a type of a new name. A built-in scalar may be declared again as a scalar.
* `Builder.build`: the schema, if its roots are object types and every reference has a target.
-/

namespace QueryBatch

/-- Why a schema is refused. -/
inductive SchemaFault where
  | invalidJson
  | invalidTypeRef (text : String)
  | duplicateType (name : String)
  | unknownType (name context : String)
  | invalidRootType (name : String)
  deriving DecidableEq, Repr

/-- The wording of a fault. What is wrong with a JSON text is not told. -/
def SchemaFault.message : SchemaFault → String
  | invalidJson => "invalid schema JSON: "
  | invalidTypeRef text => "invalid type reference `" ++ text ++ "`"
  | duplicateType name => "type `" ++ name ++ "` is defined more than once"
  | unknownType name context => "unknown type `" ++ name ++ "` referenced by " ++ context
  | invalidRootType name => "root operation type `" ++ name ++ "` must be an object type"

/-! ## Parts -/

/-- The inputs of a list by name. Of inputs of one name the last counts, in the place of the first. -/
def Inputs.ofList (inputs : List InputDef) : Inputs := OrderedMap.ofList (inputs.map fun i => (i.name, i))

/-- The condition of `include` and `skip`. -/
def conditionArgument : InputDef := { name := "if", type := .nonNull (.named "Boolean") }

/-- A directive that includes or leaves out a selection. -/
def conditionalDirective (name : String) : DirectiveDef :=
  { name, arguments := .ofList [conditionArgument], locations := [.field, .fragmentSpread, .inlineFragment] }

def deprecatedDirective : DirectiveDef :=
  { name := "deprecated"
    arguments := .ofList [{ name := "reason", type := .named "String", defaultText := some "\"No longer supported\"" }]
    locations := [.fieldDefinition, .argumentDefinition, .inputFieldDefinition, .enumValue] }

/-- The directives that every schema has. -/
def builtinDirectives : List DirectiveDef :=
  [conditionalDirective "include", conditionalDirective "skip", deprecatedDirective]

/-- The parts of a schema before they are checked. A root that is not set is looked for under its usual name. -/
structure Builder where
  queryType : Option String := none
  mutationType : Option String := none
  subscriptionType : Option String := none
  types : OrderedMap TypeDef := .ofList (builtinScalars.map fun name => (name, .scalar name))
  directives : OrderedMap DirectiveDef := .ofList (builtinDirectives.map fun d => (d.name, d))

namespace Builder

/-! ## Adding parts -/

/-- Sets the root type of an operation. -/
def setRoot (b : Builder) (kind : OperationKind) (name : String) : Builder :=
  match kind with
  | .query => { b with queryType := some name }
  | .mutation => { b with mutationType := some name }
  | .subscription => { b with subscriptionType := some name }

/-- Whether `new` declares a built-in scalar that is there as `old` once more. -/
def isScalarAgain (old new : TypeDef) : Bool :=
  builtinScalars.contains new.name && old.kind == .scalar && new.kind == .scalar

/-- Adds a type of a new name. -/
def addType (b : Builder) (type : TypeDef) : Except SchemaFault Builder :=
  match b.types.find? type.name with
  | none => .ok { b with types := b.types.insert type.name type }
  | some old => if isScalarAgain old type then .ok b else .error (.duplicateType type.name)

/-- Adds a directive, or puts it in the place of one of its name. -/
def addDirective (b : Builder) (directive : DirectiveDef) : Builder :=
  { b with directives := b.directives.insert directive.name directive }

/-! ## Checks -/

/-- A root type: the one that was set, or else the type of the usual name if there is one. -/
def rootOr (b : Builder) (set : Option String) (usual : String) : Option String :=
  set.or (if b.types.contains usual then some usual else none)

/-- A root has to be an object type. -/
def checkRoot (b : Builder) (name : String) : Except SchemaFault Unit :=
  match b.types.find? name with
  | some (.object _ _ _) => .ok ()
  | some _ => .error (.invalidRootType name)
  | none => .error (.unknownType name "schema root")

/-- The type inside a reference has to exist. -/
def checkType (b : Builder) (name context : String) : Except SchemaFault Unit :=
  if b.types.contains name then .ok () else .error (.unknownType name context)

def checkField (b : Builder) (owner : String) (field : FieldDef) : Except SchemaFault Unit := do
  b.checkType field.type.baseName ("field `" ++ owner ++ "." ++ field.name ++ "`")
  field.arguments.values.forM fun argument =>
    b.checkType argument.type.baseName
      ("argument `" ++ owner ++ "." ++ field.name ++ "(" ++ argument.name ++ ":)`")

/-- What a type lists as its interfaces has to be interfaces. -/
def checkInterface (b : Builder) (owner interface : String) : Except SchemaFault Unit :=
  match b.types.find? interface with
  | some (.interface _ _ _) => .ok ()
  | _ => .error (.unknownType interface ("interfaces of `" ++ owner ++ "`"))

/-- The references of a type: fields and their arguments, then interfaces, members and input fields. -/
def checkTypeDef (b : Builder) (type : TypeDef) : Except SchemaFault Unit :=
  match type with
  | .scalar _ => .ok ()
  | .object owner fields interfaces | .interface owner fields interfaces => do
    fields.values.forM (b.checkField owner)
    interfaces.forM (b.checkInterface owner)
  | .union owner members => members.forM fun member => b.checkType member ("members of union `" ++ owner ++ "`")
  | .enum _ _ => .ok ()
  | .inputObject owner fields => fields.values.forM fun field =>
    b.checkType field.type.baseName ("input field `" ++ owner ++ "." ++ field.name ++ "`")

def checkDirective (b : Builder) (directive : DirectiveDef) : Except SchemaFault Unit :=
  directive.arguments.values.forM fun argument =>
    b.checkType argument.type.baseName ("argument `@" ++ directive.name ++ "(" ++ argument.name ++ ":)`")

/-! ## The schema -/

/-- The schema, or the first fault: of the roots, then of the types in order, then of the directives. -/
def build (b : Builder) : Except SchemaFault Schema := do
  let queryType := b.rootOr b.queryType "Query"
  let mutationType := b.rootOr b.mutationType "Mutation"
  let subscriptionType := b.rootOr b.subscriptionType "Subscription"
  [queryType, mutationType, subscriptionType].forM fun
    | some name => b.checkRoot name
    | none => .ok ()
  b.types.values.forM b.checkTypeDef
  b.directives.values.forM b.checkDirective
  return { queryType, mutationType, subscriptionType, types := b.types, directives := b.directives }

end Builder

end QueryBatch
