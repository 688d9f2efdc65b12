import QueryBatch.Document.Basic
import QueryBatch.OrderedMap

/-!
# Schemas

The types and directives that queries are checked against.

* `TypeDef`, `FieldDef`, `InputDef`, `DirectiveDef`: what a schema declares.
* `Schema`: the declarations by name, with the root types of operations. `Builder` makes it.
* `Schema.possibleTypes`, `Schema.typesOverlap`: which object types a composite type stands for.
-/

namespace QueryBatch

/-! ## Directive locations -/

/-- A place that a directive may stand in. -/
inductive DirectiveLocation where
  | query
  | mutation
  | subscription
  | field
  | fragmentDefinition
  | fragmentSpread
  | inlineFragment
  | variableDefinition
  | schema
  | scalar
  | object
  | fieldDefinition
  | argumentDefinition
  | interface
  | union
  | enum
  | enumValue
  | inputObject
  | inputFieldDefinition
  deriving DecidableEq, Repr, Inhabited

namespace DirectiveLocation

/-- All locations, those of query documents first. -/
def all : List DirectiveLocation :=
  [query, mutation, subscription, field, fragmentDefinition, fragmentSpread, inlineFragment, variableDefinition, schema,
    scalar, object, fieldDefinition, argumentDefinition, interface, union, enum, enumValue, inputObject,
    inputFieldDefinition]

def name : DirectiveLocation → String
  | query => "QUERY"
  | mutation => "MUTATION"
  | subscription => "SUBSCRIPTION"
  | field => "FIELD"
  | fragmentDefinition => "FRAGMENT_DEFINITION"
  | fragmentSpread => "FRAGMENT_SPREAD"
  | inlineFragment => "INLINE_FRAGMENT"
  | variableDefinition => "VARIABLE_DEFINITION"
  | schema => "SCHEMA"
  | scalar => "SCALAR"
  | object => "OBJECT"
  | fieldDefinition => "FIELD_DEFINITION"
  | argumentDefinition => "ARGUMENT_DEFINITION"
  | interface => "INTERFACE"
  | union => "UNION"
  | enum => "ENUM"
  | enumValue => "ENUM_VALUE"
  | inputObject => "INPUT_OBJECT"
  | inputFieldDefinition => "INPUT_FIELD_DEFINITION"

/-- The location of a name. -/
def ofName? (name : String) : Option DirectiveLocation := all.find? fun location => location.name == name

/-- The location of the directives of an operation. -/
def ofOperation : OperationKind → DirectiveLocation
  | .query => query
  | .mutation => mutation
  | .subscription => subscription

theorem mem_all (location : DirectiveLocation) : location ∈ all := by cases location <;> decide

theorem ofName?_name (location : DirectiveLocation) : ofName? location.name = some location := by
  cases location <;> rfl

end DirectiveLocation

/-! ## Declarations -/

/-- An argument or input field. The default is the text it was declared with. -/
structure InputDef where
  name : String
  type : TypeRef
  defaultText : Option String := none
  deriving DecidableEq, Repr, Inhabited

/-- Whether a value must be given: the type is non-null and there is no default. -/
def InputDef.isRequired (d : InputDef) : Bool := d.type.isNonNull && d.defaultText.isNone

/-- Inputs by name. -/
abbrev Inputs := OrderedMap InputDef

structure FieldDef where
  name : String
  arguments : Inputs := .empty
  type : TypeRef
  deriving Inhabited

structure DirectiveDef where
  name : String
  arguments : Inputs := .empty
  locations : List DirectiveLocation
  repeatable : Bool := false
  deriving Inhabited

/-- The sorts of types. -/
inductive TypeKind where
  | scalar
  | object
  | interface
  | union
  | enum
  | inputObject
  deriving DecidableEq, Repr, Inhabited

/-- The sort as messages name it. -/
def TypeKind.describe : TypeKind → String
  | .scalar => "scalar"
  | .object => "object"
  | .interface => "interface"
  | .union => "union"
  | .enum => "enum"
  | .inputObject => "input object"

/-- A declared type. -/
inductive TypeDef where
  | scalar (name : String)
  | object (name : String) (fields : OrderedMap FieldDef) (interfaces : List String)
  | interface (name : String) (fields : OrderedMap FieldDef) (interfaces : List String)
  | union (name : String) (members : List String)
  | enum (name : String) (values : List String)
  | inputObject (name : String) (fields : Inputs)
  deriving Inhabited

namespace TypeDef

def name : TypeDef → String
  | scalar name | object name _ _ | interface name _ _ | union name _ | enum name _ | inputObject name _ => name

def kind : TypeDef → TypeKind
  | scalar _ => .scalar
  | object _ _ _ => .object
  | interface _ _ _ => .interface
  | union _ _ => .union
  | enum _ _ => .enum
  | inputObject _ _ => .inputObject

/-- Whether values of the type have a selection set. -/
def isComposite (t : TypeDef) : Bool :=
  match t.kind with
  | .object | .interface | .union => true
  | _ => false

/-- Whether the type stands for object types. -/
def isAbstract (t : TypeDef) : Bool :=
  match t.kind with
  | .interface | .union => true
  | _ => false

/-- Whether values of the type have no selection set. -/
def isLeaf (t : TypeDef) : Bool :=
  match t.kind with
  | .scalar | .enum => true
  | _ => false

/-- Whether variables and arguments may have the type. -/
def isInput (t : TypeDef) : Bool :=
  match t.kind with
  | .scalar | .enum | .inputObject => true
  | _ => false

/-- The fields of an object or interface. -/
def fields? : TypeDef → Option (OrderedMap FieldDef)
  | object _ fields _ | interface _ fields _ => some fields
  | _ => none

/-- The fields of an input object. -/
def inputFields? : TypeDef → Option Inputs
  | inputObject _ fields => some fields
  | _ => none

/-- The values of an enum. -/
def enumValues? : TypeDef → Option (List String)
  | enum _ values => some values
  | _ => none

def interfaces : TypeDef → List String
  | object _ _ interfaces | interface _ _ interfaces => interfaces
  | _ => []

end TypeDef

/-! ## Schemas -/

/-- The scalars that every schema has. -/
def builtinScalars : List String := ["Int", "Float", "String", "Boolean", "ID"]

/-- The types and directives by name, and the names of the root types. -/
structure Schema where
  queryType : Option String
  mutationType : Option String
  subscriptionType : Option String
  types : OrderedMap TypeDef
  directives : OrderedMap DirectiveDef
  deriving Inhabited

/-- The field that every composite type has besides its own. -/
def typenameField : FieldDef := { name := "__typename", type := .nonNull (.named "String") }

namespace Schema

def type? (s : Schema) (name : String) : Option TypeDef := s.types.find? name

def typeNames (s : Schema) : List String := s.types.keys

def directive? (s : Schema) (name : String) : Option DirectiveDef := s.directives.find? name

def directiveNames (s : Schema) : List String := s.directives.keys

/-- The name of the root type of an operation. -/
def rootName? (s : Schema) : OperationKind → Option String
  | .query => s.queryType
  | .mutation => s.mutationType
  | .subscription => s.subscriptionType

/-- The root type of an operation. -/
def root? (s : Schema) (kind : OperationKind) : Option TypeDef := (s.rootName? kind).bind s.type?

/-- A field of a composite type, its type name included. -/
def field? (_ : Schema) (parent : TypeDef) (name : String) : Option FieldDef :=
  if name = typenameField.name && parent.isComposite then some typenameField
  else parent.fields?.bind fun fields => fields.find? name

/-- The object types that list an interface, in the order of the schema and once for each time it is listed. -/
def implementations (s : Schema) (interface : String) : List String :=
  s.types.values.flatMap fun
    | .object name _ interfaces => (interfaces.filter (· == interface)).map fun _ => name
    | _ => []

/-- The names of the object types that a composite type stands for. -/
def possibleTypes (s : Schema) : TypeDef → List String
  | .object name _ _ => [name]
  | .interface name _ _ => s.implementations name
  | .union _ members => members
  | _ => []

def isPossibleType (s : Schema) (t : TypeDef) (name : String) : Bool := (s.possibleTypes t).contains name

/-- Whether two composite types stand for a common object type. -/
def typesOverlap (s : Schema) (a b : TypeDef) : Bool :=
  a.name == b.name || (s.possibleTypes a).any fun name => (s.possibleTypes b).contains name

/-- Whether the type inside all lists and non-null marks exists and is an input type. -/
def isInputType (s : Schema) (t : TypeRef) : Bool := (s.type? t.baseName).any TypeDef.isInput

end Schema

end QueryBatch
