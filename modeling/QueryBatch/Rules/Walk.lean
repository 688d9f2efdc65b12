import QueryBatch.Rules.Context

/-!
# Walking definitions with their types

* `Visit`: one thing met on the way through a definition, with what the schema says about it.
* `Subject.visits`: everything met in a definition, in the order of its text. Spreads are met but not followed: every
  fragment is walked on its own.
-/

namespace QueryBatch.Rules

/-! ## Visits -/

/-- What a list of arguments belongs to. -/
inductive ArgumentSite where
  | field (parent : Option TypeDef) (field : Field) (declared : Option FieldDef) (span : Span)
  | directive (directive : Directive) (declared : Option DirectiveDef)

namespace ArgumentSite

/-- The arguments that the schema declares, if it knows the field or directive. -/
def inputs? : ArgumentSite → Option Inputs
  | field _ _ declared _ => declared.map FieldDef.arguments
  | directive _ declared => declared.map DirectiveDef.arguments

/-- The declaration of an argument. -/
def input? (site : ArgumentSite) (name : String) : Option InputDef := site.inputs?.bind fun inputs => inputs.find? name

/-- The field or directive as messages name it. -/
def describe : ArgumentSite → String
  | field (some parent) f _ _ => "field `" ++ parent.name ++ "." ++ f.name.text ++ "`"
  | field none f _ _ => "field `" ++ f.name.text ++ "`"
  | directive d _ => "directive `@" ++ d.name.text ++ "`"

end ArgumentSite

/-- One thing met on a walk. A parent is the type whose selection set it stands in, if that is known. -/
inductive Visit where
  | enterOperation (op : Operation)
  | leaveOperation (op : Operation)
  | enterFragment (frag : Fragment)
  | leaveFragment (frag : Fragment)
  | variableDefinition (definition : VariableDefinition)
  | selectionSet (parent : Option TypeDef) (set : SelectionSet)
  | field (parent : Option TypeDef) (field : Field) (body : Option SelectionSet) (declared : Option FieldDef)
  | inline (parent : Option TypeDef) (inline : Inline)
  | spread (parent : Option TypeDef) (spread : Spread)
  | directives (location : DirectiveLocation) (directives : List Directive)
  | arguments (site : ArgumentSite) (arguments : List Argument)
  | argument (site : ArgumentSite) (argument : Argument) (declared : Option InputDef)

/-! ## The walk -/

def argumentVisits (site : ArgumentSite) (arguments : List Argument) : List Visit :=
  .arguments site arguments :: arguments.map fun a => .argument site a (site.input? a.name.text)

/-- Nothing is met where there are no directives. -/
def directiveVisits (schema : Schema) (location : DirectiveLocation) (directives : List Directive) : List Visit :=
  if directives.isEmpty then []
  else .directives location directives ::
    directives.flatMap fun d => argumentVisits (.directive d (schema.directive? d.name.text)) d.arguments

/-- The declaration of a field on its parent. -/
def fieldDef? (schema : Schema) (parent : Option TypeDef) (f : Field) : Option FieldDef :=
  parent.bind fun type => schema.field? type f.name.text

/-- The type that the selection set of a field stands for. -/
def childType? (schema : Schema) (declared : Option FieldDef) : Option TypeDef :=
  declared.bind fun d => schema.type? d.type.baseName

/-- The type that the selection set of an inline fragment stands for. -/
def inlineType? (schema : Schema) (parent : Option TypeDef) (i : Inline) : Option TypeDef :=
  match i.condition with
  | some type => schema.type? type.text
  | none => parent

/-- What is met at a field before its selection set. -/
def fieldVisits (schema : Schema) (parent : Option TypeDef) (f : Field) (body : Option SelectionSet) : List Visit :=
  let declared := fieldDef? schema parent f
  .field parent f body declared :: argumentVisits (.field parent f declared f.span) f.arguments ++
    directiveVisits schema .field f.directives

mutual

def selectionVisits (schema : Schema) (parent : Option TypeDef) : Selection → List Visit
  | .field f => fieldVisits schema parent f none
  | .group f selections span =>
    let child := childType? schema (fieldDef? schema parent f)
    fieldVisits schema parent f (some ⟨selections, span⟩) ++
      .selectionSet child ⟨selections, span⟩ :: selectionsVisits schema child selections
  | .spread s => .spread parent s :: directiveVisits schema .fragmentSpread s.directives
  | .inline i selections span =>
    let child := inlineType? schema parent i
    .inline parent i :: directiveVisits schema .inlineFragment i.directives ++
      .selectionSet child ⟨selections, span⟩ :: selectionsVisits schema child selections

def selectionsVisits (schema : Schema) (parent : Option TypeDef) : List Selection → List Visit
  | [] => []
  | selection :: rest => selectionVisits schema parent selection ++ selectionsVisits schema parent rest

end

def setVisits (schema : Schema) (parent : Option TypeDef) (set : SelectionSet) : List Visit :=
  .selectionSet parent set :: selectionsVisits schema parent set.selections

def operationVisits (schema : Schema) (op : Operation) : List Visit :=
  .enterOperation op ::
    op.variableDefinitions.flatMap (fun v =>
      .variableDefinition v :: directiveVisits schema .variableDefinition v.directives) ++
    directiveVisits schema (.ofOperation op.kind) op.directives ++
    setVisits schema (schema.root? op.kind) op.body ++ [.leaveOperation op]

def fragmentVisits (schema : Schema) (frag : Fragment) : List Visit :=
  .enterFragment frag :: directiveVisits schema .fragmentDefinition frag.directives ++
    setVisits schema (schema.type? frag.condition.text) frag.body ++ [.leaveFragment frag]

/-- Everything met in a definition. -/
def Subject.visits (schema : Schema) (s : Subject) : List Visit :=
  match s.definition with
  | .operation op => operationVisits schema op
  | .fragment frag => fragmentVisits schema frag

/-- Everything met in all definitions, each with the definition it is met in. -/
def Context.visits (cx : Context) : List (Subject × Visit) :=
  cx.subjects.flatMap fun s => (s.visits cx.schema).map fun v => (s, v)

/-- The rule that looks at each visit on its own. -/
def eachVisit (look : Context → Subject → Visit → List Finding) : Rule := fun cx =>
  cx.visits.flatMap fun (s, v) => look cx s v

end QueryBatch.Rules
