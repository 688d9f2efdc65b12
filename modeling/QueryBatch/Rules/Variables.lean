import QueryBatch.Rules.Walk

/-!
# Rules for variables

Variables are used in arguments, also inside lists and objects. An operation answers for the variables of every
fragment that it reaches.

* `Usage`: one use of a variable with what its place expects. `usagesOf`: all uses of an operation.
* `uniqueVariables`, `definedVariables`, `usedVariables`: declarations and uses match.
* `variablePositions`: a variable's type fits every place it is used in.
-/

namespace QueryBatch.Rules

/-! ## Usages -/

/-- One use of a variable: the definition it is in, the type its place expects, and whether that place has a default. -/
structure Usage where
  name : String
  span : Span
  subject : Subject
  expected : Option TypeRef
  hasDefault : Bool

/-- The fields of the input object that a type stands for, a list of them aside. -/
def inputFieldsOf? (schema : Schema) (expected : Option TypeRef) : Option Inputs :=
  match expected with
  | some type => if type.isList then none else (schema.type? type.baseName).bind TypeDef.inputFields?
  | none => none

section Collect

variable (schema : Schema) (s : Subject)

mutual

/-- The uses of variables in a value. -/
def usagesIn (expected : Option TypeRef) (hasDefault : Bool) : Value → List Usage
  | .variable name span => [⟨name, span, s, expected, hasDefault⟩]
  | .list items _ => usagesInItems (expected.bind TypeRef.listItem?) items
  | .object fields _ => usagesInFields (inputFieldsOf? schema expected) fields
  | _ => []

def usagesInItems (expected : Option TypeRef) : List Value → List Usage
  | [] => []
  | item :: items => usagesIn expected false item ++ usagesInItems expected items

def usagesInFields (inputs : Option Inputs) : List (Name × Value) → List Usage
  | [] => []
  | (name, value) :: fields =>
    let declared := inputs.bind fun inputs => inputs.find? name.text
    usagesIn (declared.map InputDef.type) (declared.any fun d => d.defaultText.isSome) value ++
      usagesInFields inputs fields

end

/-- The uses of variables in a definition. -/
def usagesWithin : List Usage :=
  (s.visits schema).flatMap fun
    | .argument _ a declared =>
      usagesIn schema s (declared.map InputDef.type) (declared.any fun d => d.defaultText.isSome) a.value
    | _ => []

end Collect

/-- The uses of variables in an operation, then those in the fragments it reaches. -/
def usagesOf (cx : Context) (s : Subject) (op : Operation) : List Usage :=
  usagesWithin cx.schema s ++ (cx.reachable op.body).flatMap fun (s, _) => usagesWithin cx.schema s

/-! ## Declarations and uses -/

/-- An operation as messages about its variables name it. -/
def describeOperation (op : Operation) : String :=
  match op.name with
  | some name => "operation `" ++ name.text ++ "`"
  | none => "the anonymous operation"

/-- The variables of an operation have different names. -/
def uniqueVariables : Rule := fun cx =>
  cx.operations.flatMap fun (s, op) =>
    (repeats (fun v => v.name.text) op.variableDefinitions).map fun (first, v) =>
      s.rejectedFor (((s.diagnostic .duplicateVariable v.name.span).withDetail v.name.text).relatedTo s.source
        first.name.span "first defined here")

/-- The uses that differ in name, source or span from all uses before. -/
def distinctUsages (done : List (String × Nat × Span)) : List Usage → List Usage
  | [] => []
  | u :: rest =>
    let key := (u.name, u.subject.source, u.span)
    if key ∈ done then distinctUsages done rest else u :: distinctUsages (key :: done) rest

/-- The uses of variables that an operation does not declare, each place once. -/
def undefinedUsages (cx : Context) (s : Subject) (op : Operation) : List Usage :=
  distinctUsages [] ((usagesOf cx s op).filter fun u => op.variableDefinitions.all fun v => v.name.text != u.name)

/-- Every variable used is declared. The use may stand in a fragment; the operation is rejected for it. -/
def definedVariables : Rule := fun cx =>
  cx.operations.flatMap fun (s, op) =>
    (undefinedUsages cx s op).map fun u =>
      s.rejectedFor (((u.subject.diagnostic .undefinedVariable u.span).withDetail
        ("variable `$" ++ u.name ++ "` is not defined by " ++ describeOperation op)).relatedTo s.source op.headSpan
          "operation defined here")

/-- Every variable declared is used. -/
def usedVariables : Rule := fun cx =>
  cx.operations.flatMap fun (s, op) =>
    let used := (usagesOf cx s op).map Usage.name
    (op.variableDefinitions.filter fun v => !used.contains v.name.text).map fun v =>
      s.rejectedFor ((s.diagnostic .unusedVariable v.name.span).withDetail
        ("variable `$" ++ v.name.text ++ "` is never used in " ++ describeOperation op))

/-! ## Positions -/

/-- Whether a variable may stand in a place. A nullable variable may feed a non-null place if either of them has a
default. -/
def fitsPosition (v : VariableDefinition) (expected : TypeRef) (hasDefault : Bool) : Bool :=
  if expected.isNonNull && !v.type.isNonNull then
    (hasDefault || v.defaultValue.any fun value => !value.isNull) && v.type.isSubtypeOf expected.nullable
  else v.type.isSubtypeOf expected

/-- The declaration that a use refers to: the last of its name. -/
def declarationOf? (op : Operation) (u : Usage) : Option VariableDefinition :=
  op.variableDefinitions.reverse.find? fun v => v.name.text == u.name

/-- The types of variables fit the places they are used in. -/
def variablePositions : Rule := fun cx =>
  cx.operations.flatMap fun (s, op) =>
    (usagesOf cx s op).filterMap fun u =>
      match declarationOf? op u, u.expected with
      | some v, some expected =>
        if fitsPosition v expected u.hasDefault then none
        else
          some (s.rejectedFor (((u.subject.diagnostic .variableInWrongPosition u.span).withDetail
            ("variable `$" ++ u.name ++ "` of type `" ++ v.type.text ++ "` used in position expecting type `" ++
              expected.text ++ "`")).relatedTo s.source v.span "variable defined here"))
      | _, _ => none

end QueryBatch.Rules
