import QueryBatch.Rules.Walk

/-!
# Rules for type names

* `knownTypes`: conditions and variables name types of the schema.
* `compositeConditions`: fragments condition on types with fields.
* `inputVariables`: variables have input types.
-/

namespace QueryBatch.Rules

/-! ## Known types -/

/-- The diagnostic for a type name that the schema does not know. -/
def unknownType (s : Subject) (name : String) (span : Span) : Diagnostic :=
  (s.diagnostic .unknownType span).withDetail name

/-- The type names at one visit that the schema does not know. A name is proposed where the span is that of the name
alone, which it is not inside a list. -/
def unknownTypesAt (cx : Context) (s : Subject) : Visit → List Diagnostic
  | .enterFragment frag => ofName frag.condition
  | .inline _ i => i.condition.toList.flatMap ofName
  | .variableDefinition v =>
    let name := v.type.baseName
    if (cx.type? name).isSome then []
    else
      match v.type.nullable with
      | .named _ =>
        [suggest (unknownType s name ⟨v.typeSpan.start, v.typeSpan.start + name.utf8ByteSize⟩) name
          cx.schema.typeNames]
      | _ => [unknownType s name v.typeSpan]
  | _ => []
where
  ofName (name : Name) : List Diagnostic :=
    if (cx.type? name.text).isSome then []
    else [suggest (unknownType s name.text name.span) name.text cx.schema.typeNames]

/-- Type names are those of the schema. -/
def knownTypes : Rule := eachVisit fun cx s v => (unknownTypesAt cx s v).map s.rejectedFor

/-! ## Composite conditions -/

/-- Whether a name is that of a type without fields. -/
def isNonComposite (cx : Context) (name : String) : Bool := (cx.type? name).any fun type => !type.isComposite

/-- The finding for a condition on a type without fields. -/
def nonComposite (s : Subject) (fragment : String) (condition : Name) : Finding :=
  s.rejectedFor ((s.diagnostic .fragmentOnNonCompositeType condition.span).withDetail
    (fragment ++ " cannot condition on non-composite type `" ++ condition.text ++ "`"))

/-- Fragments condition on objects, interfaces and unions. -/
def compositeConditions : Rule := eachVisit fun cx s v =>
  match v with
  | .enterFragment frag =>
    if isNonComposite cx frag.condition.text then
      [nonComposite s ("fragment `" ++ frag.name.text ++ "`") frag.condition]
    else []
  | .inline _ i =>
    (i.condition.toList.filter fun name => isNonComposite cx name.text).map (nonComposite s "fragment")
  | _ => []

/-! ## Input variables -/

/-- Variables have scalar, enum or input object types inside their lists. -/
def inputVariables : Rule := eachVisit fun cx s v =>
  match v with
  | .variableDefinition v =>
    if (cx.type? v.type.baseName).any fun type => !type.isInput then
      [s.rejectedFor ((s.diagnostic .variableNotInputType v.typeSpan).withDetail
        ("variable `$" ++ v.name.text ++ "` cannot be non-input type `" ++ v.type.text ++ "`"))]
    else []
  | _ => []

end QueryBatch.Rules
