/-!
# Kinds of diagnostics

Every fault a batch can have, the phase that finds it, the number it is published under and the wording of its
message.

* `Kind.code`: one number for each phase.
* `Kind.message`: the fallback wording, or the kind's template filled with a detail.
-/

namespace QueryBatch.Diagnostic

/-- What a diagnostic reports. -/
inductive Kind where
  | unexpectedToken
  | invalidCharacter
  | unterminatedString
  | unclosedDelimiter
  | expectedDefinition
  | expectedName
  | expectedSelectionSet
  | expectedType
  | expectedValue
  | nonExecutableDefinition
  | loneAnonymousOperation
  | unknownType
  | fragmentOnNonCompositeType
  | variableNotInputType
  | selectionOnLeafField
  | missingSelectionSet
  | impossibleFragmentSpread
  | invalidValue
  | variableInWrongPosition
  | duplicateOperationName
  | subscriptionMultipleRootFields
  | unknownField
  | duplicateFragmentName
  | fragmentCycle
  | duplicateVariable
  | undefinedVariable
  | unusedVariable
  | unknownDirective
  | misplacedDirective
  | duplicateDirective
  | unknownArgument
  | duplicateArgument
  | missingRequiredArgument
  | fieldsConflict
  | duplicateInputField
  | invalidFragmentDependency
  | undefinedFragment
  | multipleRootQueries
  deriving DecidableEq, Repr, Inhabited

/-- The part of a run that finds a fault. -/
inductive Phase where
  | syntactic
  | structural
  | global
  | resolution
  | compilation
  deriving DecidableEq, Repr, Inhabited

/-! ## Phase and code -/

def Kind.phase : Kind → Phase
  | .unexpectedToken | .invalidCharacter | .unterminatedString | .unclosedDelimiter | .expectedDefinition
  | .expectedName | .expectedSelectionSet | .expectedType | .expectedValue | .nonExecutableDefinition => .syntactic
  | .loneAnonymousOperation | .unknownType | .fragmentOnNonCompositeType | .variableNotInputType
  | .selectionOnLeafField | .missingSelectionSet | .impossibleFragmentSpread | .invalidValue
  | .variableInWrongPosition => .structural
  | .undefinedFragment => .resolution
  | .multipleRootQueries => .compilation
  | .duplicateOperationName | .subscriptionMultipleRootFields | .unknownField | .duplicateFragmentName
  | .fragmentCycle | .duplicateVariable | .undefinedVariable | .unusedVariable | .unknownDirective
  | .misplacedDirective | .duplicateDirective | .unknownArgument | .duplicateArgument | .missingRequiredArgument
  | .fieldsConflict | .duplicateInputField | .invalidFragmentDependency => .global

def Phase.code : Phase → String
  | .syntactic => "85911"
  | .structural => "85907"
  | .global => "85901"
  | .resolution => "85908"
  | .compilation => "85910"

/-- The published number, shared by the kinds of one phase. -/
def Kind.code (kind : Kind) : String := kind.phase.code

/-! ## Wording -/

/-- The wording without a detail. -/
def Kind.fallback : Kind → String
  | .unexpectedToken => "unexpected token"
  | .invalidCharacter => "invalid character"
  | .unterminatedString => "unterminated string"
  | .unclosedDelimiter => "missing closing delimiter"
  | .expectedDefinition => "expected an operation or fragment definition"
  | .expectedName => "expected a name"
  | .expectedSelectionSet => "expected a selection set"
  | .expectedType => "expected a type"
  | .expectedValue => "expected a value"
  | .nonExecutableDefinition => "type system definitions are not allowed in queries"
  | .loneAnonymousOperation => "an anonymous operation must be the only operation in its document"
  | .unknownType => "unknown type"
  | .fragmentOnNonCompositeType => "fragments can only condition on composite types"
  | .variableNotInputType => "variables must be of input type"
  | .selectionOnLeafField => "leaf fields cannot have a selection set"
  | .missingSelectionSet => "fields of composite type need a selection set"
  | .impossibleFragmentSpread => "fragment can never apply here"
  | .invalidValue => "invalid value"
  | .variableInWrongPosition => "variable type does not fit its position"
  | .duplicateOperationName => "duplicate operation name"
  | .subscriptionMultipleRootFields => "subscriptions must select exactly one top-level field"
  | .unknownField => "unknown field"
  | .duplicateFragmentName => "duplicate fragment name"
  | .fragmentCycle => "fragment spreads itself"
  | .duplicateVariable => "duplicate variable"
  | .undefinedVariable => "undefined variable"
  | .unusedVariable => "unused variable"
  | .unknownDirective => "unknown directive"
  | .misplacedDirective => "directive not allowed here"
  | .duplicateDirective => "directive used more than once"
  | .unknownArgument => "unknown argument"
  | .duplicateArgument => "duplicate argument"
  | .missingRequiredArgument => "missing required argument"
  | .fieldsConflict => "fields conflict"
  | .duplicateInputField => "duplicate input field"
  | .invalidFragmentDependency => "operation depends on an invalid fragment"
  | .undefinedFragment => "undefined fragment"
  | .multipleRootQueries => "multiple root queries in one file"

/-- A wording with one gap for a detail. -/
structure Template where
  before : String := ""
  after : String := ""
  deriving DecidableEq, Repr

/-- The template with the gap written as an empty pair of braces. -/
def Template.text (t : Template) : String := t.before ++ "\x7b\x7d" ++ t.after

/-- The template with a detail in the gap. -/
def Template.fill (t : Template) (detail : String) : String := t.before ++ detail ++ t.after

/-- The wording with a detail. Rules that phrase a whole sentence have a bare gap; all others put the detail into a
wording of their own or after the fallback. -/
def Kind.template : Kind → Template
  | .unclosedDelimiter => ⟨"missing closing `", "`"⟩
  | .unknownType => ⟨"unknown type `", "`"⟩
  | .unknownField => ⟨"cannot query field ", ""⟩
  | .unknownArgument => ⟨"unknown argument ", ""⟩
  | .unknownDirective => ⟨"unknown directive `@", "`"⟩
  | .duplicateDirective => ⟨"directive `@", "` is used more than once here"⟩
  | .duplicateOperationName => ⟨"there can be only one operation named `", "`"⟩
  | .duplicateFragmentName => ⟨"there can be only one fragment named `", "`"⟩
  | .duplicateVariable => ⟨"there can be only one variable named `$", "`"⟩
  | .duplicateArgument => ⟨"there can be only one argument named `", "`"⟩
  | .duplicateInputField => ⟨"there can be only one input field named `", "`"⟩
  | .undefinedFragment => ⟨"unknown fragment `", "`"⟩
  | .invalidFragmentDependency => ⟨"operation depends on invalid fragment `", "`"⟩
  | .fragmentCycle => ⟨"cannot spread fragment `", "` within itself"⟩
  | .loneAnonymousOperation | .fragmentOnNonCompositeType | .variableNotInputType | .selectionOnLeafField
  | .missingSelectionSet | .impossibleFragmentSpread | .invalidValue | .variableInWrongPosition
  | .subscriptionMultipleRootFields | .undefinedVariable | .unusedVariable | .misplacedDirective
  | .missingRequiredArgument | .fieldsConflict | .multipleRootQueries | .nonExecutableDefinition => {}
  | kind => ⟨kind.fallback ++ ": ", ""⟩

/-- The message of a kind, with or without a detail. -/
def Kind.message (kind : Kind) : Option String → String
  | none => kind.fallback
  | some detail => kind.template.fill detail

end QueryBatch.Diagnostic
