import QueryBatch.Rules.Arguments
import QueryBatch.Rules.Directives
import QueryBatch.Rules.Fields
import QueryBatch.Rules.Fragments
import QueryBatch.Rules.Operations
import QueryBatch.Rules.Overlap
import QueryBatch.Rules.Types
import QueryBatch.Rules.Values
import QueryBatch.Rules.Variables

/-!
# Validation

Two sets of rules. Structural rules need one document and the schema; global rules need all operations and fragments of
a batch. Every rule reports all that it finds.

* `validateStructural`: the diagnostics of a document alone.
* `validateGlobal`: the diagnostics of a batch, the operations rejected and the fragments tainted.
-/

namespace QueryBatch

open Rules

namespace Rules

/-- The rules that need one document. -/
def structuralRules : List Rule :=
  [loneAnonymous, knownTypes, compositeConditions, inputVariables, scalarLeafs, possibleSpreads, correctValues,
    variablePositions]

/-- The rules that need the whole batch. -/
def globalRules : List Rule :=
  [uniqueOperationNames, singleRootField, knownFields, uniqueFragmentNames, acyclicFragments, uniqueVariables,
    definedVariables, usedVariables, knownDirectives, uniqueDirectives, knownArguments, uniqueArguments,
    requiredArguments, overlappingFields, uniqueInputFields]

/-- The findings of rules, rule after rule. -/
def findings (rules : List Rule) (cx : Context) : List Finding := rules.flatMap fun rule => rule cx

end Rules

/-- The faults of a document alone. -/
def validateStructural (schema : Schema) (source : Nat) (document : Document) : List Diagnostic :=
  (findings structuralRules (.ofDocument schema source document)).filterMap Finding.diagnostic

/-- What the global rules say: their diagnostics, the indices of the operations and the names of the fragments that were
rejected. -/
structure GlobalValidation where
  diagnostics : List Diagnostic
  rejected : OrderedSet Nat
  tainted : OrderedSet String

/-- The faults of a batch. Spreads stand for the first fragment of their name. -/
def validateGlobal (schema : Schema) (operations : List (Nat × Operation)) (fragments : List (Nat × Fragment)) :
    GlobalValidation :=
  let found := findings globalRules (.of schema operations fragments)
  let owners := (found.flatMap Finding.rejected)
  { diagnostics := found.filterMap Finding.diagnostic
    rejected := .ofList (owners.filterMap fun
      | .operation index => some index
      | .fragment _ => none)
    tainted := .ofList (owners.filterMap fun
      | .operation _ => none
      | .fragment index => fragments[index]?.map fun (_, frag) => frag.name.text) }

end QueryBatch
