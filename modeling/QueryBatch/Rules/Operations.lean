import QueryBatch.Rules.Expansion

/-!
# Rules for operations

* `loneAnonymous`: an operation without a name stands alone in its document.
* `uniqueOperationNames`: names of operations differ.
* `singleRootField`: a subscription asks for one top-level field.
-/

namespace QueryBatch.Rules

/-- An operation without a name stands alone. -/
def loneAnonymous : Rule := fun cx =>
  if cx.operations.length < 2 then []
  else
    (cx.operations.filter fun (_, op) => op.name.isNone).map fun (s, op) =>
      s.rejectedFor ((s.diagnostic .loneAnonymousOperation op.headSpan).withDetail
        "this anonymous operation must be the only operation in its document")

/-- The operations that have a name, with it. -/
def namedOperations (cx : Context) : List (Subject × Name) :=
  cx.operations.filterMap fun (s, op) => op.name.map fun name => (s, name)

/-- Of the operations with one name all but the first are rejected. -/
def uniqueOperationNames : Rule := fun cx =>
  (repeats (fun (_, name) => name.text) (namedOperations cx)).map fun ((first, firstName), (s, name)) =>
    s.rejectedFor (((s.diagnostic .duplicateOperationName name.span).withDetail name.text).relatedTo first.source
      firstName.span "first defined here")

/-! ## Subscriptions -/

/-- A subscription as messages name it. -/
def describeSubscription (op : Operation) : String :=
  match op.name with
  | some name => "subscription `" ++ name.text ++ "`"
  | none => "anonymous subscription"

/-- The top-level fields of an operation whose response key is not that of the first. -/
def extraRootFields (cx : Context) (s : Subject) (op : Operation) : List Field :=
  match (cx.expand s none op.body []).1.map Placed.field with
  | [] => []
  | first :: rest => rest.filter fun f => f.responseKey != first.responseKey

/-- The top-level fields of a subscription share one response key. The diagnostic points to all that do not fit. -/
def singleRootField : Rule := fun cx =>
  cx.operations.filterMap fun (s, op) =>
    match op.kind, extraRootFields cx s op with
    | .subscription, extra :: more =>
      let span := more.foldl (fun span f => span.cover f.span) extra.span
      some (s.rejectedFor ((s.diagnostic .subscriptionMultipleRootFields span).withDetail
        (describeSubscription op ++ " must select only one top-level field")))
    | _, _ => none

end QueryBatch.Rules
