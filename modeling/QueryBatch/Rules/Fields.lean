import QueryBatch.Rules.Walk

/-!
# Rules for fields and where fragments are put

* `scalarLeafs`: fields have a selection set just if their type has fields.
* `knownFields`: fields are declared by their parent type.
* `possibleSpreads`: a fragment's type has an object type in common with the type it is put under.
-/

namespace QueryBatch.Rules

/-! ## Selection sets -/

/-- A field has a selection set if, and only if, its type is no scalar or enum. -/
def scalarLeafs : Rule := eachVisit fun cx s v =>
  match v with
  | .field _ f body (some declared) =>
    match cx.type? declared.type.baseName, body with
    | some type, some set =>
      if type.isLeaf then
        [s.rejectedFor ((s.diagnostic .selectionOnLeafField set.span).withDetail
          ("field `" ++ f.name.text ++ "` must not have a selection since type `" ++ declared.type.text ++
            "` has no subfields"))]
      else []
    | some type, none =>
      if type.isLeaf then []
      else
        [s.rejectedFor ((s.diagnostic .missingSelectionSet f.span).withDetail
          ("field `" ++ f.name.text ++ "` of type `" ++ declared.type.text ++
            "` must have a selection of subfields"))]
    | none, _ => []
  | _ => []

/-! ## Known fields -/

/-- A field of a known parent is declared by it. -/
def knownFields : Rule := eachVisit fun _ s v =>
  match v with
  | .field (some parent) f _ none =>
    let name := f.name.text
    let candidates := (parent.fields?.map OrderedMap.keys).getD []
    [s.rejectedFor (suggest ((s.diagnostic .unknownField f.name.span).withDetail
      ("`" ++ name ++ "` on type `" ++ parent.name ++ "`")) name candidates)]
  | _ => []

/-! ## Possible spreads -/

/-- Whether a fragment on `condition` can apply under `parent`. Types that are not composite are left to other rules. -/
def canApply (cx : Context) (parent condition : TypeDef) : Bool :=
  !parent.isComposite || !condition.isComposite || cx.schema.typesOverlap parent condition

/-- The finding for a fragment that can never apply. -/
def impossibleSpread (s : Subject) (span : Span) (fragment : String) (parent condition : TypeDef) : Finding :=
  s.rejectedFor ((s.diagnostic .impossibleFragmentSpread span).withDetail
    (fragment ++ " cannot be spread here as objects of type `" ++ parent.name ++ "` can never be of type `" ++
      condition.name ++ "`"))

/-- Fragments are put only where they can apply. -/
def possibleSpreads : Rule := eachVisit fun cx s v =>
  match v with
  | .inline (some parent) i =>
    match i.condition.bind fun name => cx.type? name.text with
    | some condition =>
      if canApply cx parent condition then [] else [impossibleSpread s i.span "fragment" parent condition]
    | none => []
  | .spread (some parent) spread =>
    match (cx.fragment? spread.name.text).bind fun (_, frag) => cx.type? frag.condition.text with
    | some condition =>
      if canApply cx parent condition then []
      else [impossibleSpread s spread.span ("fragment `" ++ spread.name.text ++ "`") parent condition]
    | none => []
  | _ => []

end QueryBatch.Rules
