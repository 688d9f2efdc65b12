import QueryBatch.Rules.Walk

/-!
# Rules for directives

* `knownDirectives`: directives are declared, and stand where their declaration allows.
* `uniqueDirectives`: a directive that is not repeatable stands once in a place.
-/

namespace QueryBatch.Rules

/-- Directives are those of the schema and stand in their locations. -/
def knownDirectives : Rule := eachVisit fun cx s v =>
  match v with
  | .directives location directives =>
    directives.flatMap fun d =>
      let name := d.name.text
      match cx.schema.directive? name with
      | none =>
        [s.rejectedFor (suggest ((s.diagnostic .unknownDirective d.name.span).withDetail name) name
          cx.schema.directiveNames)]
      | some declared =>
        if declared.locations.contains location then []
        else
          [s.rejectedFor ((s.diagnostic .misplacedDirective d.span).withDetail
            ("directive `@" ++ name ++ "` may not be used on " ++ location.name))]
  | _ => []

/-- Directives that are declared and not repeatable stand once in a place. -/
def uniqueDirectives : Rule := eachVisit fun cx s v =>
  match v with
  | .directives _ directives =>
    let single := directives.filter fun d => (cx.schema.directive? d.name.text).any fun declared => !declared.repeatable
    (repeats (fun d => d.name.text) single).map fun (first, d) =>
      s.rejectedFor (((s.diagnostic .duplicateDirective d.span).withDetail d.name.text).relatedTo s.source first.span
        "first used here")
  | _ => []

end QueryBatch.Rules
