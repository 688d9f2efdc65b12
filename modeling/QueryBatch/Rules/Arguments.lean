import QueryBatch.Rules.Walk

/-!
# Rules for arguments

Arguments of fields and directives that the schema does not know are passed over, for those are reported themselves.

* `knownArguments`: arguments are declared.
* `uniqueArguments`: an argument is given once.
* `requiredArguments`: arguments that must be given are given.
-/

namespace QueryBatch.Rules

/-- Arguments are those that the field or directive declares. -/
def knownArguments : Rule := eachVisit fun _ s v =>
  match v with
  | .arguments site arguments =>
    match site.inputs? with
    | some inputs =>
      (arguments.filter fun a => !inputs.contains a.name.text).map fun a =>
        let name := a.name.text
        s.rejectedFor (suggest ((s.diagnostic .unknownArgument a.name.span).withDetail
          ("`" ++ name ++ "` on " ++ site.describe)) name inputs.keys)
    | none => []
  | _ => []

/-- An argument is given once. -/
def uniqueArguments : Rule := eachVisit fun _ s v =>
  match v with
  | .arguments _ arguments =>
    (repeats (fun a => a.name.text) arguments).map fun (first, a) =>
      s.rejectedFor (((s.diagnostic .duplicateArgument a.name.span).withDetail a.name.text).relatedTo s.source
        first.name.span "first provided here")
  | _ => []

namespace ArgumentSite

/-- Where the arguments of the site are missing. -/
def span : ArgumentSite → Span
  | field _ _ _ span => span
  | directive d _ => d.span

/-- The field, without its parent, or directive. -/
def shortName : ArgumentSite → String
  | field _ f _ _ => "field `" ++ f.name.text ++ "`"
  | directive d _ => "directive `@" ++ d.name.text ++ "`"

end ArgumentSite

/-- Arguments of a non-null type without a default are given. -/
def requiredArguments : Rule := eachVisit fun _ s v =>
  match v with
  | .arguments site arguments =>
    match site.inputs? with
    | some inputs =>
      let missing := inputs.values.filter fun d => d.isRequired && arguments.all fun a => a.name.text != d.name
      missing.map fun d =>
        s.rejectedFor ((s.diagnostic .missingRequiredArgument site.span).withDetail
          (site.shortName ++ " argument `" ++ d.name ++ "` of type `" ++ d.type.text ++
            "` is required, but it was not provided"))
    | none => []
  | _ => []

end QueryBatch.Rules
