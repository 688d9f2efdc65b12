import QueryBatch.Rules.Walk

/-!
# Selection sets with their fragments put in place

* `Placed`: a field as it stands in an expanded selection set, with the definition whose text it is in.
* `Context.expand`: the fields of a selection set, inline fragments and spreads expanded in the order of the text. Of
  the spreads of one name only the first is followed, so that cyclic spreads come to an end.
* `grouped`: fields by response key.
-/

namespace QueryBatch.Rules

/-- A field in an expanded selection set. The subject is the definition whose text holds the field, the parent the type
that it is asked of. -/
structure Placed where
  subject : Subject
  parent : Option TypeDef
  field : Field
  body : Option SelectionSet
  declared : Option FieldDef

namespace Placed

/-- A field placed under a parent. -/
def under (schema : Schema) (subject : Subject) (parent : Option TypeDef) (field : Field)
    (body : Option SelectionSet) : Placed :=
  { subject, parent, field, body, declared := fieldDef? schema parent field }

def responseKey (p : Placed) : String := p.field.responseKey

/-- What tells a field from all others: its definition and its span. -/
def place (p : Placed) : Owner × Span := (p.subject.owner, p.field.span)

end Placed

/-! ## Expansion -/

/-- The fields found, and the names of the spreads met so far. -/
abbrev Expanded := List Placed × List String

section Expand

variable (schema : Schema) (follow : Spread → List String → Expanded)

mutual

/-- Expands one selection of a definition; `follow` expands a spread. -/
def expandSelection (subject : Subject) (parent : Option TypeDef) : Selection → List String → Expanded
  | .field f, seen => ([.under schema subject parent f none], seen)
  | .group f selections span, seen => ([.under schema subject parent f (some ⟨selections, span⟩)], seen)
  | .spread s, seen => follow s seen
  | .inline i selections _, seen => expandSelections subject (inlineType? schema parent i) selections seen

def expandSelections (subject : Subject) (parent : Option TypeDef) : List Selection → List String → Expanded
  | [], seen => ([], seen)
  | selection :: rest, seen =>
    let (first, seen) := expandSelection subject parent selection seen
    let (more, seen) := expandSelections subject parent rest seen
    (first ++ more, seen)

end

end Expand

namespace Context

/-- Expands a spread through at most `room` fragments, one inside the other. A spread whose name was met before, or that
names no fragment, adds nothing. -/
def expandSpread (cx : Context) : (room : Nat) → Spread → List String → Expanded
  | 0, _, seen => ([], seen)
  | room + 1, spread, seen =>
    let name := spread.name.text
    if name ∈ seen then ([], seen)
    else
      match cx.fragment? name with
      | some (subject, frag) =>
        expandSelections cx.schema (cx.expandSpread room) subject (cx.type? frag.condition.text) frag.body.selections
          (name :: seen)
      | none => ([], name :: seen)

/-- The fields of a selection set, the spreads in `seen` left out, and the spreads met. No fragment is open twice, so
there is room enough. -/
def expand (cx : Context) (subject : Subject) (parent : Option TypeDef) (set : SelectionSet) (seen : List String) :
    Expanded :=
  expandSelections cx.schema (cx.expandSpread (cx.fragments.length + 1)) subject parent set.selections seen

end Context

/-! ## Grouping -/

/-- Fields by response key, the keys in order of first appearance. -/
def grouped (fields : List Placed) : List (String × List Placed) :=
  (OrderedSet.ofList (fields.map Placed.responseKey)).toList.map fun key =>
    (key, fields.filter fun p => p.responseKey == key)

end QueryBatch.Rules
