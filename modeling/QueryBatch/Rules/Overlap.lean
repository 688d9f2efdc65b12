import QueryBatch.Document.Print
import QueryBatch.Rules.Expansion

/-!
# Fields that share a response key

Two fields of an expanded selection set with one response key stand for one entry of the response, so they have to
merge: the same field with the same arguments, unless they are asked of different object types, and types of one shape.
The selection sets of two such fields are compared pairwise, one side against the other.

* `conflictBetween`: why two fields do not merge, if they do not.
* `conflicts`: the conflicts of every selection set of a context.
* `overlappingFields`: a conflict is reported once, where its second field stands, and rejects every definition that it
  is met in.
-/

namespace QueryBatch.Rules

/-! ## Parts of the comparison -/

/-- Whether two argument lists give the same arguments the same values, in any order. -/
def sameArguments (a b : List Argument) : Bool :=
  a.length == b.length &&
    a.all fun x => b.any fun y => y.name.text == x.name.text && y.value.text == x.value.text

/-- Whether the values of two types cannot stand in one place: lists, non-null marks or the names of scalars and enums
differ. -/
def typesConflict (schema : Schema) : TypeRef → TypeRef → Bool
  | .list a, .list b => typesConflict schema a b
  | .nonNull a, .nonNull b => typesConflict schema a b
  | .named a, .named b => (isLeaf a || isLeaf b) && a != b
  | _, _ => true
where
  isLeaf (name : String) : Bool := (schema.type? name).any TypeDef.isLeaf

/-- Whether two parents are different object types, so that no object has both. -/
def exclusiveParents : Option TypeDef → Option TypeDef → Bool
  | some a, some b => a.kind == .object && b.kind == .object && a.name != b.name
  | _, _ => false

/-- Why two fields do not merge, their selection sets aside. -/
def headConflict (schema : Schema) (exclusive : Bool) (first second : Placed) : Option String :=
  let a := first.field.name.text
  let b := second.field.name.text
  if !exclusive && a != b then some ("`" ++ a ++ "` and `" ++ b ++ "` are different fields")
  else if !exclusive && !sameArguments first.field.arguments second.field.arguments then
    some "they have differing arguments"
  else
    match first.declared, second.declared with
    | some x, some y =>
      if typesConflict schema x.type y.type then
        some ("they return conflicting types `" ++ x.type.text ++ "` and `" ++ y.type.text ++ "`")
      else none
    | _, _ => none

/-- The fields of a selection set below a placed field, and the spreads met. -/
def expandBelow (cx : Context) (p : Placed) (set : SelectionSet) (seen : List String) : Expanded :=
  cx.expand p.subject (childType? cx.schema p.declared) set seen

/-- Pairs of a field on the left and one on the right with the same response key, with that key. -/
def keyedPairs (left right : List Placed) : List (String × Placed × Placed) :=
  (grouped left).flatMap fun (key, as) =>
    as.flatMap fun a => (right.filter fun b => b.responseKey == key).map fun b => (key, a, b)

/-! ## Conflicts -/

/-- Why two fields with one response key do not merge. `seen` are the spreads expanded above them; `room` bounds the
depth of the comparison. Fields in one place are one field met twice, which merges with itself: in a document that is
read no two fields of a definition stand in one place, see `Document.nodup_fieldSpans_of_read`. -/
def conflictBetween (cx : Context) : (room : Nat) → (exclusive : Bool) → (seen : List String) → Placed → Placed →
    Option String
  | 0, _, _, _, _ => none
  | room + 1, exclusive, seen, first, second =>
    if first.place = second.place then none
    else
      let exclusive := exclusive || exclusiveParents first.parent second.parent
      match headConflict cx.schema exclusive first second, first.body, second.body with
      | some reason, _, _ => some reason
      | none, some firstSet, some secondSet =>
        let (left, leftSeen) := expandBelow cx first firstSet seen
        let (right, rightSeen) := expandBelow cx second secondSet seen
        let reasons := (keyedPairs left right).filterMap fun (key, a, b) =>
          (conflictBetween cx room exclusive (leftSeen ++ rightSeen) a b).map fun reason =>
            "subfields `" ++ key ++ "` conflict because " ++ reason
        if reasons.isEmpty then none else some (" and ".intercalate reasons)
      | _, _, _ => none

/-- Two fields that do not merge. -/
structure Conflict where
  key : String
  reason : String
  first : Placed
  second : Placed

/-- The pairs of different members of a list, in order. -/
def orderedPairs {α : Type} : List α → List (α × α)
  | [] => []
  | a :: rest => rest.map (fun b => (a, b)) ++ orderedPairs rest

/-- The number of selection sets in the bodies of a context. -/
def selectionSetCount (cx : Context) : Nat :=
  cx.visits.countP fun
    | (_, .selectionSet _ _) => true
    | _ => false

/-- Room enough for the comparison of any two fields. On the way down from a field a selection set comes at most twice:
in the definition of the field, and again if that is a fragment which is spread further down. -/
def comparisonRoom (cx : Context) : Nat := 2 * selectionSetCount cx + 1

/-- The conflicts between the fields of one selection set. -/
def conflictsIn (cx : Context) (room : Nat) (s : Subject) (parent : Option TypeDef) (set : SelectionSet) :
    List Conflict :=
  (grouped (cx.expand s parent set []).1).flatMap fun (key, fields) =>
    (orderedPairs fields).filterMap fun (first, second) =>
      (conflictBetween cx room false [] first second).map fun reason => ⟨key, reason, first, second⟩

/-- The conflicts of every selection set, each with the definition that the set is in. -/
def conflicts (cx : Context) : List (Subject × Conflict) :=
  let room := comparisonRoom cx
  cx.visits.flatMap fun
    | (s, .selectionSet parent set) => (conflictsIn cx room s parent set).map fun c => (s, c)
    | _ => []

/-! ## Findings -/

/-- The diagnostic for a conflict. It stands at the second field. -/
def Conflict.diagnostic (c : Conflict) : Diagnostic :=
  ((c.second.subject.diagnostic .fieldsConflict c.second.field.span).withDetail
    ("fields `" ++ c.key ++ "` conflict because " ++ c.reason ++
      "; use different aliases on the fields to fetch both if this was intentional")).relatedTo
        c.first.subject.source c.first.field.span "conflicts with this field"

/-- Whether two fields were reported, in either order. -/
def wasReported (reported : List ((Owner × Span) × (Owner × Span))) (c : Conflict) : Bool :=
  reported.contains (c.second.place, c.first.place) || reported.contains (c.first.place, c.second.place)

/-- The findings for conflicts, given the pairs reported before. A pair that was reported only rejects the definition it
is met in. -/
def conflictFindings (reported : List ((Owner × Span) × (Owner × Span))) : List (Subject × Conflict) → List Finding
  | [] => []
  | (s, c) :: rest =>
    if wasReported reported c then ⟨none, [s.owner]⟩ :: conflictFindings reported rest
    else
      ⟨some c.diagnostic, [c.second.subject.owner, c.first.subject.owner, s.owner]⟩ ::
        conflictFindings ((c.second.place, c.first.place) :: reported) rest

/-- Fields that share a response key merge. -/
def overlappingFields : Rule := fun cx => conflictFindings [] (conflicts cx)

end QueryBatch.Rules
