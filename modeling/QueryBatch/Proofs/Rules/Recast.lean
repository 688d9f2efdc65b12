import QueryBatch.Proofs.Document.Respanned
import QueryBatch.Proofs.Rules.Context
import QueryBatch.Rules.Validate

/-!
# Definitions in other places

The same definitions may be read from other sources, at other spans, and be numbered in another way. A recast puts them
into other places; the sources are forgotten, and so are all spans but those of fields.

* `Recast`: other owners and other spans for the fields of each owner.
* `Subject.visits_recast`: on the walk through a recast definition the same things are met.
* `Context.recast`: the fragments of a context, recast. Operations say nothing about other definitions.
* `Context.expand_recast`, `Context.reachable_recast`, `usagesOf_recast`: the same fields, fragments and variables are
  found.
-/

namespace QueryBatch.Rules

/-! ## Recasts -/

/-- One function for operations, another one for fragments. -/
def Owner.elim {α : Type} (operation fragment : Nat → α) : Owner → α
  | .operation index => operation index
  | .fragment index => fragment index

/-- New owners for definitions, and new spans for the fields of each owner. -/
structure Recast where
  owner : Owner → Owner
  span : Owner → Span → Span

/-- The recast that forgets all places. -/
def Recast.plain : Recast := ⟨fun _ => .operation 0, fun _ _ => .blank⟩

/-- A definition in its new place. -/
def Subject.recast (r : Recast) (s : Subject) : Subject :=
  ⟨r.owner s.owner, 0, s.definition.respanned (r.span s.owner)⟩

/-- A fragment in its new place. -/
def Recast.fragment (r : Recast) (x : Subject × Fragment) : Subject × Fragment :=
  (x.1.recast r, x.2.respanned (r.span x.1.owner))

/-- The fragments of a context in their new places. -/
def Context.recast (r : Recast) (cx : Context) : Context := ⟨cx.schema, cx.fragments.map fun x => x.1.recast r⟩

/-! ## Visits -/

section Visits

variable (σ : Span → Span) (schema : Schema)

def ArgumentSite.respanned : ArgumentSite → ArgumentSite
  | field parent f declared span => field parent (f.respanned σ) declared (σ span)
  | directive d declared => directive d.unspanned declared

/-- A visit with other spans at its fields. -/
def Visit.respanned : Visit → Visit
  | enterOperation op => enterOperation (op.respanned σ)
  | leaveOperation op => leaveOperation (op.respanned σ)
  | enterFragment frag => enterFragment (frag.respanned σ)
  | leaveFragment frag => leaveFragment (frag.respanned σ)
  | variableDefinition v => variableDefinition v.unspanned
  | selectionSet parent set => selectionSet parent (set.respanned σ)
  | field parent f body declared => field parent (f.respanned σ) (body.map (SelectionSet.respanned σ)) declared
  | inline parent i => inline parent i.unspanned
  | spread parent s => spread parent s.unspanned
  | directives location ds => directives location (ds.map Directive.unspanned)
  | arguments site as => arguments (site.respanned σ) (as.map Argument.unspanned)
  | argument site a declared => argument (site.respanned σ) a.unspanned declared

@[simp] theorem ArgumentSite.inputs?_respanned (site : ArgumentSite) : (site.respanned σ).inputs? = site.inputs? := by
  cases site <;> rfl

theorem argumentVisits_respanned (site : ArgumentSite) (arguments : List Argument) :
    argumentVisits (site.respanned σ) (arguments.map Argument.unspanned) =
      (argumentVisits site arguments).map (Visit.respanned σ) := by
  unfold argumentVisits ArgumentSite.input?
  rw [ArgumentSite.inputs?_respanned, List.map_cons, List.map_map, List.map_map]
  rfl

theorem directiveVisits_respanned (location : DirectiveLocation) (directives : List Directive) :
    directiveVisits schema location (directives.map Directive.unspanned) =
      (directiveVisits schema location directives).map (Visit.respanned σ) := by
  unfold directiveVisits
  rw [List.isEmpty_map]
  split
  · rfl
  · rw [List.map_cons, List.map_flatMap, List.flatMap_map]
    congr 1
    exact List.flatMap_congr fun d _ => argumentVisits_respanned σ (.directive d _) d.arguments

theorem fieldVisits_respanned (parent : Option TypeDef) (f : Field) (body : Option SelectionSet) :
    fieldVisits schema parent (f.respanned σ) (body.map (SelectionSet.respanned σ)) =
      (fieldVisits schema parent f body).map (Visit.respanned σ) := by
  unfold fieldVisits
  have harguments := argumentVisits_respanned σ (.field parent f (fieldDef? schema parent f) f.span) f.arguments
  have hdirectives := directiveVisits_respanned σ schema .field f.directives
  rw [List.map_append, List.map_cons, ← harguments, ← hdirectives]
  rfl

theorem inlineType?_unspanned (parent : Option TypeDef) (i : Inline) :
    inlineType? schema parent i.unspanned = inlineType? schema parent i := by
  unfold inlineType? Inline.unspanned
  cases i.condition <;> rfl

mutual

theorem selectionVisits_respanned : ∀ (parent : Option TypeDef) (selection : Selection),
    selectionVisits schema parent (selection.respanned σ) =
      (selectionVisits schema parent selection).map (Visit.respanned σ)
  | parent, .field f => fieldVisits_respanned σ schema parent f none
  | parent, .group f selections span => by
    have hfield := fieldVisits_respanned σ schema parent f (some ⟨selections, span⟩)
    have hbelow := selectionsVisits_respanned (childType? schema (fieldDef? schema parent f)) selections
    rw [selectionVisits, List.map_append, List.map_cons, ← hfield, ← hbelow]
    rfl
  | parent, .spread s => by
    have hdirectives := directiveVisits_respanned σ schema .fragmentSpread s.directives
    rw [selectionVisits, List.map_cons, ← hdirectives]
    rfl
  | parent, .inline i selections span => by
    have hdirectives := directiveVisits_respanned σ schema .inlineFragment i.directives
    have hbelow := selectionsVisits_respanned (inlineType? schema parent i) selections
    rw [selectionVisits, List.map_append, List.map_cons, List.map_cons, ← hdirectives, ← hbelow, Selection.respanned,
      selectionVisits, inlineType?_unspanned]
    rfl

theorem selectionsVisits_respanned : ∀ (parent : Option TypeDef) (selections : List Selection),
    selectionsVisits schema parent (Selection.respannedAll σ selections) =
      (selectionsVisits schema parent selections).map (Visit.respanned σ)
  | _, [] => rfl
  | parent, selection :: rest => by
    rw [Selection.respannedAll, selectionsVisits, selectionsVisits, List.map_append,
      selectionVisits_respanned parent selection, selectionsVisits_respanned parent rest]

end

theorem setVisits_respanned (parent : Option TypeDef) (set : SelectionSet) :
    setVisits schema parent (set.respanned σ) = (setVisits schema parent set).map (Visit.respanned σ) := by
  have hbelow := selectionsVisits_respanned σ schema parent set.selections
  unfold setVisits
  rw [List.map_cons, ← hbelow]
  rfl

theorem operationVisits_respanned (op : Operation) :
    operationVisits schema (op.respanned σ) = (operationVisits schema op).map (Visit.respanned σ) := by
  have hdirectives := directiveVisits_respanned σ schema (.ofOperation op.kind) op.directives
  have hbody := setVisits_respanned σ schema (schema.root? op.kind) op.body
  have hvariables : (op.variableDefinitions.map VariableDefinition.unspanned).flatMap (fun v =>
        .variableDefinition v :: directiveVisits schema .variableDefinition v.directives) =
      (op.variableDefinitions.flatMap fun v =>
        .variableDefinition v :: directiveVisits schema .variableDefinition v.directives).map (Visit.respanned σ) := by
    rw [List.flatMap_map, List.map_flatMap]
    refine List.flatMap_congr fun v _ => ?_
    rw [List.map_cons, ← directiveVisits_respanned σ schema .variableDefinition v.directives]
    rfl
  simp only [operationVisits, List.map_append, List.map_cons, List.map_nil, ← hdirectives, ← hbody, ← hvariables]
  rfl

theorem fragmentVisits_respanned (frag : Fragment) :
    fragmentVisits schema (frag.respanned σ) = (fragmentVisits schema frag).map (Visit.respanned σ) := by
  have hdirectives := directiveVisits_respanned σ schema .fragmentDefinition frag.directives
  have hbody := setVisits_respanned σ schema (schema.type? frag.condition.text) frag.body
  simp only [fragmentVisits, List.map_append, List.map_cons, List.map_nil, ← hdirectives, ← hbody]
  rfl

/-- What is met in a definition does not depend on where it stands. -/
theorem Subject.visits_recast (r : Recast) (s : Subject) :
    (s.recast r).visits schema = (s.visits schema).map (Visit.respanned (r.span s.owner)) := by
  unfold Subject.visits recast
  cases s.definition with
  | operation op => exact operationVisits_respanned _ schema op
  | fragment frag => exact fragmentVisits_respanned _ schema frag

end Visits

/-! ## Fragments -/

section Fragments

variable (r : Recast) (cx : Context)

theorem Context.fragments_recast : (cx.recast r).fragments = cx.fragments.map r.fragment := by
  unfold recast
  show (List.map _ cx.fragments).filterMap _ = _
  rw [List.filterMap_map, ← List.filterMap_eq_map]
  refine List.filterMap_congr fun x hx => ?_
  obtain ⟨s, frag⟩ := x
  obtain ⟨-, hfrag⟩ := mem_fragments.1 hx
  simp only [Function.comp_apply, Subject.recast, Definition.fragment?_respanned, hfrag, Option.map_some,
    Recast.fragment]

theorem Context.fragment?_recast (name : String) :
    (cx.recast r).fragment? name = (cx.fragment? name).map r.fragment := by
  rw [fragment?_eq, fragment?_eq, fragments_recast, List.find?_map]
  rfl

theorem Context.length_fragments_recast : (cx.recast r).fragments.length = cx.fragments.length := by
  rw [fragments_recast, List.length_map]

@[simp] theorem Context.type?_recast (name : String) : (cx.recast r).type? name = cx.type? name := rfl

@[simp] theorem Context.schema_recast : (cx.recast r).schema = cx.schema := rfl

/-- The same fragments are reached from a stack of selection sets, whatever the spans of its fields. -/
theorem Context.reachFrom_recast (rounds : Nat) (seen : List String) (stack stack' : List SelectionSet)
    (hstack : stack'.map SelectionSet.spreadNames = stack.map SelectionSet.spreadNames) :
    (cx.recast r).reachFrom rounds seen stack' = (cx.reachFrom rounds seen stack).map r.fragment := by
  induction rounds generalizing seen stack stack' with
  | zero => rfl
  | succ rounds ih =>
    cases stack with
    | nil =>
      obtain rfl := List.map_eq_nil_iff.1 hstack
      rfl
    | cons set stack =>
      obtain ⟨set', rest, rfl, hset, hrest⟩ := List.map_eq_cons_iff.1 hstack
      have hnames : set'.spreads.map (fun s => s.name.text) = set.spreads.map fun s => s.name.text := hset
      rw [reachFrom, reachFrom, hnames]
      dsimp only
      generalize newNames seen (set.spreads.map fun s => s.name.text) = names
      have hfound : names.filterMap (cx.recast r).fragment? = (names.filterMap cx.fragment?).map r.fragment := by
        rw [List.map_filterMap]
        exact List.filterMap_congr fun name _ => cx.fragment?_recast r name
      rw [hfound, List.map_append]
      congr 1
      refine ih _ _ _ ?_
      rw [List.map_append, List.map_append, hrest, List.map_reverse, List.map_reverse, List.map_map, List.map_map,
        List.map_map]
      congr 2
      refine List.map_congr_left fun x _ => ?_
      show SelectionSet.spreadNames (x.2.body.respanned _) = _
      rw [SelectionSet.spreadNames, SelectionSet.spreads_respanned, List.map_map]
      rfl

theorem Context.reachable_recast (σ : Span → Span) (set : SelectionSet) :
    (cx.recast r).reachable (set.respanned σ) = (cx.reachable set).map r.fragment := by
  unfold reachable
  rw [length_fragments_recast]
  refine cx.reachFrom_recast r _ _ _ _ ?_
  rw [List.map_cons, List.map_cons, SelectionSet.spreadNames, SelectionSet.spreads_respanned, List.map_map]
  rfl

end Fragments

/-! ## Expansion -/

/-- A placed field of a recast definition. -/
def Placed.recast (r : Recast) (p : Placed) : Placed :=
  ⟨p.subject.recast r, p.parent, p.field.respanned (r.span p.subject.owner),
    p.body.map (SelectionSet.respanned (r.span p.subject.owner)), p.declared⟩

@[simp] theorem Placed.responseKey_recast (r : Recast) (p : Placed) : (p.recast r).responseKey = p.responseKey :=
  Field.responseKey_respanned _ p.field

/-- Fields of recast definitions. -/
def Expanded.recast (r : Recast) (e : Expanded) : Expanded := (e.1.map (Placed.recast r), e.2)

section Expansion

variable {r : Recast} {schema : Schema} {follow follow' : Spread → List String → Expanded}

mutual

theorem expandSelection_recast (hfollow : ∀ spread seen, follow' spread.unspanned seen = (follow spread seen).recast r)
    (s : Subject) : ∀ (parent : Option TypeDef) (selection : Selection) (seen : List String),
    expandSelection schema follow' (s.recast r) parent (selection.respanned (r.span s.owner)) seen =
      (expandSelection schema follow s parent selection seen).recast r
  | _, .field _, _ | _, .group _ _ _, _ => rfl
  | _, .spread spread, seen => hfollow spread seen
  | parent, .inline i selections span, seen => by
    have hbelow := expandSelections_recast hfollow s (inlineType? schema parent i) selections seen
    rw [Selection.respanned, expandSelection, expandSelection, inlineType?_unspanned, hbelow]

theorem expandSelections_recast (hfollow : ∀ spread seen, follow' spread.unspanned seen = (follow spread seen).recast r)
    (s : Subject) : ∀ (parent : Option TypeDef) (selections : List Selection) (seen : List String),
    expandSelections schema follow' (s.recast r) parent (Selection.respannedAll (r.span s.owner) selections) seen =
      (expandSelections schema follow s parent selections seen).recast r
  | _, [], _ => rfl
  | parent, selection :: rest, seen => by
    have hfirst := expandSelection_recast hfollow s parent selection seen
    have hrest := expandSelections_recast hfollow s parent rest
      (expandSelection schema follow s parent selection seen).2
    rw [Selection.respannedAll, expandSelections, expandSelections, hfirst]
    dsimp only [Expanded.recast]
    rw [hrest, List.map_append]
    rfl

end

theorem Context.expandSpread_recast (cx : Context) (room : Nat) (spread : Spread) (seen : List String) :
    (cx.recast r).expandSpread room spread.unspanned seen = (cx.expandSpread room spread seen).recast r := by
  induction room generalizing spread seen with
  | zero => rfl
  | succ room ih =>
    have hname : spread.unspanned.name.text = spread.name.text := rfl
    have hfound := cx.fragment?_recast r spread.name.text
    rw [expandSpread, expandSpread, hname]
    split
    · rfl
    · rw [hfound]
      cases cx.fragment? spread.name.text with
      | none => rfl
      | some x => exact expandSelections_recast (fun spread seen => ih spread seen) x.1 _ x.2.body.selections _

/-- A selection set of a recast definition is expanded alike. -/
theorem Context.expand_recast (cx : Context) (s : Subject) (parent : Option TypeDef) (set : SelectionSet)
    (seen : List String) :
    (cx.recast r).expand (s.recast r) parent (set.respanned (r.span s.owner)) seen =
      (cx.expand s parent set seen).recast r := by
  unfold expand
  rw [length_fragments_recast]
  exact expandSelections_recast (cx.expandSpread_recast _) s parent set.selections seen

end Expansion

/-! ## Variables -/

/-- A use of a variable in a recast definition. -/
def Usage.recast (r : Recast) (u : Usage) : Usage := { u with span := .blank, subject := u.subject.recast r }

section Usages

variable (r : Recast) (schema : Schema) (s : Subject)

mutual

theorem usagesIn_unspanned : ∀ (expected : Option TypeRef) (hasDefault : Bool) (value : Value),
    usagesIn schema (s.recast r) expected hasDefault value.unspanned =
      (usagesIn schema s expected hasDefault value).map (Usage.recast r)
  | _, _, .variable _ _ | _, _, .int _ _ | _, _, .float _ _ | _, _, .string _ _ | _, _, .boolean _ _ | _, _, .null _
  | _, _, .enum _ _ => rfl
  | expected, _, .list items _ => usagesInItems_unspanned (expected.bind TypeRef.listItem?) items
  | expected, _, .object fields _ => usagesInFields_unspanned (inputFieldsOf? schema expected) fields

theorem usagesInItems_unspanned : ∀ (expected : Option TypeRef) (items : List Value),
    usagesInItems schema (s.recast r) expected (Value.unspannedItems items) =
      (usagesInItems schema s expected items).map (Usage.recast r)
  | _, [] => rfl
  | expected, item :: items => by
    rw [Value.unspannedItems, usagesInItems, usagesInItems, List.map_append, usagesIn_unspanned expected false item,
      usagesInItems_unspanned expected items]

theorem usagesInFields_unspanned : ∀ (inputs : Option Inputs) (fields : List (Name × Value)),
    usagesInFields schema (s.recast r) inputs (Value.unspannedFields fields) =
      (usagesInFields schema s inputs fields).map (Usage.recast r)
  | _, [] => rfl
  | inputs, (name, value) :: fields => by
    rw [Value.unspannedFields, usagesInFields, usagesInFields, List.map_append, usagesIn_unspanned,
      usagesInFields_unspanned inputs fields]
    rfl

end

theorem usagesWithin_recast :
    usagesWithin schema (s.recast r) = (usagesWithin schema s).map (Usage.recast r) := by
  unfold usagesWithin
  rw [Subject.visits_recast, List.flatMap_map, List.map_flatMap]
  refine List.flatMap_congr fun v _ => ?_
  cases v with
  | argument site a declared => exact usagesIn_unspanned r schema s _ _ a.value
  | _ => rfl

/-- A recast operation uses the same variables. -/
theorem usagesOf_recast (cx : Context) (σ : Span → Span) (op : Operation) :
    usagesOf (cx.recast r) (s.recast r) (op.respanned σ) = (usagesOf cx s op).map (Usage.recast r) := by
  have hreach := cx.reachable_recast r σ op.body
  unfold usagesOf
  rw [Context.schema_recast, usagesWithin_recast, List.map_append, List.map_flatMap]
  show _ ++ ((cx.recast r).reachable (op.body.respanned σ)).flatMap _ = _
  rw [hreach, List.flatMap_map]
  congr 1
  exact List.flatMap_congr fun x _ => usagesWithin_recast r cx.schema x.1

end Usages

end QueryBatch.Rules
