import Mathlib.Data.List.Pairwise
import QueryBatch.Proofs.Document.Respanned
import QueryBatch.Proofs.Rules.Placement

/-!
# Where placed fields stand

The fields of a full expansion, seen from the walks through the definitions that hold them.

* `Context.Stands`: a placed field that is met, together with its selection set, on the walk through its definition.
  `Context.Places.stands`: so it is with every field of a full expansion.
* `Context.Stands.eq_of_place`: fields that stand in one place are the same.
-/

namespace QueryBatch.Rules

/-- The full expansion places a field directly below another one. -/
def Context.PlacesBelow (cx : Context) (p inner : Placed) : Prop :=
  ∃ set, p.body = some set ∧ cx.Places p.subject (childType? cx.schema p.declared) set.selections inner

/-! ## Walks -/

section Walks

variable {schema : Schema} {parent under : Option TypeDef} {selections : List Selection} {x : Selection}

theorem selectionVisits_subset (h : x ∈ selections) :
    selectionVisits schema parent x ⊆ selectionsVisits schema parent selections := by
  induction selections with
  | nil => exact absurd h List.not_mem_nil
  | cons y rest ih =>
    rw [selectionsVisits]
    rcases List.mem_cons.1 h with rfl | h
    · exact List.subset_append_left _ _
    · exact List.Subset.trans (ih h) (List.subset_append_right _ _)

theorem spreads_subset_spreadsIn (h : x ∈ selections) : x.spreads ⊆ Selection.spreadsIn selections := by
  induction selections with
  | nil => exact absurd h List.not_mem_nil
  | cons y rest ih =>
    rw [Selection.spreadsIn]
    rcases List.mem_cons.1 h with rfl | h
    · exact List.subset_append_left _ _
    · exact List.Subset.trans (ih h) (List.subset_append_right _ _)

theorem Lies.visits_subset (h : Lies schema parent selections under x) :
    selectionVisits schema under x ⊆ selectionsVisits schema parent selections := by
  induction h with
  | here hmem => exact selectionVisits_subset hmem
  | inside hmem _ ih =>
    refine List.Subset.trans ih (List.Subset.trans ?_ (selectionVisits_subset hmem))
    rw [selectionVisits]
    exact fun v hv => List.mem_append_right _ (List.mem_cons_of_mem _ hv)

theorem Lies.spreads_subset (h : Lies schema parent selections under x) :
    x.spreads ⊆ Selection.spreadsIn selections := by
  induction h with
  | here hmem => exact spreads_subset_spreadsIn hmem
  | inside hmem _ ih => exact List.Subset.trans ih (spreads_subset_spreadsIn hmem)

end Walks

/-- The walk through a definition goes through selections of it, which stand in one of some definitions. -/
structure Context.Walks (cx : Context) (among : Subject → Prop) (s : Subject) (parent : Option TypeDef)
    (selections : List Selection) : Prop where
  member : among s
  visits : selectionsVisits cx.schema parent selections ⊆ s.visits cx.schema
  spreads : Selection.spreadsIn selections ⊆ s.definition.body.spreads

/-- The walk through a definition meets a placed field and what is below it. -/
structure Context.Stands (cx : Context) (among : Subject → Prop) (p : Placed) : Prop where
  member : among p.subject
  declared : p.declared = fieldDef? cx.schema p.parent p.field
  visits : fieldVisits cx.schema p.parent p.field p.body ⊆ p.subject.visits cx.schema
  below : ∀ set, p.body = some set →
    .selectionSet (childType? cx.schema p.declared) set ∈ p.subject.visits cx.schema ∧
      cx.Walks among p.subject (childType? cx.schema p.declared) set.selections

/-- Some definitions of a context to which all belong that their spreads stand for. -/
structure Context.Closed (cx : Context) (among : Subject → Prop) : Prop where
  subjects : ∀ s, among s → s ∈ cx.subjects
  spreads : ∀ s, among s → ∀ spread ∈ s.definition.body.spreads, ∀ inside frag,
    cx.fragment? spread.name.text = some (inside, frag) → among inside

section Closed

variable {cx : Context} {among : Subject → Prop} {s : Subject} {parent : Option TypeDef} {selections : List Selection}

/-- The walk through a fragment goes through its body. -/
theorem Context.walks_fragment {name : String} {inside : Subject} {frag : Fragment} (hamong : among inside)
    (hfound : cx.fragment? name = some (inside, frag)) :
    cx.Walks among inside (cx.type? frag.condition.text) frag.body.selections := by
  have hfrag := (Context.mem_fragments.1 (Context.mem_of_fragment? hfound)).2
  refine ⟨hamong, ?_, ?_⟩
  · have hdef : inside.definition = .fragment frag := by
      cases hd : inside.definition with
      | operation op =>
        rw [hd] at hfrag
        cases hfrag
      | fragment frag' =>
        rw [hd] at hfrag
        cases hfrag
        rfl
    unfold Subject.visits
    rw [hdef]
    exact fun v hv => List.mem_append_left _ (List.mem_append_right _ (List.mem_cons_of_mem _ hv))
  · rw [Definition.body_of_fragment? hfrag]
    exact SelectionSet.spreadsIn_subset _

/-- Every field of the full expansion is met on the walk through the definition that holds it. -/
theorem Context.Places.stands (hclosed : cx.Closed among) {p : Placed} (h : cx.Places s parent selections p)
    (hwalks : cx.Walks among s parent selections) : cx.Stands among p := by
  induction h with
  | field hx => exact ⟨hwalks.member, rfl, List.Subset.trans hx.visits_subset hwalks.visits, nofun⟩
  | @group s parent under selections inner f span hx =>
    have hvisits := List.Subset.trans hx.visits_subset hwalks.visits
    rw [selectionVisits] at hvisits
    refine ⟨hwalks.member, rfl, fun v hv => hvisits (List.mem_append_left _ hv), fun set hset => ?_⟩
    cases hset
    refine ⟨hvisits (List.mem_append_right _ List.mem_cons_self), hwalks.member, fun v hv => ?_, ?_⟩
    · exact hvisits (List.mem_append_right _ (List.mem_cons_of_mem _ hv))
    · exact List.Subset.trans hx.spreads_subset hwalks.spreads
  | spread hx hfound _ ih =>
    have hmem := hwalks.spreads (hx.spreads_subset (List.mem_singleton_self _))
    exact ih (Context.walks_fragment (hclosed.spreads _ hwalks.member _ hmem _ _ hfound) hfound)

theorem Context.PlacesBelow.stands (hclosed : cx.Closed among) {p inner : Placed} (h : cx.PlacesBelow p inner)
    (hp : cx.Stands among p) : cx.Stands among inner := by
  obtain ⟨set, hset, hplaces⟩ := h
  exact hplaces.stands hclosed (hp.below set hset).2

end Closed

/-! ### Fields in one place -/

/-- The span of a field that is met. -/
def Visit.fieldSpan? : Visit → Option Span
  | .field _ f _ _ => some f.span
  | _ => none

section Spans

variable {schema : Schema}

theorem fieldSpans_argumentVisits (site : ArgumentSite) (arguments : List Argument) :
    (argumentVisits site arguments).filterMap Visit.fieldSpan? = [] := by
  refine List.filterMap_eq_nil_iff.2 fun v hv => ?_
  rcases List.mem_cons.1 hv with rfl | hv
  · rfl
  · obtain ⟨a, -, rfl⟩ := List.mem_map.1 hv
    rfl

theorem fieldSpans_directiveVisits (location : DirectiveLocation) (directives : List Directive) :
    (directiveVisits schema location directives).filterMap Visit.fieldSpan? = [] := by
  unfold directiveVisits
  split
  · rfl
  · rw [List.filterMap_cons_none rfl, List.filterMap_flatMap]
    exact List.flatMap_eq_nil_iff.2 fun d _ => fieldSpans_argumentVisits _ _

theorem fieldSpans_fieldVisits (parent : Option TypeDef) (f : Field) (body : Option SelectionSet) :
    (fieldVisits schema parent f body).filterMap Visit.fieldSpan? = [f.span] := by
  unfold fieldVisits
  rw [List.filterMap_append, List.filterMap_cons, fieldSpans_argumentVisits, fieldSpans_directiveVisits]
  rfl

mutual

theorem fieldSpans_selectionVisits : ∀ (parent : Option TypeDef) (selection : Selection),
    (selectionVisits schema parent selection).filterMap Visit.fieldSpan? = selection.fieldSpans
  | parent, .field f => fieldSpans_fieldVisits parent f none
  | parent, .group f selections span => by
    rw [selectionVisits, List.filterMap_append, fieldSpans_fieldVisits, List.filterMap_cons_none rfl,
      fieldSpans_selectionsVisits _ selections]
    rfl
  | parent, .spread s => by
    rw [selectionVisits, List.filterMap_cons_none rfl, fieldSpans_directiveVisits]
    rfl
  | parent, .inline i selections span => by
    rw [selectionVisits, List.filterMap_append, List.filterMap_cons_none rfl, fieldSpans_directiveVisits,
      List.filterMap_cons_none rfl, fieldSpans_selectionsVisits _ selections]
    rfl

theorem fieldSpans_selectionsVisits : ∀ (parent : Option TypeDef) (selections : List Selection),
    (selectionsVisits schema parent selections).filterMap Visit.fieldSpan? = Selection.fieldSpansIn selections
  | _, [] => rfl
  | parent, selection :: rest => by
    rw [selectionsVisits, List.filterMap_append, fieldSpans_selectionVisits parent selection,
      fieldSpans_selectionsVisits parent rest]
    rfl

end

/-- The walk through a definition meets each of its fields once. -/
theorem fieldSpans_visits (schema : Schema) (s : Subject) :
    (s.visits schema).filterMap Visit.fieldSpan? = s.definition.fieldSpans := by
  unfold Subject.visits Definition.fieldSpans
  cases s.definition with
  | operation op =>
    have hvariables : (op.variableDefinitions.flatMap fun v => .variableDefinition v ::
        directiveVisits schema .variableDefinition v.directives).filterMap Visit.fieldSpan? = [] := by
      rw [List.filterMap_flatMap]
      refine List.flatMap_eq_nil_iff.2 fun v _ => ?_
      rw [List.filterMap_cons_none rfl, fieldSpans_directiveVisits]
    simp only [operationVisits, setVisits, List.filterMap_append, List.cons_append, List.filterMap_cons,
      Visit.fieldSpan?, hvariables, fieldSpans_directiveVisits, fieldSpans_selectionsVisits, List.nil_append,
      List.filterMap_nil, List.append_nil]
    rfl
  | fragment frag =>
    simp only [fragmentVisits, setVisits, List.filterMap_append, List.cons_append, List.filterMap_cons,
      Visit.fieldSpan?, fieldSpans_directiveVisits, fieldSpans_selectionsVisits, List.nil_append, List.filterMap_nil,
      List.append_nil]
    rfl

end Spans

/-- Fields with one span, of those that a walk meets, are met once. -/
theorem eq_of_fieldSpan? {s : Subject} (hnodup : s.definition.fieldSpans.Nodup) {schema : Schema} {v w : Visit}
    (hv : v ∈ s.visits schema) (hw : w ∈ s.visits schema) {span : Span} (hvs : v.fieldSpan? = some span)
    (hws : w.fieldSpan? = some span) : v = w := by
  rw [← fieldSpans_visits schema] at hnodup
  by_contra hne
  have hpairs := List.pairwise_filterMap.1 hnodup
  have hsymm : Std.Symm fun a b : Visit => ∀ x, a.fieldSpan? = some x → ∀ y, b.fieldSpan? = some y → x ≠ y :=
    ⟨fun a b h x hx y hy he => h y hy x hx he.symm⟩
  exact hpairs.forall hv hw hne span hvs span hws rfl

/-- Placed fields that stand in one place are the same, if definitions differ in their owners and fields of one
definition in their spans. -/
theorem Context.Stands.eq_of_place {cx : Context} {among : Subject → Prop} {p q : Placed} (hp : cx.Stands among p)
    (hq : cx.Stands among q) (hspans : ∀ s, among s → s.definition.fieldSpans.Nodup)
    (howners : ∀ s t, among s → among t → s.owner = t.owner → s = t) (h : p.place = q.place) : p = q := by
  obtain ⟨howner, hspan⟩ := Prod.mk.inj h
  have hsubject := howners _ _ hp.member hq.member howner
  have hvisit : Visit.field p.parent p.field p.body (fieldDef? cx.schema p.parent p.field) =
      .field q.parent q.field q.body (fieldDef? cx.schema q.parent q.field) := by
    refine eq_of_fieldSpan? (hspans _ hp.member) (hp.visits List.mem_cons_self) ?_ rfl (congrArg some hspan.symm)
    rw [hsubject]
    exact hq.visits List.mem_cons_self
  have hpd := hp.declared
  have hqd := hq.declared
  obtain ⟨_, _, _, _, _⟩ := p
  obtain ⟨_, _, _, _, _⟩ := q
  simp only [Visit.field.injEq] at hvisit
  dsimp only at hsubject hpd hqd
  obtain ⟨rfl, rfl, rfl, -⟩ := hvisit
  rw [hsubject, hpd, hqd]

end QueryBatch.Rules
