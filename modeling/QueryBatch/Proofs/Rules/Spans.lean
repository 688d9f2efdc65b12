import QueryBatch.Proofs.Document.Spans
import QueryBatch.Proofs.Rules.Cycles
import QueryBatch.Proofs.Rules.Inheritance
import QueryBatch.Proofs.Rules.Placement

/-!
# The spans of what is met

* `Visit.spans`: the spans of one thing that is met on the walk through a definition. `spans_visits`: they are spans of
  the definition.
* `Context.Places.field_spans`: a placed field has spans of the definition that holds it.
* `usagesOf_spans`: so has the use of a variable.
* `spans_of_mem_cycles`: a cycle consists of spreads of definitions.
-/

namespace QueryBatch.Rules

/-! ## Walks -/

/-- The spans of what is met. -/
def Visit.spans : Visit → List Span
  | .enterOperation op | .leaveOperation op => op.spans
  | .enterFragment frag | .leaveFragment frag => frag.spans
  | .variableDefinition v => v.spans
  | .selectionSet _ set => set.spans
  | .field _ f body _ => f.spans ++ body.toList.flatMap SelectionSet.spans
  | .inline _ i => i.spans
  | .spread _ s => s.spans
  | .directives _ ds => ds.flatMap Directive.spans
  | .arguments site as => site.span :: as.flatMap Argument.spans
  | .argument _ a _ => a.spans

section Walks

variable {schema : Schema} {v : Visit}

theorem spans_argumentVisits {site : ArgumentSite} {arguments : List Argument} (h : v ∈ argumentVisits site arguments) :
    v.spans ⊆ site.span :: arguments.flatMap Argument.spans := by
  rcases List.mem_cons.1 h with rfl | h
  · exact List.Subset.refl _
  · obtain ⟨a, ha, rfl⟩ := List.mem_map.1 h
    exact fun _ hspan => List.mem_cons_of_mem _ (List.mem_flatMap.2 ⟨a, ha, hspan⟩)

theorem spans_directiveVisits {location : DirectiveLocation} {directives : List Directive}
    (h : v ∈ directiveVisits schema location directives) : v.spans ⊆ directives.flatMap Directive.spans := by
  unfold directiveVisits at h
  split at h
  · exact absurd h List.not_mem_nil
  · rcases List.mem_cons.1 h with rfl | h
    · exact List.Subset.refl _
    · obtain ⟨d, hd, h⟩ := List.mem_flatMap.1 h
      refine List.Subset.trans (spans_argumentVisits h) fun _ hspan => List.mem_flatMap.2 ⟨d, hd, ?_⟩
      exact List.mem_cons_of_mem _ hspan

theorem spans_fieldVisits {parent : Option TypeDef} {f : Field} {body : Option SelectionSet}
    (h : v ∈ fieldVisits schema parent f body) : v.spans ⊆ f.spans ++ body.toList.flatMap SelectionSet.spans := by
  unfold fieldVisits at h
  simp only [List.mem_append, List.mem_cons] at h
  rcases h with (rfl | h) | h
  · exact List.Subset.refl _
  · refine List.Subset.trans (spans_argumentVisits h) fun span hspan => List.mem_append_left _ ?_
    simp only [Field.spans, List.mem_append, List.mem_cons] at hspan ⊢
    rcases hspan with rfl | hspan
    · exact .inl (.inl (.inl rfl))
    · exact .inl (.inr hspan)
  · exact List.Subset.trans (spans_directiveVisits h) fun _ hspan =>
      List.mem_append_left _ (List.mem_append_right _ hspan)

mutual

theorem spans_selectionVisits : ∀ (parent : Option TypeDef) (x : Selection), v ∈ selectionVisits schema parent x →
    v.spans ⊆ x.spans
  | _, .field f, h => by
    refine List.Subset.trans (spans_fieldVisits h) ?_
    rw [Option.toList_none, List.flatMap_nil, List.append_nil]
    exact List.Subset.refl _
  | _, .group f selections setSpan, h => by
    rw [selectionVisits, List.mem_append, List.mem_cons] at h
    rcases h with h | rfl | h
    · refine List.Subset.trans (spans_fieldVisits h) ?_
      rw [Option.toList_some, List.flatMap_singleton]
      exact List.Subset.refl _
    · exact List.subset_append_right _ _
    · refine List.Subset.trans (spans_selectionsVisits _ selections h) fun _ hspan => ?_
      exact List.mem_append_right _ (List.mem_cons_of_mem _ hspan)
  | _, .spread s, h => by
    rw [selectionVisits, List.mem_cons] at h
    rcases h with rfl | h
    · exact List.Subset.refl _
    · refine List.Subset.trans (spans_directiveVisits h) fun _ hspan => ?_
      exact List.mem_cons_of_mem _ (List.mem_cons_of_mem _ hspan)
  | _, .inline i selections setSpan, h => by
    rw [selectionVisits] at h
    simp only [List.mem_append, List.mem_cons] at h
    rcases h with (rfl | h) | rfl | h
    · exact List.subset_append_left _ _
    · refine List.Subset.trans (spans_directiveVisits h) fun _ hspan => ?_
      exact List.mem_append_left _ (List.mem_append_right _ hspan)
    · exact List.subset_append_right _ _
    · refine List.Subset.trans (spans_selectionsVisits _ selections h) fun _ hspan => ?_
      exact List.mem_append_right _ (List.mem_cons_of_mem _ hspan)

theorem spans_selectionsVisits : ∀ (parent : Option TypeDef) (selections : List Selection),
    v ∈ selectionsVisits schema parent selections → v.spans ⊆ Selection.spansIn selections
  | _, [], h => absurd h List.not_mem_nil
  | parent, x :: rest, h => (List.mem_append.1 h).elim
      (fun h => List.Subset.trans (spans_selectionVisits parent x h) (List.subset_append_left _ _))
      (fun h => List.Subset.trans (spans_selectionsVisits parent rest h) (List.subset_append_right _ _))

end

theorem spans_setVisits {parent : Option TypeDef} {set : SelectionSet} (h : v ∈ setVisits schema parent set) :
    v.spans ⊆ set.spans := by
  rcases List.mem_cons.1 h with rfl | h
  · exact List.Subset.refl _
  · exact List.Subset.trans (spans_selectionsVisits _ _ h) (List.subset_cons_self _ _)

theorem spans_operationVisits {op : Operation} (h : v ∈ operationVisits schema op) : v.spans ⊆ op.spans := by
  unfold operationVisits at h
  simp only [List.mem_append, List.mem_cons, List.mem_flatMap, List.not_mem_nil, or_false] at h
  rcases h with (((rfl | ⟨x, hx, rfl | h⟩) | h) | h) | rfl
  · exact List.Subset.refl _
  · exact fun _ hspan => List.mem_append_left _ (List.mem_append_left _ (List.mem_append_right _
      (List.mem_flatMap.2 ⟨x, hx, hspan⟩)))
  · refine List.Subset.trans (spans_directiveVisits h) fun _ hspan => List.mem_append_left _ (List.mem_append_left _
      (List.mem_append_right _ (List.mem_flatMap.2 ⟨x, hx, List.mem_append_right _ hspan⟩)))
  · exact List.Subset.trans (spans_directiveVisits h) fun _ hspan =>
      List.mem_append_left _ (List.mem_append_right _ hspan)
  · exact List.Subset.trans (spans_setVisits h) (List.subset_append_right _ _)
  · exact List.Subset.refl _

theorem spans_fragmentVisits {frag : Fragment} (h : v ∈ fragmentVisits schema frag) : v.spans ⊆ frag.spans := by
  unfold fragmentVisits at h
  simp only [List.mem_append, List.mem_cons, List.not_mem_nil, or_false] at h
  rcases h with ((rfl | h) | h) | rfl
  · exact List.Subset.refl _
  · exact List.Subset.trans (spans_directiveVisits h) fun _ hspan => List.mem_append_left _
      (List.mem_cons_of_mem _ (List.mem_cons_of_mem _ (List.mem_cons_of_mem _ hspan)))
  · exact List.Subset.trans (spans_setVisits h) (List.subset_append_right _ _)
  · exact List.Subset.refl _

/-- What is met in a definition has spans of it. -/
theorem spans_visits {s : Subject} (h : v ∈ s.visits schema) : v.spans ⊆ s.definition.spans := by
  unfold Subject.visits at h
  cases hd : s.definition with
  | operation op =>
    rw [hd] at h
    exact spans_operationVisits h
  | fragment frag =>
    rw [hd] at h
    exact spans_fragmentVisits h

end Walks

/-! ## Placed fields -/

theorem Lies.spans_subset {schema : Schema} {parent under : Option TypeDef} {selections : List Selection}
    {x : Selection} (h : Lies schema parent selections under x) : x.spans ⊆ Selection.spansIn selections := by
  induction h with
  | here hmem => exact Selection.spans_subset_spansIn hmem
  | inside hmem _ ih =>
    refine List.Subset.trans ih (List.Subset.trans ?_ (Selection.spans_subset_spansIn hmem))
    exact fun _ hspan => List.mem_append_right _ (List.mem_cons_of_mem _ hspan)

section Placed

variable {cx : Context}

theorem Context.fragment_spans {name : String} {inside : Subject} {frag : Fragment}
    (h : cx.fragment? name = some (inside, frag)) : inside ∈ cx.subjects ∧ frag.spans ⊆ inside.definition.spans := by
  obtain ⟨hmem, hfrag⟩ := Context.mem_fragments.1 (Context.mem_of_fragment? h)
  refine ⟨hmem, ?_⟩
  cases hd : inside.definition with
  | operation op =>
    rw [hd] at hfrag
    cases hfrag
  | fragment frag' =>
    rw [hd] at hfrag
    cases hfrag
    exact List.Subset.refl _

/-- A field of a full expansion has spans of the definition that holds it. -/
theorem Context.Places.field_spans {s : Subject} {parent : Option TypeDef} {selections : List Selection} {p : Placed}
    (h : cx.Places s parent selections p) (hs : s ∈ cx.subjects)
    (hspans : Selection.spansIn selections ⊆ s.definition.spans) :
    p.subject ∈ cx.subjects ∧ p.field.spans ⊆ p.subject.definition.spans := by
  induction h with
  | field hx => exact ⟨hs, List.Subset.trans hx.spans_subset hspans⟩
  | group hx =>
    exact ⟨hs, List.Subset.trans (List.Subset.trans (List.subset_append_left _ _) hx.spans_subset) hspans⟩
  | spread _ hfound _ ih =>
    obtain ⟨hinside, hfrag⟩ := Context.fragment_spans hfound
    refine ih hinside (List.Subset.trans (fun _ hspan => ?_) hfrag)
    exact List.mem_append_right _ (List.mem_cons_of_mem _ hspan)

/-- A field of an expansion of a selection set that is met has spans of the definition that holds it. -/
theorem expand_spans {s : Subject} {parent : Option TypeDef} {set : SelectionSet} {p : Placed}
    (hv : (s, .selectionSet parent set) ∈ cx.visits) (hp : p ∈ (cx.expand s parent set []).1) :
    p.subject ∈ cx.subjects ∧ p.field.spans ⊆ p.subject.definition.spans := by
  obtain ⟨hs, hv⟩ := mem_visits.1 hv
  refine (Context.mem_expand_iff.1 hp).field_spans hs (List.Subset.trans ?_ (spans_visits hv))
  exact List.subset_cons_self _ _

end Placed

/-! ## Uses of variables -/

section Usages

variable {schema : Schema} {s : Subject} {u : Usage}

mutual

theorem usagesIn_spans : ∀ (expected : Option TypeRef) (hasDefault : Bool) (value : Value),
    u ∈ usagesIn schema s expected hasDefault value → u.subject = s ∧ u.span ∈ value.spans
  | _, _, .variable _ _, h => by
    cases List.mem_singleton.1 h
    exact ⟨rfl, List.mem_singleton_self _⟩
  | expected, _, .list items _, h => by
    obtain ⟨hs, hspan⟩ := usagesInItems_spans (expected.bind TypeRef.listItem?) items h
    exact ⟨hs, List.mem_cons_of_mem _ hspan⟩
  | expected, _, .object fields _, h => by
    obtain ⟨hs, hspan⟩ := usagesInFields_spans (inputFieldsOf? schema expected) fields h
    exact ⟨hs, List.mem_cons_of_mem _ hspan⟩
  | _, _, .int _ _, h | _, _, .float _ _, h | _, _, .string _ _, h | _, _, .boolean _ _, h | _, _, .null _, h
  | _, _, .enum _ _, h => absurd h List.not_mem_nil

theorem usagesInItems_spans : ∀ (expected : Option TypeRef) (items : List Value),
    u ∈ usagesInItems schema s expected items → u.subject = s ∧ u.span ∈ Value.spansInItems items
  | _, [], h => absurd h List.not_mem_nil
  | expected, item :: items, h => by
    rcases List.mem_append.1 h with h | h
    · exact (usagesIn_spans expected false item h).imp_right (List.mem_append_left _)
    · exact (usagesInItems_spans expected items h).imp_right (List.mem_append_right _)

theorem usagesInFields_spans : ∀ (inputs : Option Inputs) (fields : List (Name × Value)),
    u ∈ usagesInFields schema s inputs fields → u.subject = s ∧ u.span ∈ Value.spansInFields fields
  | _, [], h => absurd h List.not_mem_nil
  | inputs, (name, value) :: fields, h => by
    rw [Value.spansInFields, List.cons_append]
    rcases List.mem_append.1 h with h | h
    · exact (usagesIn_spans _ _ value h).imp_right fun hspan => List.mem_cons_of_mem _ (List.mem_append_left _ hspan)
    · exact (usagesInFields_spans inputs fields h).imp_right fun hspan =>
        List.mem_cons_of_mem _ (List.mem_append_right _ hspan)

end

theorem usagesWithin_spans (h : u ∈ usagesWithin schema s) : u.subject = s ∧ u.span ∈ s.definition.spans := by
  obtain ⟨v, hv, hu⟩ := List.mem_flatMap.1 h
  cases v with
  | argument site a declared =>
    refine (usagesIn_spans _ _ a.value hu).imp_right fun hspan => spans_visits hv ?_
    exact List.mem_cons_of_mem _ (List.mem_cons_of_mem _ hspan)
  | _ => exact absurd hu List.not_mem_nil

end Usages

section Context

variable {cx : Context}

/-- A variable that an operation uses has a span of the definition that it is used in. -/
theorem usagesOf_spans {s : Subject} {op : Operation} (hs : s ∈ cx.subjects) {u : Usage} (h : u ∈ usagesOf cx s op) :
    u.subject ∈ cx.subjects ∧ u.span ∈ u.subject.definition.spans := by
  rcases List.mem_append.1 h with h | h
  · obtain ⟨hsubject, hspan⟩ := usagesWithin_spans h
    rw [hsubject]
    exact ⟨hs, hspan⟩
  · obtain ⟨x, hx, h⟩ := List.mem_flatMap.1 h
    obtain ⟨hsubject, hspan⟩ := usagesWithin_spans h
    rw [hsubject]
    obtain ⟨name, -, hfound⟩ := Context.mem_reachable.1 hx
    exact ⟨(Context.mem_fragments.1 (Context.mem_of_fragment? hfound)).1, hspan⟩

/-! ## Cycles -/

/-- A written step is a spread of a definition. -/
theorem Step.Written.spans {step : Step} (h : step.Written cx) :
    step.subject ∈ cx.subjects ∧ step.spread ∈ step.subject.definition.body.spreads := by
  obtain ⟨frag, hfound, hspread⟩ := h
  obtain ⟨hs, hd⟩ := Context.mem_fragments.1 (Context.mem_of_fragment? hfound)
  refine ⟨hs, ?_⟩
  rw [Definition.body_of_fragment? hd]
  exact hspread

/-- The steps of every cycle are spreads of definitions. -/
theorem spans_of_mem_cycles {cycle : List Step} (h : cycle ∈ cycles cx) :
    ∀ step ∈ cycle, step.subject ∈ cx.subjects ∧ step.spread ∈ step.subject.definition.body.spreads := by
  obtain ⟨-, _, hway⟩ := closed_of_mem_cycles cycle h
  exact fun step hstep => (hway.written step hstep).spans

end Context

end QueryBatch.Rules
