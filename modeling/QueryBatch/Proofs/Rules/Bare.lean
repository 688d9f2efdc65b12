import QueryBatch.Proofs.Rules.Typing

/-!
# Selections without a type

Where the type of a selection set is not known, the rules on types are silent about its fields and all that is below
them. A type condition ends this.

* `bareSetVisits`: the selection sets and fields of a selection set of unknown type that stand under no type condition.
* `Visit.Bare`: there is neither a parent type nor a declaration. `bare_of_mem_bareSetVisits`: so it is for all of them.
* `typed_or_bare_setVisits`: whatever else passes the rules is typed.
-/

namespace QueryBatch.Rules

/-- A selection set or field that nothing is known of. -/
def Visit.Bare : Visit → Prop
  | .selectionSet parent _ => parent = none
  | .field parent _ _ declared => parent = none ∧ declared = none
  | _ => False

/-! ## What stands under no condition -/

mutual

/-- The fields and selection sets in a selection under no type condition, the type above being unknown. -/
def bareSelectionVisits : Selection → List Visit
  | .field f => [.field none f none none]
  | .group f selections span =>
    .field none f (some ⟨selections, span⟩) none :: .selectionSet none ⟨selections, span⟩ ::
      bareSelectionsVisits selections
  | .spread _ => []
  | .inline i selections span =>
    match i.condition with
    | some _ => []
    | none => .selectionSet none ⟨selections, span⟩ :: bareSelectionsVisits selections

def bareSelectionsVisits : List Selection → List Visit
  | [] => []
  | selection :: rest => bareSelectionVisits selection ++ bareSelectionsVisits rest

end

/-- A selection set of unknown type and what stands in it under no type condition. -/
def bareSetVisits (set : SelectionSet) : List Visit := .selectionSet none set :: bareSelectionsVisits set.selections

mutual

theorem bare_of_mem_bareSelectionVisits : ∀ (selection : Selection), ∀ v ∈ bareSelectionVisits selection, v.Bare
  | .field f => by
    intro v hv
    cases List.mem_singleton.1 hv
    exact ⟨rfl, rfl⟩
  | .group f selections span => by
    intro v hv
    rcases List.mem_cons.1 hv with rfl | hv
    · exact ⟨rfl, rfl⟩
    · rcases List.mem_cons.1 hv with rfl | hv
      · exact rfl
      · exact bare_of_mem_bareSelectionsVisits selections v hv
  | .spread _ => fun _ hv => absurd hv List.not_mem_nil
  | .inline i selections span => by
    intro v hv
    rw [bareSelectionVisits] at hv
    split at hv
    · exact absurd hv List.not_mem_nil
    · rcases List.mem_cons.1 hv with rfl | hv
      · exact rfl
      · exact bare_of_mem_bareSelectionsVisits selections v hv

theorem bare_of_mem_bareSelectionsVisits : ∀ (selections : List Selection), ∀ v ∈ bareSelectionsVisits selections,
    v.Bare
  | [] => fun _ hv => absurd hv List.not_mem_nil
  | selection :: rest => fun v hv => (List.mem_append.1 hv).elim (bare_of_mem_bareSelectionVisits selection v)
      (bare_of_mem_bareSelectionsVisits rest v)

end

/-- Nothing is known of what stands in a selection set of unknown type under no type condition. -/
theorem bare_of_mem_bareSetVisits {set : SelectionSet} : ∀ v ∈ bareSetVisits set, v.Bare := by
  intro v hv
  rcases List.mem_cons.1 hv with rfl | hv
  · exact rfl
  · exact bare_of_mem_bareSelectionsVisits _ v hv

/-! ## The walk below an unknown type -/

section Walk

variable {schema : Schema}

theorem bare_mem_fieldVisits {f : Field} {body : Option SelectionSet} :
    .field none f body none ∈ fieldVisits schema none f body := field_mem_fieldVisits

mutual

/-- The walk meets all of them. -/
theorem bareSelectionVisits_subset : ∀ (selection : Selection),
    bareSelectionVisits selection ⊆ selectionVisits schema none selection
  | .field f => List.cons_subset.2 ⟨bare_mem_fieldVisits, List.nil_subset _⟩
  | .group f selections span => by
    refine List.cons_subset.2 ⟨List.mem_append_left _ bare_mem_fieldVisits, ?_⟩
    refine List.Subset.trans (List.cons_subset_cons _ (bareSelectionsVisits_subset selections)) ?_
    exact List.subset_append_right _ _
  | .spread _ => List.nil_subset _
  | .inline i selections span => by
    rw [bareSelectionVisits]
    split
    · exact List.nil_subset _
    · rename_i hcondition
      have hchild : inlineType? schema none i = none := by
        unfold inlineType?
        rw [hcondition]
      rw [selectionVisits, hchild]
      refine List.Subset.trans (List.cons_subset_cons _ (bareSelectionsVisits_subset selections)) ?_
      exact List.subset_append_right _ _

theorem bareSelectionsVisits_subset : ∀ (selections : List Selection),
    bareSelectionsVisits selections ⊆ selectionsVisits schema none selections
  | [] => List.nil_subset _
  | selection :: rest =>
    List.append_subset.2 ⟨List.Subset.trans (bareSelectionVisits_subset selection) (List.subset_append_left _ _),
      List.Subset.trans (bareSelectionsVisits_subset rest) (List.subset_append_right _ _)⟩

end

theorem bareSetVisits_subset (set : SelectionSet) : bareSetVisits set ⊆ setVisits schema none set :=
  List.cons_subset_cons _ (bareSelectionsVisits_subset set.selections)

theorem typed_or_bare_fieldVisits {f : Field} {body : Option SelectionSet} {v : Visit}
    (hv : v ∈ fieldVisits schema none f body) : v.Typed schema ∨ v = .field none f body none := by
  unfold fieldVisits at hv
  rcases List.mem_append.1 hv with hv | hv
  · rcases List.mem_cons.1 hv with rfl | hv
    · exact .inr rfl
    · exact .inl (typed_argumentVisits hv)
  · exact .inl (typed_directiveVisits hv)

mutual

theorem typed_or_bare_selectionVisits (hschema : schema.IsBuilt) : ∀ (selection : Selection),
    Passed schema (selectionVisits schema none selection) →
    ∀ v ∈ selectionVisits schema none selection, v.Typed schema ∨ v ∈ bareSelectionVisits selection
  | .field f, _ => fun v hv => (typed_or_bare_fieldVisits hv).imp_right fun he => List.mem_singleton.2 he
  | .group f selections span, hpassed => by
    have hbelow := hpassed.mono (List.Subset.trans (List.subset_cons_self _ _) (List.subset_append_right _ _))
    intro v hv
    rcases List.mem_append.1 hv with hv | hv
    · exact (typed_or_bare_fieldVisits hv).imp_right fun he => List.mem_cons.2 (.inl he)
    · rcases List.mem_cons.1 hv with rfl | hv
      · exact .inr (List.mem_cons_of_mem _ List.mem_cons_self)
      · exact (typed_or_bare_selectionsVisits hschema selections hbelow v hv).imp_right fun hmem =>
          List.mem_cons_of_mem _ (List.mem_cons_of_mem _ hmem)
  | .spread _, _ => by
    intro v hv
    rcases List.mem_cons.1 hv with rfl | hv
    · exact .inl trivial
    · exact .inl (typed_directiveVisits hv)
  | .inline i selections span, hpassed => by
    have hbelow := hpassed.mono (List.Subset.trans (List.subset_cons_self _ _) (List.subset_append_right _ _))
    intro v hv
    rcases List.mem_append.1 hv with hv | hv
    · rcases List.mem_cons.1 hv with rfl | hv
      · exact .inl trivial
      · exact .inl (typed_directiveVisits hv)
    · cases hcondition : i.condition with
      | some name =>
        -- the rules do not let a condition on an unknown type pass, so all below it is typed
        have hknown : Known schema (inlineType? schema none i) := by
          unfold inlineType?
          rw [hcondition]
          exact known_type? (hpassed.conditions none i name (List.mem_append_left _ List.mem_cons_self) hcondition)
        rcases List.mem_cons.1 hv with rfl | hv
        · exact .inl hknown
        · exact .inl (typed_selectionsVisits hschema _ selections hknown hbelow v hv)
      | none =>
        have hchild : inlineType? schema none i = none := by
          unfold inlineType?
          rw [hcondition]
        rw [hchild] at hv hbelow
        rw [bareSelectionVisits, hcondition]
        rcases List.mem_cons.1 hv with rfl | hv
        · exact .inr List.mem_cons_self
        · exact (typed_or_bare_selectionsVisits hschema selections hbelow v hv).imp_right fun hmem =>
            List.mem_cons_of_mem _ hmem

theorem typed_or_bare_selectionsVisits (hschema : schema.IsBuilt) : ∀ (selections : List Selection),
    Passed schema (selectionsVisits schema none selections) →
    ∀ v ∈ selectionsVisits schema none selections, v.Typed schema ∨ v ∈ bareSelectionsVisits selections
  | [], _ => fun _ hv => absurd hv List.not_mem_nil
  | selection :: rest, hpassed => by
    have hfirst := hpassed.mono (List.subset_append_left _ _)
    have hrest := hpassed.mono (List.subset_append_right _ _)
    intro v hv
    rcases List.mem_append.1 hv with hv | hv
    · exact (typed_or_bare_selectionVisits hschema selection hfirst v hv).imp_right (List.mem_append_left _)
    · exact (typed_or_bare_selectionsVisits hschema rest hrest v hv).imp_right (List.mem_append_right _)

end

/-- In a selection set of unknown type, whatever passes is typed or stands under no type condition. -/
theorem typed_or_bare_setVisits (hschema : schema.IsBuilt) {set : SelectionSet}
    (hpassed : Passed schema (setVisits schema none set)) :
    ∀ v ∈ setVisits schema none set, v.Typed schema ∨ v ∈ bareSetVisits set := by
  intro v hv
  rcases List.mem_cons.1 hv with rfl | hv
  · exact .inr List.mem_cons_self
  · exact (typed_or_bare_selectionsVisits hschema _ (hpassed.mono (List.subset_cons_self _ _)) v hv).imp_right
      (List.mem_cons_of_mem _)

end Walk

end QueryBatch.Rules
