import QueryBatch.Proofs.Rules.Inheritance

/-!
# Variables in larger contexts

* `Context.Embeds.usagesOf`: an operation uses the same variables in the same places.
* `inherits_uniqueVariables`, `inherits_definedVariables`, `inherits_usedVariables`: the rules on variables inherit.
-/

namespace QueryBatch.Rules

/-! ## Usages -/

/-- A use in a definition with another owner. -/
def Usage.renamed (rename : Owner → Owner) (u : Usage) : Usage := { u with subject := u.subject.renamed rename }

section Usages

variable (schema : Schema) (rename : Owner → Owner) (s : Subject)

mutual

theorem usagesIn_renamed : ∀ (expected : Option TypeRef) (hasDefault : Bool) (value : Value),
    usagesIn schema (s.renamed rename) expected hasDefault value =
      (usagesIn schema s expected hasDefault value).map (Usage.renamed rename)
  | _, _, .variable _ _ | _, _, .int _ _ | _, _, .float _ _ | _, _, .string _ _ | _, _, .boolean _ _ | _, _, .null _
  | _, _, .enum _ _ => rfl
  | expected, _, .list items _ => usagesInItems_renamed (expected.bind TypeRef.listItem?) items
  | expected, _, .object fields _ => usagesInFields_renamed (inputFieldsOf? schema expected) fields

theorem usagesInItems_renamed : ∀ (expected : Option TypeRef) (items : List Value),
    usagesInItems schema (s.renamed rename) expected items =
      (usagesInItems schema s expected items).map (Usage.renamed rename)
  | _, [] => rfl
  | expected, item :: items => by
    rw [usagesInItems, usagesInItems, List.map_append, usagesIn_renamed expected false item,
      usagesInItems_renamed expected items]

theorem usagesInFields_renamed : ∀ (inputs : Option Inputs) (fields : List (Name × Value)),
    usagesInFields schema (s.renamed rename) inputs fields =
      (usagesInFields schema s inputs fields).map (Usage.renamed rename)
  | _, [] => rfl
  | inputs, (name, value) :: fields => by
    rw [usagesInFields, usagesInFields, List.map_append, usagesIn_renamed, usagesInFields_renamed inputs fields]

end

theorem usagesWithin_renamed :
    usagesWithin schema (s.renamed rename) = (usagesWithin schema s).map (Usage.renamed rename) := by
  unfold usagesWithin
  rw [Subject.visits_renamed, List.map_flatMap]
  refine List.flatMap_congr fun v _ => ?_
  cases v with
  | argument site a declared => exact usagesIn_renamed schema rename s _ _ a.value
  | _ => rfl

end Usages

section Embedded

variable {part whole : Context} {rename : Owner → Owner}

/-- An operation of the small context uses the same variables in both. -/
theorem Context.Embeds.usagesOf (h : part.Embeds whole rename) {s : Subject} {op : Operation}
    (hop : (s, op) ∈ part.operations) :
    Rules.usagesOf whole (s.renamed rename) op = (Rules.usagesOf part s op).map (Usage.renamed rename) := by
  unfold Rules.usagesOf
  rw [h.reachable (h.covers_operation hop), ← h.schema, usagesWithin_renamed, List.map_append, List.map_flatMap,
    List.flatMap_map]
  congr 1
  refine List.flatMap_congr fun x _ => ?_
  exact usagesWithin_renamed part.schema rename x.1

end Embedded

/-! ## Rules -/

theorem distinctUsages_nil_iff {us : List Usage} : distinctUsages [] us = [] ↔ us = [] := by
  cases us with
  | nil => exact iff_of_true rfl rfl
  | cons u rest => exact iff_of_false (by simp [distinctUsages]) (List.cons_ne_nil _ _)

theorem inherits_uniqueVariables : Inherits uniqueVariables := by
  apply inherits_onOperations
  · intro cx s op f hf
    exact owner_mem_rejected hf
  · intro part whole rename _ s op _ h
    exact map_nil_of_map_nil h

theorem inherits_definedVariables : Inherits definedVariables := by
  apply inherits_onOperations
  · intro cx s op f hf
    exact owner_mem_rejected hf
  · intro part whole rename h s op hop hwhole
    have hnone : undefinedUsages whole (s.renamed rename) op = [] := List.map_eq_nil_iff.1 hwhole
    unfold undefinedUsages at hnone
    rw [distinctUsages_nil_iff, h.usagesOf hop, List.filter_map, List.map_eq_nil_iff] at hnone
    have hpart : undefinedUsages part s op = [] := distinctUsages_nil_iff.2 hnone
    exact List.map_eq_nil_iff.2 hpart

theorem inherits_usedVariables : Inherits usedVariables := by
  apply inherits_onOperations
  · intro cx s op f hf
    exact owner_mem_rejected hf
  · intro part whole rename h s op hop hwhole
    have hnames : (Rules.usagesOf whole (s.renamed rename) op).map Usage.name =
        (Rules.usagesOf part s op).map Usage.name := by
      rw [h.usagesOf hop, List.map_map]
      rfl
    dsimp only at hwhole ⊢
    rw [hnames] at hwhole
    exact map_nil_of_map_nil hwhole

/-- Variables that fit their positions in the larger context fit them in the smaller one. -/
theorem Context.Embeds.variablePositions_eq_nil {part whole : Context} {rename : Owner → Owner}
    (h : part.Embeds whole rename) (hnil : variablePositions whole = []) : variablePositions part = [] := by
  refine List.flatMap_eq_nil_iff.2 fun ⟨s, op⟩ hop => List.filterMap_eq_nil_iff.2 fun u hu => ?_
  have hwhole := List.flatMap_eq_nil_iff.1 hnil _ (h.mem_operations hop)
  dsimp only at hwhole
  rw [h.usagesOf hop, List.filterMap_map, List.filterMap_eq_nil_iff] at hwhole
  have hfits := hwhole u hu
  simp only [Function.comp_apply] at hfits
  rw [show declarationOf? op (u.renamed rename) = declarationOf? op u from rfl,
    show (u.renamed rename).expected = u.expected from rfl,
    show (u.renamed rename).hasDefault = u.hasDefault from rfl] at hfits
  split at hfits
  · split at hfits
    · rename_i hfit
      rw [if_pos hfit]
    · cases hfits
  · rfl

end QueryBatch.Rules
