import QueryBatch.Proofs.Rules.Alike

/-!
# The global rules in other places

What the global rules find does not depend on where the definitions stand, as long as no two fields of one definition
come to stand in one place.

* `Context.Moved`: a context holds the definitions of another one in other places.
* `Context.Moved.conflicts_eq_nil`: there are no conflicts there if there are none where they came from.
* `Context.Moved.globalRules_eq_nil`: so the global rules find nothing there if they find nothing where the definitions
  came from.
-/

namespace QueryBatch.Rules

/-- A context holds the definitions of another one, which a recast puts into their places there. -/
structure Context.Moved (cx cx' : Context) (r : Recast) : Prop where
  schema : cx.schema = cx'.schema
  subjects : cx.subjects.map (Subject.recast r) = cx'.subjects.map (Subject.recast .still)

/-! ## Definitions -/

section Definitions

variable {cx cx' : Context} {r : Recast}

/-- The fragments of both contexts are recast alike. -/
theorem Context.Moved.alike (h : cx.Moved cx' r) : cx.Alike cx' r .still :=
  Context.alike_of_filter h.schema (congrArg _ h.subjects)

theorem Context.Moved.exists_subject (h : cx.Moved cx' r) {s' : Subject} (hs' : s' ∈ cx'.subjects) :
    ∃ s ∈ cx.subjects, s.recast r = s'.recast .still := by
  have hmem : s'.recast .still ∈ cx.subjects.map (Subject.recast r) := by
    rw [h.subjects]
    exact List.mem_map_of_mem hs'
  exact List.mem_map.1 hmem

theorem Context.Moved.names_eq (h : cx.Moved cx' r) : cx'.names = cx.names := by
  have hnames := congrArg (List.map fun x : Subject × Fragment => x.2.name.text) h.alike.map_fragments
  rw [List.map_map, List.map_map] at hnames
  exact hnames.symm

/-- A name that stands for a fragment there stands for one with the same spreads where it came from. -/
theorem Context.Moved.exists_bodyOf (h : cx.Moved cx' r) {name : String} {body' : SelectionSet}
    (hbody : cx'.bodyOf name = some body') :
    ∃ body, cx.bodyOf name = some body ∧ body.spreadNames = body'.spreadNames := by
  obtain ⟨s', frag', hfound, rfl⟩ := Context.exists_of_bodyOf hbody
  have hrecast : (cx.recast r).fragment? name = (cx'.recast .still).fragment? name := by rw [h.alike.recast_eq]
  rw [Context.fragment?_recast, Context.fragment?_recast, hfound, Option.map_some] at hrecast
  obtain ⟨⟨s, frag⟩, hfrag, hsame⟩ := Option.map_eq_some_iff.1 hrecast
  refine ⟨frag.body, Context.bodyOf_eq hfrag, ?_⟩
  have hspreads := congrArg (fun x : Subject × Fragment => x.2.body.spreadNames) hsame
  simpa [Recast.fragment, Fragment.respanned, SelectionSet.spreadNames, SelectionSet.spreads_respanned,
    Function.comp_def, Spread.unspanned, Name.unspanned] using hspreads

end Definitions

/-! ## Cycles -/

theorem Context.Moved.acyclicFragments_eq_nil {cx cx' : Context} {r : Recast} (h : cx.Moved cx' r)
    (hnil : acyclicFragments cx = []) : acyclicFragments cx' = [] := by
  refine acyclicFragments_eq_nil_iff.2 fun name body' hbody' hreach => ?_
  obtain ⟨body, hbody, hnames⟩ := h.exists_bodyOf hbody'
  refine acyclicFragments_eq_nil_iff.1 hnil name body hbody (hreach.transport ?_ fun known inner _ hinner => ?_)
  · rw [hnames]
    exact List.Subset.refl _
  · obtain ⟨inner', hinner', hnames⟩ := h.exists_bodyOf hinner
    exact ⟨inner', hinner', by rw [hnames]; exact List.Subset.refl _⟩

/-! ## Conflicts -/

section Conflicts

/-- There are no conflicts in a moved context if there are none where it came from. -/
theorem Context.Moved.conflicts_eq_nil {cx cx' : Context} {r : Recast} (h : cx.Moved cx' r) (hnil : conflicts cx = []) :
    conflicts cx' = [] := by
  refine List.eq_nil_iff_forall_not_mem.2 fun ⟨s', c'⟩ hc' => ?_
  obtain ⟨_, _, _, hv', -⟩ := mem_conflicts.1 hc'
  obtain ⟨s, hs, hsame⟩ := h.exists_subject (mem_visits.1 hv').1
  obtain ⟨c, hc, -, -⟩ := h.alike.exists_conflict Recast.faithful_still hs hsame hc'
  rw [hnil] at hc
  exact List.not_mem_nil hc

theorem overlappingFields_eq_nil_iff {cx : Context} : overlappingFields cx = [] ↔ conflicts cx = [] := by
  unfold overlappingFields
  cases conflicts cx with
  | nil => exact iff_of_true rfl rfl
  | cons x rest =>
    refine iff_of_false ?_ (List.cons_ne_nil _ _)
    rw [conflictFindings]
    split <;> exact List.cons_ne_nil _ _

end Conflicts

/-! ## All global rules -/

section Global

variable {cx cx' : Context} {r : Recast}

theorem namedOperations_eq (cx : Context) : (namedOperations cx).map (fun x => x.2.text) =
    cx.subjects.filterMap fun s => s.definition.operation?.bind fun op => op.name.map Name.text := by
  unfold namedOperations Context.operations
  rw [List.filterMap_filterMap, List.map_filterMap]
  refine List.filterMap_congr fun s _ => ?_
  cases s.definition.operation? with
  | none => rfl
  | some op => cases hname : op.name <;> simp [hname]

theorem Context.Moved.namedOperations_eq (h : cx.Moved cx' r) :
    (namedOperations cx').map (fun x => x.2.text) = (namedOperations cx).map fun x => x.2.text := by
  have hsame : ∀ (r : Recast) (cx : Context), (namedOperations cx).map (fun x => x.2.text) =
      (cx.subjects.map (Subject.recast r)).filterMap fun s =>
        s.definition.operation?.bind fun op => op.name.map Name.text := by
    intro r cx
    rw [Rules.namedOperations_eq, List.filterMap_map]
    refine List.filterMap_congr fun s _ => ?_
    simp only [Function.comp_apply, Subject.recast, Definition.operation?_respanned]
    cases s.definition.operation? with
    | none => rfl
    | some op => cases hname : op.name <;> simp [Operation.respanned, Operation.unspanned, hname]
  rw [hsame .still cx', hsame r cx, h.subjects]

/-- The global rules find nothing in a moved context if they find nothing where it came from. -/
theorem Context.Moved.globalRules_eq_nil (h : cx.Moved cx' r) (hnil : ∀ rule ∈ globalRules, rule cx = []) :
    ∀ rule ∈ globalRules, rule cx' = [] := by
  have hsubjectwise : ∀ rule, Subjectwise rule → rule cx = [] → rule cx' = [] := fun rule hrule =>
    hrule.nil_of_recast h.alike.recast_eq fun s' hs' => h.exists_subject hs'
  unfold globalRules at hnil ⊢
  simp only [List.forall_mem_cons] at hnil ⊢
  obtain ⟨hoperations, hroot, hfields, hfragments, hcycles, hunique, hdefined, hused, hdirectives, honce, harguments,
    hargument, hrequired, hoverlap, hinputs, -⟩ := hnil
  have hoperations' : uniqueOperationNames cx' = [] := by
    unfold uniqueOperationNames at hoperations ⊢
    rw [List.map_eq_nil_iff, repeats_eq_nil_iff] at hoperations ⊢
    exact h.namedOperations_eq ▸ hoperations
  have hfragments' : uniqueFragmentNames cx' = [] := by
    refine uniqueFragmentNames_eq_nil_iff.2 ?_
    rw [h.names_eq]
    exact uniqueFragmentNames_eq_nil_iff.1 hfragments
  exact ⟨hoperations', hsubjectwise _ subjectwise_singleRootField hroot,
    hsubjectwise _ local_knownFields.subjectwise hfields, hfragments', h.acyclicFragments_eq_nil hcycles,
    hsubjectwise _ subjectwise_uniqueVariables hunique, hsubjectwise _ subjectwise_definedVariables hdefined,
    hsubjectwise _ subjectwise_usedVariables hused, hsubjectwise _ local_knownDirectives.subjectwise hdirectives,
    hsubjectwise _ local_uniqueDirectives.subjectwise honce, hsubjectwise _ local_knownArguments.subjectwise harguments,
    hsubjectwise _ local_uniqueArguments.subjectwise hargument,
    hsubjectwise _ local_requiredArguments.subjectwise hrequired,
    overlappingFields_eq_nil_iff.2 (h.conflicts_eq_nil (overlappingFields_eq_nil_iff.1 hoverlap)),
    hsubjectwise _ local_uniqueInputFields.subjectwise hinputs, fun _ h => absurd h List.not_mem_nil⟩

end Global

/-! ## Definitions that are equal up to spans -/

section Numbered

variable {α : Type} {owner : Nat → Owner} {definition : α → Definition} {as : List (Nat × α)} {targets : List Subject}

/-- Definitions that are equal up to spans are the same in other places, if no two fields of one of them stand in one
place. -/
theorem exists_recast_numbered (h : as.map (fun x => (definition x.2).unspanned) =
      targets.map fun s => s.definition.unspanned)
    (hnodup : ∀ x ∈ as, (definition x.2).fieldSpans.Nodup) : ∃ (ω : Nat → Owner) (σ : Nat → Span → Span), ∀ r : Recast,
      (∀ n, r.owner (owner n) = ω n ∧ r.span (owner n) = σ n) →
      (Context.numbered owner definition as).map (Subject.recast r) = targets.map (Subject.recast .still) := by
  have hspans : ∀ n : Nat, ∃ σ : Span → Span, ∀ (x : Nat × α) (s : Subject), as[n]? = some x → targets[n]? = some s →
      (definition x.2).respanned σ = s.definition.respanned id := by
    intro n
    cases hx : as[n]? with
    | none => exact ⟨id, nofun⟩
    | some x =>
      cases hs : targets[n]? with
      | none => exact ⟨id, nofun⟩
      | some s =>
        have hsame : (definition x.2).unspanned = s.definition.unspanned := by
          have hn := congrArg (fun l => l[n]?) h
          simp only [List.getElem?_map, hx, hs, Option.map_some, Option.some.injEq] at hn
          exact hn
        obtain ⟨σ, hσ⟩ := Definition.exists_respanned hsame (hnodup x (List.mem_of_getElem? hx))
        refine ⟨σ, fun x' s' hx' hs' => ?_⟩
        cases hx'
        cases hs'
        exact hσ
  choose σ hσ using hspans
  refine ⟨fun n => (targets[n]?.map Subject.owner).getD (owner n), σ, fun r hr => List.ext_getElem? fun n => ?_⟩
  unfold Context.numbered
  simp only [List.getElem?_map, List.getElem?_zipIdx, Option.map_map]
  have hlength := congrArg List.length h
  rw [List.length_map, List.length_map] at hlength
  cases hx : as[n]? with
  | none =>
    have hs : targets[n]? = none := by rw [List.getElem?_eq_none_iff] at hx ⊢; omega
    rw [hs]
    rfl
  | some x =>
    obtain ⟨s, hs⟩ : ∃ s, targets[n]? = some s := by
      have hn := (List.getElem?_eq_some_iff.1 hx).1
      exact ⟨targets[n], List.getElem?_eq_getElem (by omega)⟩
    obtain ⟨howner, hspan⟩ := hr n
    dsimp only at howner
    rw [hs] at howner ⊢
    simp only [Option.map_some, Function.comp_apply, Nat.zero_add, Subject.recast, howner, hspan, hσ n x s hx hs]
    rfl

end Numbered

section Of

variable {schema : Schema} {ops ops' : List (Nat × Operation)} {frags frags' : List (Nat × Fragment)}

/-- Operations and fragments are moved to definitions that are equal to them up to spans. -/
theorem Context.exists_moved_of {operations fragments : List Subject}
    (hops : ops.map (fun x => (Definition.operation x.2).unspanned) = operations.map fun s => s.definition.unspanned)
    (hfrags : frags.map (fun x => (Definition.fragment x.2).unspanned) = fragments.map fun s => s.definition.unspanned)
    (hop : ∀ x ∈ ops, (Definition.operation x.2).fieldSpans.Nodup)
    (hfrag : ∀ x ∈ frags, (Definition.fragment x.2).fieldSpans.Nodup) :
    ∃ r, (Context.of schema ops frags).Moved ⟨schema, operations ++ fragments⟩ r := by
  obtain ⟨ω, σ, hσ⟩ := @exists_recast_numbered _ .operation _ _ _ hops hop
  obtain ⟨ω', τ, hτ⟩ := @exists_recast_numbered _ .fragment _ _ _ hfrags hfrag
  refine ⟨⟨Owner.elim ω ω', Owner.elim σ τ⟩, rfl, ?_⟩
  unfold Context.of
  rw [List.map_append, List.map_append, hσ _ fun _ => ⟨rfl, rfl⟩, hτ _ fun _ => ⟨rfl, rfl⟩]

theorem Context.map_numbered {α β : Type} (owner : Nat → Owner) (definition : α → Definition) (as : List (Nat × α))
    (g : Definition → β) : (Context.numbered owner definition as).map (fun s => g s.definition) =
      as.map fun x => g (definition x.2) := by
  unfold Context.numbered
  rw [List.map_map]
  show as.zipIdx.map ((fun x => g (definition x.2)) ∘ Prod.fst) = _
  rw [← List.map_map, List.zipIdx_map_fst]

theorem Context.exists_moved (hops : ops.map (fun x => x.2.unspanned) = ops'.map fun x => x.2.unspanned)
    (hfrags : frags.map (fun x => x.2.unspanned) = frags'.map fun x => x.2.unspanned)
    (hop : ∀ x ∈ ops, (Definition.operation x.2).fieldSpans.Nodup)
    (hfrag : ∀ x ∈ frags, (Definition.fragment x.2).fieldSpans.Nodup) :
    ∃ r, (Context.of schema ops frags).Moved (.of schema ops' frags') r := by
  have hops' := congrArg (List.map Definition.operation) hops
  have hfrags' := congrArg (List.map Definition.fragment) hfrags
  rw [List.map_map, List.map_map] at hops' hfrags'
  refine Context.exists_moved_of ?_ ?_ hop hfrag
  · rw [Context.map_numbered]
    exact hops'
  · rw [Context.map_numbered]
    exact hfrags'

end Of

end QueryBatch.Rules
