import QueryBatch.Proofs.Rules.Moved

/-!
# Definitions in another order

If no two fragments have one name, then what the rules find in a context does not depend on the order of its
definitions.

* `find?_eq_of_perm`: in lists with different keys, a key stands for the same member whatever their order.
* `Context.Shuffled`: a context holds the definitions of another one in another order.
* `Context.Shuffled.conflictBetween_eq`, `Context.Shuffled.usagesOf_eq` and the like: what is asked of a context is the
  same in both.
* `Context.Shuffled.globalRules_eq_nil`: so the global rules find nothing in one if they find nothing in the other.
* `exists_moved_shuffled`: definitions that are equal up to spans and order are moved, and then shuffled.
-/

namespace QueryBatch

/-- Members with different keys are found whatever their order. -/
theorem find?_eq_of_perm {α : Type} {key : α → String} {as bs : List α} (h : as.Perm bs) (hn : (as.map key).Nodup)
    (k : String) : as.find? (fun a => key a == k) = bs.find? fun a => key a == k := by
  cases ha : as.find? fun a => key a == k with
  | none =>
    refine (List.find?_eq_none.2 fun b hb => ?_).symm
    exact List.find?_eq_none.1 ha b (h.mem_iff.2 hb)
  | some a =>
    have hka : key a = k := beq_iff_eq.1 (List.find?_some ha :)
    have hmem := List.mem_of_find?_eq_some ha
    cases hb : bs.find? fun a => key a == k with
    | none => exact absurd (beq_iff_eq.2 hka) (List.find?_eq_none.1 hb a (h.mem_iff.1 hmem))
    | some b =>
      have hkb : key b = k := beq_iff_eq.1 (List.find?_some hb :)
      have hmem' := h.mem_iff.2 (List.mem_of_find?_eq_some hb)
      rw [List.inj_on_of_nodup_map hn hmem hmem' (hka.trans hkb.symm)]

namespace Rules

/-- A context holds the definitions of another one in another order, and no two fragments have one name. -/
structure Context.Shuffled (cx cx' : Context) : Prop where
  schema : cx.schema = cx'.schema
  subjects : cx.subjects.Perm cx'.subjects
  distinct : cx.names.Nodup

namespace Context.Shuffled

variable {cx cx' : Context}

/-! ## What is asked of a context -/

section Asked

variable (h : cx.Shuffled cx')
include h

theorem fragments : cx.fragments.Perm cx'.fragments := h.subjects.filterMap _

theorem operations : cx.operations.Perm cx'.operations := h.subjects.filterMap _

theorem names : cx.names.Perm cx'.names := h.fragments.map _

theorem type?_eq : cx.type? = cx'.type? := by
  unfold type?
  rw [h.schema]

theorem fragment?_eq : cx.fragment? = cx'.fragment? := by
  funext name
  rw [Context.fragment?_eq, Context.fragment?_eq]
  exact find?_eq_of_perm h.fragments h.distinct name

theorem bodyOf_eq : cx.bodyOf = cx'.bodyOf := by
  unfold bodyOf
  rw [h.fragment?_eq]

theorem expandSpread_eq (room : Nat) : cx.expandSpread room = cx'.expandSpread room := by
  induction room with
  | zero => rfl
  | succ room ih =>
    funext spread seen
    rw [expandSpread, expandSpread, h.fragment?_eq, h.schema, h.type?_eq, ih]

theorem expand_eq : cx.expand = cx'.expand := by
  funext s parent set seen
  unfold expand
  rw [h.fragments.length_eq, h.expandSpread_eq, h.schema]

theorem reachFrom_eq (rounds : Nat) : cx.reachFrom rounds = cx'.reachFrom rounds := by
  induction rounds with
  | zero => rfl
  | succ rounds ih =>
    funext seen stack
    cases stack with
    | nil => rfl
    | cons set stack => rw [reachFrom, reachFrom, h.fragment?_eq, ih]

theorem usagesOf_eq : usagesOf cx = usagesOf cx' := by
  funext s op
  unfold usagesOf reachable
  rw [h.fragments.length_eq, h.reachFrom_eq, h.schema]

theorem extraRootFields_eq : extraRootFields cx = extraRootFields cx' := by
  funext s op
  unfold extraRootFields
  rw [h.expand_eq]

theorem conflictBetween_eq (room : Nat) : conflictBetween cx room = conflictBetween cx' room := by
  have hbelow : expandBelow cx = expandBelow cx' := by
    funext p set seen
    unfold expandBelow
    rw [h.expand_eq, h.schema]
  induction room with
  | zero => rfl
  | succ room ih =>
    funext exclusive seen a b
    rw [conflictBetween, conflictBetween, h.schema, hbelow, ih]

theorem visits : cx.visits.Perm cx'.visits := by
  unfold Context.visits
  rw [h.schema]
  exact h.subjects.flatMap_right _

theorem comparisonRoom_eq : comparisonRoom cx = comparisonRoom cx' := by
  unfold comparisonRoom selectionSetCount
  rw [h.visits.countP_eq]

theorem mem_conflicts_iff {s : Subject} {c : Conflict} : (s, c) ∈ conflicts cx ↔ (s, c) ∈ conflicts cx' := by
  rw [mem_conflicts, mem_conflicts, h.expand_eq, h.comparisonRoom_eq, h.conflictBetween_eq]
  simp only [h.visits.mem_iff]

end Asked

/-! ## Rules -/

theorem onOperations_eq_nil (h : cx.Shuffled cx') {look : Subject × Operation → List Finding}
    (hnil : cx.operations.flatMap look = []) : cx'.operations.flatMap look = [] := by
  rw [List.flatMap_eq_nil_iff] at hnil ⊢
  exact fun x hx => hnil x (h.operations.mem_iff.2 hx)

theorem local_eq_nil (h : cx.Shuffled cx') {rule : Rule} (hlocal : Local rule) (hnil : rule cx = []) : rule cx' = [] :=
  hlocal.nil_of_recast fun s' hs' => ⟨cx, s', .still, .still, h.subjects.mem_iff.2 hs', hnil, h.schema, rfl⟩

/-- The global rules find nothing in a context if they find nothing in one with the same definitions. -/
theorem globalRules_eq_nil (h : cx.Shuffled cx') (hnil : ∀ rule ∈ globalRules, rule cx = []) :
    ∀ rule ∈ globalRules, rule cx' = [] := by
  unfold globalRules at hnil ⊢
  simp only [List.forall_mem_cons] at hnil ⊢
  obtain ⟨hoperations, hroot, hfields, hfragments, hcycles, hunique, hdefined, hused, hdirectives, honce, harguments,
    hargument, hrequired, hoverlap, hinputs, -⟩ := hnil
  have hoperations' : uniqueOperationNames cx' = [] := by
    unfold uniqueOperationNames namedOperations at hoperations ⊢
    rw [List.map_eq_nil_iff, repeats_eq_nil_iff] at hoperations ⊢
    exact ((h.operations.filterMap _).map _).nodup_iff.1 hoperations
  have hroot' : singleRootField cx' = [] := by
    rw [singleRootField_eq] at hroot ⊢
    dsimp only at hroot ⊢
    rw [h.extraRootFields_eq] at hroot
    exact h.onOperations_eq_nil hroot
  have hfragments' : uniqueFragmentNames cx' = [] :=
    uniqueFragmentNames_eq_nil_iff.2 (h.names.nodup_iff.1 h.distinct)
  have hcycles' : acyclicFragments cx' = [] := by
    rw [acyclicFragments_eq_nil_iff, h.bodyOf_eq] at hcycles
    exact acyclicFragments_eq_nil_iff.2 hcycles
  have hdefined' : definedVariables cx' = [] := by
    unfold definedVariables undefinedUsages at hdefined ⊢
    rw [h.usagesOf_eq] at hdefined
    exact h.onOperations_eq_nil hdefined
  have hused' : usedVariables cx' = [] := by
    unfold usedVariables at hused ⊢
    rw [h.usagesOf_eq] at hused
    exact h.onOperations_eq_nil hused
  have hoverlap' : overlappingFields cx' = [] := by
    rw [overlappingFields_eq_nil_iff, List.eq_nil_iff_forall_not_mem] at hoverlap ⊢
    exact fun x hx => hoverlap x (h.mem_conflicts_iff.2 hx)
  exact ⟨hoperations', hroot', h.local_eq_nil local_knownFields hfields, hfragments', hcycles',
    h.onOperations_eq_nil hunique, hdefined', hused',
    h.local_eq_nil local_knownDirectives hdirectives, h.local_eq_nil local_uniqueDirectives honce,
    h.local_eq_nil local_knownArguments harguments, h.local_eq_nil local_uniqueArguments hargument,
    h.local_eq_nil local_requiredArguments hrequired, hoverlap', h.local_eq_nil local_uniqueInputFields hinputs,
    fun _ h => absurd h List.not_mem_nil⟩

end Context.Shuffled

/-! ## Definitions that are equal up to spans and order -/

/-- A list that is mapped to another order is so member by member. -/
theorem exists_perm_of_map {α β γ : Type} {f : α → γ} {g : β → γ} {as : List α} {bs : List β}
    (h : (as.map f).Perm (bs.map g)) : ∃ cs : List β, cs.Perm bs ∧ as.map f = cs.map g := by
  have hcomp := congrFun (congrFun (List.eq_map_comp_perm g) (as.map f)) bs
  obtain ⟨cs, hsame, hperm⟩ := hcomp.mpr h
  exact ⟨cs, hperm, hsame⟩

/-- Definitions that are equal up to spans and order are moved, and then shuffled. -/
theorem Context.exists_moved_shuffled {schema : Schema} {ops ops' : List (Nat × Operation)}
    {frags frags' : List (Nat × Fragment)}
    (hops : (ops.map fun x => x.2.unspanned).Perm (ops'.map fun x => x.2.unspanned))
    (hfrags : (frags.map fun x => x.2.unspanned).Perm (frags'.map fun x => x.2.unspanned))
    (hop : ∀ x ∈ ops, (Definition.operation x.2).fieldSpans.Nodup)
    (hfrag : ∀ x ∈ frags, (Definition.fragment x.2).fieldSpans.Nodup)
    (hnames : (frags'.map fun x => x.2.name.text).Nodup) :
    ∃ r mid, (Context.of schema ops frags).Moved mid r ∧ mid.Shuffled (.of schema ops' frags') := by
  have hops' := hops.map Definition.operation
  have hfrags' := hfrags.map Definition.fragment
  rw [List.map_map, List.map_map] at hops' hfrags'
  have hopsTo : (ops.map fun x => (Definition.operation x.2).unspanned).Perm
      ((numbered .operation .operation ops').map fun s => s.definition.unspanned) := by
    rw [map_numbered]
    exact hops'
  have hfragsTo : (frags.map fun x => (Definition.fragment x.2).unspanned).Perm
      ((numbered .fragment .fragment frags').map fun s => s.definition.unspanned) := by
    rw [map_numbered]
    exact hfrags'
  -- `os` and `fs` are the definitions of the second context in the order of the first one
  obtain ⟨os, hos, hosame⟩ := exists_perm_of_map hopsTo
  obtain ⟨fs, hfs, hfsame⟩ := exists_perm_of_map hfragsTo
  obtain ⟨r, hmoved⟩ := @Context.exists_moved_of schema _ _ _ _ hosame hfsame hop hfrag
  have hshuffled : (os ++ fs).Perm (Context.of schema ops' frags').subjects := hos.append hfs
  refine ⟨r, _, hmoved, rfl, hshuffled, ?_⟩
  have hperm := (hshuffled.filterMap fun s => s.definition.fragment?.map fun frag => (s, frag)).map
    fun x : Subject × Fragment => x.2.name.text
  refine hperm.nodup_iff.2 ?_
  show (Context.of schema ops' frags').names.Nodup
  rw [names_of]
  exact hnames

end Rules

end QueryBatch
