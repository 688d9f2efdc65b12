import QueryBatch.Proofs.Rules.Rejection
import QueryBatch.Rules.Validate

/-!
# One operation more

The definitions of a context are validated again, together with one operation more. The rules reject the same of them,
save for the fragments that are blamed for the conflicts of the new operation.

* `Context.Widened`: a context holds the definitions of another one, and a new operation.
* `Context.Widened.rejects`: what the rules reject they reject again.
* `Context.Widened.rejects_or_blames`: what they reject then they rejected before, or it is blamed for a conflict that
  is met in the new operation.
* `widened_of`: an operation put in among others makes such a context.
-/

namespace QueryBatch.Rules

/-- A context holds the definitions of another one, which a recast puts into their places there, and a new operation. -/
structure Context.Widened (cx cx' : Context) (r : Recast) (new : Subject) : Prop where
  schema : cx.schema = cx'.schema
  subjects : ∃ before after, cx.subjects.map (Subject.recast r) = before ++ after ∧
    cx'.subjects.map (Subject.recast .still) = before ++ new.recast .still :: after
  member : new ∈ cx'.subjects
  operation : new.definition.fragment? = none
  faithful : r.Faithful
  separate : cx.Separate
  separate' : cx'.Separate
  fresh : ∀ s ∈ cx.subjects, r.owner s.owner ≠ new.owner

/-- All global rules are independent, save those on the names of operations and on conflicts. -/
theorem independent_of_mem {rule : Rule} (h : rule ∈ globalRules) :
    Independent rule ∨ rule = uniqueOperationNames ∨ rule = overlappingFields := by
  simp only [globalRules, List.mem_cons, List.not_mem_nil, or_false] at h
  rcases h with rfl | rfl | rfl | rfl | rfl | rfl | rfl | rfl | rfl | rfl | rfl | rfl | rfl | rfl | rfl
  · exact .inr (.inl rfl)
  · exact .inl subjectwise_singleRootField.independent
  · exact .inl local_knownFields.subjectwise.independent
  · exact .inl independent_uniqueFragmentNames
  · exact .inl independent_acyclicFragments
  · exact .inl subjectwise_uniqueVariables.independent
  · exact .inl subjectwise_definedVariables.independent
  · exact .inl subjectwise_usedVariables.independent
  · exact .inl local_knownDirectives.subjectwise.independent
  · exact .inl local_uniqueDirectives.subjectwise.independent
  · exact .inl local_knownArguments.subjectwise.independent
  · exact .inl local_uniqueArguments.subjectwise.independent
  · exact .inl local_requiredArguments.subjectwise.independent
  · exact .inr (.inr rfl)
  · exact .inl local_uniqueInputFields.subjectwise.independent

section Widened

variable {cx cx' : Context} {r : Recast} {new s s' t' : Subject} {rule : Rule}

theorem Context.Widened.alike (h : cx.Widened cx' r new) : cx.Alike cx' r .still := by
  obtain ⟨before, after, hcx, hcx'⟩ := h.subjects
  refine Context.alike_of_filter h.schema ?_
  have hnew : (new.recast .still).definition.fragment?.isSome = false := by
    rw [show (new.recast .still).definition = new.definition.respanned _ from rfl, Definition.fragment?_respanned,
      h.operation]
    rfl
  rw [hcx, hcx', List.filter_append, List.filter_append, List.filter_cons_of_neg (by rw [hnew]; exact nofun)]

theorem Context.Widened.exists_image (h : cx.Widened cx' r new) (hs : s ∈ cx.subjects) :
    ∃ s' ∈ cx'.subjects, s.recast r = s'.recast .still := by
  obtain ⟨before, after, hcx, hcx'⟩ := h.subjects
  have hmem : s.recast r ∈ before ++ after := hcx ▸ List.mem_map_of_mem hs
  have hmem' : s.recast r ∈ cx'.subjects.map (Subject.recast .still) := by
    rw [hcx']
    rcases List.mem_append.1 hmem with hmem | hmem
    · exact List.mem_append_left _ hmem
    · exact List.mem_append_right _ (List.mem_cons_of_mem _ hmem)
  obtain ⟨s', hs', hsame⟩ := List.mem_map.1 hmem'
  exact ⟨s', hs', hsame.symm⟩

theorem Context.Widened.exists_origin (h : cx.Widened cx' r new) (hs' : s' ∈ cx'.subjects) :
    s' = new ∨ ∃ s ∈ cx.subjects, s.recast r = s'.recast .still := by
  obtain ⟨before, after, hcx, hcx'⟩ := h.subjects
  have hmem : s'.recast .still ∈ before ++ new.recast .still :: after := hcx' ▸ List.mem_map_of_mem hs'
  have hold : s'.recast .still ∈ before ++ after → ∃ s ∈ cx.subjects, s.recast r = s'.recast .still := by
    rw [← hcx]
    exact List.mem_map.1
  rcases List.mem_append.1 hmem with hmem | hmem
  · exact .inr (hold (List.mem_append_left _ hmem))
  · rcases List.mem_cons.1 hmem with he | hmem
    · exact .inl (h.separate' s' hs' new h.member (congrArg Subject.owner he : (s'.recast .still).owner = _))
    · exact .inr (hold (List.mem_append_right _ hmem))

/-- The new operation is none of those that were there. -/
theorem Context.Widened.ne_new (h : cx.Widened cx' r new) (hs : s ∈ cx.subjects)
    (hsame : s.recast r = s'.recast .still) :
    s' ≠ new := by
  rintro rfl
  exact h.fresh s hs (congrArg Subject.owner hsame)

/-! ## Names of operations -/

theorem Context.map_operationNames (r : Recast) (cx : Context) : cx.operationNames.map (Prod.map r.owner id) =
    (cx.subjects.map (Subject.recast r)).filterMap Subject.operationName? := by
  unfold operationNames
  rw [List.map_filterMap, List.filterMap_map]
  exact List.filterMap_congr fun s _ => (s.operationName?_recast r).symm

/-- The names of the operations are those that were there, and that of the new one if it has one. -/
theorem Context.Widened.exists_operationNames (h : cx.Widened cx' r new) : ∃ before after,
    cx.operationNames.map (Prod.map r.owner id) = before ++ after ∧
      cx'.operationNames = before ++ (new.operationName?.toList ++ after) := by
  obtain ⟨before, after, hcx, hcx'⟩ := h.subjects
  have hnames := Context.map_operationNames .still cx'
  rw [show Prod.map Recast.still.owner (id : String → String) = id from rfl, List.map_id, hcx'] at hnames
  refine ⟨before.filterMap Subject.operationName?, after.filterMap Subject.operationName?, ?_, ?_⟩
  · rw [Context.map_operationNames, hcx, List.filterMap_append]
  · rw [hnames, List.filterMap_append, List.filterMap_cons, Subject.operationName?_recast]
    cases hnew : new.operationName? with
    | none => rfl
    | some x => rfl

/-- Two names that come one after the other among renamed owners do so among the owners. -/
theorem exists_sublist_of_map {f : Owner → Owner} (hf : Function.Injective f) {names : List (Owner × String)}
    {first owner : Owner} {text : String} (h : [(first, text), (f owner, text)].Sublist (names.map (Prod.map f id))) :
    ∃ a, [(a, text), (owner, text)].Sublist names := by
  obtain ⟨pair, hpair, he⟩ := List.sublist_map_iff.1 h
  obtain ⟨a, rest, rfl, ha, hrest⟩ := List.map_eq_cons_iff.1 he.symm
  obtain ⟨b, rfl, hb⟩ := List.map_eq_singleton_iff.1 hrest
  have htext : a.2 = text ∧ b.2 = text := ⟨congrArg Prod.snd ha, congrArg Prod.snd hb⟩
  have howner : b.1 = owner := hf (congrArg Prod.fst hb)
  refine ⟨a.1, ?_⟩
  rw [← howner]
  nth_rewrite 1 [← htext.1]
  rw [← htext.2]
  exact hpair

/-- If the name of the new operation is not used, the others are rejected for their names as before. -/
theorem Context.Widened.rejects_uniqueOperationNames_iff (h : cx.Widened cx' r new)
    (hfresh : ∀ x ∈ cx.operationNames, ∀ y ∈ new.operationName?, x.2 ≠ y.2) (hs : s ∈ cx.subjects)
    (hsame : s.recast r = s'.recast .still) :
    Rejects uniqueOperationNames cx s.owner ↔ Rejects uniqueOperationNames cx' s'.owner := by
  obtain ⟨before, after, hnames, hnames'⟩ := h.exists_operationNames
  have howner : r.owner s.owner = s'.owner := congrArg Subject.owner hsame
  rw [Rules.rejects_uniqueOperationNames_iff, Rules.rejects_uniqueOperationNames_iff, hnames', ← howner]
  constructor
  · rintro ⟨first, text, hsub⟩
    have hmapped := hsub.map (Prod.map r.owner id)
    rw [hnames] at hmapped
    exact ⟨_, _, hmapped.trans ((List.Sublist.refl before).append (List.sublist_append_right _ _))⟩
  · rintro ⟨first, text, hsub⟩
    -- the operation is an old one, so its name is not that of the new one, and the latter can be left out
    have hold : (r.owner s.owner, text) ∈ cx.operationNames.map (Prod.map r.owner id) := by
      have hmem := hsub.subset (List.mem_cons_of_mem _ (List.mem_singleton_self _))
      rw [hnames]
      rcases List.mem_append.1 hmem with hmem | hmem
      · exact List.mem_append_left _ hmem
      · rcases List.mem_append.1 hmem with hmem | hmem
        · obtain ⟨op, -, hop⟩ := Option.bind_eq_some_iff.1 (Option.mem_toList.1 hmem)
          obtain ⟨name, -, he⟩ := Option.map_eq_some_iff.1 hop
          exact absurd (congrArg Prod.fst he).symm (h.fresh s hs)
        · exact List.mem_append_right _ hmem
    have htext : ∀ y ∈ new.operationName?, text ≠ y.2 := by
      obtain ⟨x, hx, he⟩ := List.mem_map.1 hold
      have htext : x.2 = text := congrArg Prod.snd he
      rw [← htext]
      exact hfresh x hx
    have hkept : [(first, text), (r.owner s.owner, text)].Sublist (before ++ after) := by
      have hfiltered := hsub.filter fun x : Owner × String => x.2 == text
      have hnone : new.operationName?.toList.filter (fun x => x.2 == text) = [] := by
        refine List.filter_eq_nil_iff.2 fun y hy he => ?_
        exact htext y (Option.mem_toList.1 hy) (beq_iff_eq.1 he).symm
      rw [List.filter_append, List.filter_append, hnone, List.nil_append, ← List.filter_append] at hfiltered
      simp only [List.filter_cons, beq_self_eq_true, if_true, List.filter_nil] at hfiltered
      exact hfiltered.trans List.filter_sublist
    rw [← hnames] at hkept
    obtain ⟨a, ha⟩ := exists_sublist_of_map h.faithful.owner hkept
    exact ⟨a, text, ha⟩

/-! ## What is rejected -/

/-- What the rules reject they reject in the wider context, too. -/
theorem Context.Widened.rejects (h : cx.Widened cx' r new)
    (hfresh : ∀ x ∈ cx.operationNames, ∀ y ∈ new.operationName?, x.2 ≠ y.2) (hrule : rule ∈ globalRules)
    (hs : s ∈ cx.subjects) (hs' : s' ∈ cx'.subjects) (hsame : s.recast r = s'.recast .still)
    (hrejects : Rejects rule cx s.owner) : Rejects rule cx' s'.owner := by
  rcases independent_of_mem hrule with hindependent | rfl | rfl
  · exact hindependent cx cx' r .still h.alike Recast.faithful_still h.separate s hs s' hs' hsame hrejects
  · exact (h.rejects_uniqueOperationNames_iff hfresh hs hsame).1 hrejects
  · obtain ⟨t, u, hblames, howner⟩ := rejects_overlappingFields_iff.1 hrejects
    obtain ⟨t', ht', htame⟩ := h.exists_image hblames.cases.1
    obtain ⟨u', hblames', hu⟩ := h.alike.symm.exists_blames h.faithful ht' htame.symm hblames
    refine rejects_overlappingFields_iff.2 ⟨t', u', hblames', ?_⟩
    exact owner_eq_of_recast Recast.faithful_still hu.symm hsame howner

/-- What the rules reject in the wider context they rejected before, or it is blamed for a conflict that is met in the
new operation. -/
theorem Context.Widened.rejects_or_blames (h : cx.Widened cx' r new)
    (hfresh : ∀ x ∈ cx.operationNames, ∀ y ∈ new.operationName?, x.2 ≠ y.2) (hrule : rule ∈ globalRules)
    (hs : s ∈ cx.subjects) (hs' : s' ∈ cx'.subjects) (hsame : s.recast r = s'.recast .still)
    (hrejects : Rejects rule cx' s'.owner) : Rejects rule cx s.owner ∨ cx'.Blames new s' := by
  rcases independent_of_mem hrule with hindependent | rfl | rfl
  · exact .inl (hindependent cx' cx .still r h.alike.symm h.faithful h.separate' s' hs' s hs hsame.symm hrejects)
  · exact .inl ((h.rejects_uniqueOperationNames_iff hfresh hs hsame).2 hrejects)
  · obtain ⟨t', u', hblames', howner⟩ := rejects_overlappingFields_iff.1 hrejects
    obtain ⟨ht', hu'⟩ := hblames'.cases
    rcases h.exists_origin ht' with rfl | ⟨t, ht, htame⟩
    · have hmem : u' ∈ cx'.subjects := by
        rcases hu' with rfl | ⟨frag, hfrag⟩
        · exact ht'
        · exact (Context.mem_fragments.1 hfrag).1
      obtain rfl := h.separate' u' hmem s' hs' howner
      exact .inr hblames'
    · obtain ⟨u, hblames, hu⟩ := h.alike.exists_blames Recast.faithful_still ht htame hblames'
      refine .inl (rejects_overlappingFields_iff.2 ⟨t, u, hblames, ?_⟩)
      exact owner_eq_of_recast h.faithful hu.symm hsame.symm howner

/-- The rules reject the same operations of those that were there before. -/
theorem Context.Widened.rejects_operation_iff (h : cx.Widened cx' r new)
    (hfresh : ∀ x ∈ cx.operationNames, ∀ y ∈ new.operationName?, x.2 ≠ y.2) (hrule : rule ∈ globalRules)
    (hs : s ∈ cx.subjects) (hs' : s' ∈ cx'.subjects) (hsame : s.recast r = s'.recast .still)
    (hoperation : s.definition.fragment? = none) : Rejects rule cx s.owner ↔ Rejects rule cx' s'.owner := by
  refine ⟨h.rejects hfresh hrule hs hs' hsame, fun hrejects => ?_⟩
  refine (h.rejects_or_blames hfresh hrule hs hs' hsame hrejects).resolve_right fun hblames => ?_
  rcases hblames.cases.2 with rfl | ⟨frag, hfrag⟩
  · exact h.ne_new hs hsame rfl
  · have hkind : (s.recast r).definition.fragment? = (s'.recast .still).definition.fragment? := by rw [hsame]
    simp [Subject.recast, Definition.fragment?_respanned, hoperation, (Context.mem_fragments.1 hfrag).2] at hkind

end Widened

/-! ## An operation among others -/

/-- What becomes of a number once something else takes the number `index`. -/
def stepOver (index n : Nat) : Nat := if n < index then n else n + 1

theorem stepOver_of_lt {index n : Nat} (h : n < index) : stepOver index n = n := if_pos h

theorem stepOver_add (index n : Nat) : stepOver index (index + n) = index + 1 + n := by
  unfold stepOver
  rw [if_neg (by omega)]
  omega

theorem stepOver_ne (index n : Nat) : stepOver index n ≠ index := by
  unfold stepOver
  split <;> omega

theorem stepOver_injective (index : Nat) : Function.Injective (stepOver index) := by
  intro n m h
  unfold stepOver at h
  split at h <;> split at h <;> omega

/-- The recast that makes place for an operation. -/
def Recast.past (index : Nat) : Recast where
  owner
    | .operation n => .operation (stepOver index n)
    | .fragment n => .fragment n
  span _ := id

theorem Recast.faithful_past (index : Nat) : (Recast.past index).Faithful := by
  refine ⟨fun a b h => ?_, fun _ _ _ h => h⟩
  cases a <;> cases b <;> simp only [past, Owner.operation.injEq, Owner.fragment.injEq, reduceCtorEq] at h
  · rw [stepOver_injective index h]
  · rw [h]

theorem Recast.past_ne (index : Nat) (owner : Owner) : (Recast.past index).owner owner ≠ .operation index := by
  cases owner with
  | operation n => exact fun h => stepOver_ne index n (Owner.operation.inj h)
  | fragment n => exact nofun

/-- An operation that is put in among others makes a wider context. The sources do not matter. -/
theorem widened_of {schema : Schema} {before before' after after' : List (Nat × Operation)} {new : Nat × Operation}
    {frags frags' : List (Nat × Fragment)} (hbefore : before.map Prod.snd = before'.map Prod.snd)
    (hafter : after.map Prod.snd = after'.map Prod.snd) (hfrags : frags.map Prod.snd = frags'.map Prod.snd) :
    (Context.of schema (before ++ after) frags).Widened (.of schema (before' ++ new :: after') frags')
      (.past before.length) ⟨.operation before.length, new.1, .operation new.2⟩ := by
  have hlength : before'.length = before.length := by simpa using (congrArg List.length hbefore).symm
  have hat : (before' ++ new :: after')[before.length]? = some new := by
    rw [← hlength, List.getElem?_append_right (Nat.le_refl _), Nat.sub_self]
    rfl
  refine ⟨rfl, ⟨before'.zipIdx.map fun x => Subject.recast .still ⟨.operation x.2, x.1.1, .operation x.1.2⟩,
    ((after'.zipIdx (before.length + 1)).map fun x =>
        Subject.recast .still ⟨.operation x.2, x.1.1, .operation x.1.2⟩) ++
      frags'.zipIdx.map fun x => Subject.recast .still ⟨.fragment x.2, x.1.1, .fragment x.1.2⟩, ?_, ?_⟩,
    Context.mem_subjects_of.2 (.inl ⟨_, _, hat, rfl⟩), rfl, Recast.faithful_past _,
    Context.separate_of _ _ _, Context.separate_of _ _ _, fun s _ => Recast.past_ne _ s.owner⟩
  · have hold := @map_zipIdx_recast _ .operation .operation before before' 0 0 (.past before.length) hbefore
      (fun _ => rfl) fun i hi => by simp [Recast.past, stepOver_of_lt hi]
    have hlater := @map_zipIdx_recast _ .operation .operation after after' before.length (before.length + 1)
      (.past before.length) hafter (fun _ => rfl) fun i _ => by simp only [Recast.past, stepOver_add]
    have hfragment := @map_zipIdx_recast _ .fragment .fragment frags frags' 0 0 (.past before.length) hfrags
      (fun _ => rfl) fun _ _ => rfl
    unfold Context.of Context.numbered
    rw [← hold, ← hlater, ← hfragment, List.map_append, List.zipIdx_append, List.map_append, List.map_append,
      List.append_assoc, List.map_map, List.map_map, List.map_map, Nat.zero_add]
    rfl
  · unfold Context.of Context.numbered
    rw [List.map_append, List.zipIdx_append, List.zipIdx_cons, List.map_append, List.map_cons, List.map_append,
      List.map_cons, List.append_assoc, List.map_map, List.map_map, List.map_map, Nat.zero_add, hlength]
    rfl

end QueryBatch.Rules
