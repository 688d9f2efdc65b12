import Mathlib.Data.List.Flatten
import QueryBatch.Proofs.Rules.Inheritance

/-!
# Field conflicts in larger contexts

* `conflictBetween_isSome_iff`: two fields conflict by themselves, or because two fields below them do.
* `Context.Embeds.conflictBetween`: fields of a small context that conflict there conflict in the larger one too.
* `rejects_overlappingFields_iff`: a conflict rejects whatever is blamed for it, `Context.Blames`: the definition that
  it is met in, and those that hold its fields, reported before or not. `inherits_overlappingFields`: so the rule
  inherits.
-/

namespace QueryBatch.Rules

/-! ## Conflicts step by step -/

/-- Two fields at different places do not merge if they conflict by themselves, or if two fields below them that share
a key do not merge. -/
theorem conflictBetween_isSome_iff {cx : Context} {room : Nat} {exclusive : Bool} {seen : List String}
    {a b : Placed} :
    (conflictBetween cx (room + 1) exclusive seen a b).isSome = true ↔
      a.place ≠ b.place ∧
      ((headConflict cx.schema (exclusive || exclusiveParents a.parent b.parent) a b).isSome = true ∨
        ∃ s t, a.body = some s ∧ b.body = some t ∧
          ∃ x ∈ keyedPairs (expandBelow cx a s seen).1 (expandBelow cx b t seen).1,
            (conflictBetween cx room (exclusive || exclusiveParents a.parent b.parent)
              ((expandBelow cx a s seen).2 ++ (expandBelow cx b t seen).2) x.2.1 x.2.2).isSome = true) := by
  rw [conflictBetween]
  by_cases hplace : a.place = b.place
  · rw [if_pos hplace]
    exact iff_of_false (by simp) fun h => h.1 hplace
  rw [if_neg hplace]
  dsimp only
  generalize (exclusive || exclusiveParents a.parent b.parent) = exclusive
  simp only [ne_eq, hplace, not_false_eq_true, true_and]
  cases hhead : headConflict cx.schema exclusive a b with
  | some reason => simp
  | none =>
    cases ha : a.body with
    | none => simp
    | some s =>
      cases hb : b.body with
      | none => simp
      | some t =>
        simp only [Option.isSome_none, Bool.false_eq_true, false_or, Option.some.injEq, exists_eq_left',
          exists_and_left]
        split
        · rename_i hnone
          refine iff_of_false (by simp) ?_
          rintro ⟨x, hx, hsome⟩
          have hempty := List.isEmpty_iff.1 hnone
          have hno := List.filterMap_eq_nil_iff.1 hempty x hx
          rw [Option.map_eq_none_iff] at hno
          rw [hno] at hsome
          cases hsome
        · rename_i hmore
          refine iff_of_true rfl ?_
          obtain ⟨reason, hreason⟩ := List.exists_mem_of_ne_nil _ fun h => hmore (List.isEmpty_iff.2 h)
          obtain ⟨x, hx, hmap⟩ := List.mem_filterMap.1 hreason
          obtain ⟨why, hwhy, -⟩ := Option.map_eq_some_iff.1 hmap
          exact ⟨x, hx, by rw [hwhy]; rfl⟩

/-! ## Pairs -/

theorem orderedPairs_map {α β : Type} (f : α → β) (as : List α) :
    orderedPairs (as.map f) = (orderedPairs as).map (Prod.map f f) := by
  induction as with
  | nil => rfl
  | cons a rest ih =>
    simp only [orderedPairs, List.map_cons, ih, List.map_append, List.map_map]
    rfl

theorem mem_orderedPairs {α : Type} {as : List α} {x : α × α} (h : x ∈ orderedPairs as) : x.1 ∈ as ∧ x.2 ∈ as := by
  induction as with
  | nil => exact absurd h List.not_mem_nil
  | cons a rest ih =>
    rcases List.mem_append.1 h with h | h
    · obtain ⟨b, hb, rfl⟩ := List.mem_map.1 h
      exact ⟨List.mem_cons_self, List.mem_cons_of_mem _ hb⟩
    · exact ⟨List.mem_cons_of_mem _ (ih h).1, List.mem_cons_of_mem _ (ih h).2⟩

theorem mem_orderedPairs_or {α : Type} {as : List α} {a b : α} (ha : a ∈ as) (hb : b ∈ as) (hne : a ≠ b) :
    (a, b) ∈ orderedPairs as ∨ (b, a) ∈ orderedPairs as := by
  induction as with
  | nil => exact absurd ha List.not_mem_nil
  | cons x rest ih =>
    rcases List.mem_cons.1 ha with rfl | ha'
    · rcases List.mem_cons.1 hb with rfl | hb'
      · exact absurd rfl hne
      · exact .inl (List.mem_append_left _ (List.mem_map_of_mem hb'))
    · rcases List.mem_cons.1 hb with rfl | hb'
      · exact .inr (List.mem_append_left _ (List.mem_map_of_mem ha'))
      · exact (ih ha' hb').imp (List.mem_append_right _) (List.mem_append_right _)

theorem mem_grouped {fields : List Placed} {key : String} {group : List Placed} (h : (key, group) ∈ grouped fields)
    {p : Placed} (hp : p ∈ group) : p ∈ fields := by
  obtain ⟨key', -, he⟩ := List.mem_map.1 h
  cases he
  exact (List.mem_filter.1 hp).1

theorem mem_keyedPairs {left right : List Placed} {x : String × Placed × Placed} :
    x ∈ keyedPairs left right ↔
      ∃ group, (x.1, group) ∈ grouped left ∧ x.2.1 ∈ group ∧ x.2.2 ∈ right ∧ x.2.2.responseKey = x.1 := by
  obtain ⟨key, a, b⟩ := x
  unfold keyedPairs
  simp only [List.mem_flatMap, List.mem_map, List.mem_filter, beq_iff_eq, Prod.exists, Prod.mk.injEq]
  constructor
  · rintro ⟨key', group, hgroup, a', ha, b', ⟨hb, hkey⟩, rfl, rfl, rfl⟩
    exact ⟨group, hgroup, ha, hb, hkey⟩
  · rintro ⟨group, hgroup, ha, hb, hkey⟩
    exact ⟨key, group, hgroup, a, ha, b, ⟨hb, hkey⟩, rfl, rfl, rfl⟩

theorem exists_mem_grouped {fields : List Placed} {p q : Placed} (hp : p ∈ fields) (hq : q ∈ fields)
    (hkey : p.responseKey = q.responseKey) :
    ∃ group, (p.responseKey, group) ∈ grouped fields ∧ p ∈ group ∧ q ∈ group := by
  refine ⟨_, List.mem_map_of_mem (OrderedSet.mem_ofList.2 (List.mem_map_of_mem hp)), ?_, ?_⟩
  · exact List.mem_filter.2 ⟨hp, beq_iff_eq.2 rfl⟩
  · exact List.mem_filter.2 ⟨hq, beq_iff_eq.2 hkey.symm⟩

/-- A conflict is one between two fields of a selection set that is met. -/
theorem mem_conflicts {cx : Context} {s : Subject} {c : Conflict} : (s, c) ∈ conflicts cx ↔
    ∃ parent set group, (s, .selectionSet parent set) ∈ cx.visits ∧
      (c.key, group) ∈ grouped (cx.expand s parent set []).1 ∧ (c.first, c.second) ∈ orderedPairs group ∧
      conflictBetween cx (comparisonRoom cx) false [] c.first c.second = some c.reason := by
  constructor
  · intro hc
    obtain ⟨⟨s', v⟩, hv, hc⟩ := List.mem_flatMap.1 hc
    cases v with
    | selectionSet parent set =>
      obtain ⟨c', hc, he⟩ := List.mem_map.1 hc
      cases he
      obtain ⟨⟨key, group⟩, hgroup, hc⟩ := List.mem_flatMap.1 hc
      obtain ⟨⟨a, b⟩, hab, hc⟩ := List.mem_filterMap.1 hc
      obtain ⟨reason, hreason, rfl⟩ := Option.map_eq_some_iff.1 hc
      exact ⟨parent, set, group, hv, hgroup, hab, hreason⟩
    | _ => exact absurd hc List.not_mem_nil
  · rintro ⟨parent, set, group, hv, hgroup, hab, hreason⟩
    refine List.mem_flatMap.2 ⟨_, hv, List.mem_map.2 ⟨c, List.mem_flatMap.2 ⟨_, hgroup, ?_⟩, rfl⟩⟩
    exact List.mem_filterMap.2 ⟨_, hab, Option.map_eq_some_iff.2 ⟨c.reason, hreason, rfl⟩⟩

section Mapped

variable {f : Placed → Placed} (hf : ∀ p, (f p).responseKey = p.responseKey) {left right fields : List Placed}
include hf

theorem mem_grouped_map {key : String} {group : List Placed} (h : (key, group) ∈ grouped fields) :
    (key, group.map f) ∈ grouped (fields.map f) := by
  rw [grouped_map hf]
  exact List.mem_map_of_mem (f := Prod.map id (List.map f)) h

/-- Fields with the same response keys make the same pairs. -/
theorem keyedPairs_map :
    keyedPairs (left.map f) (right.map f) = (keyedPairs left right).map (Prod.map id (Prod.map f f)) := by
  unfold keyedPairs
  rw [grouped_map hf, List.flatMap_map, List.map_flatMap]
  refine List.flatMap_congr fun x _ => ?_
  dsimp only [Prod.map]
  rw [List.flatMap_map, List.map_flatMap]
  refine List.flatMap_congr fun a _ => ?_
  rw [List.filter_map, List.map_map, List.map_map]
  simp only [Function.comp_def, hf]
  rfl

end Mapped

/-! ## Selection sets of a definition -/

section Visits

variable {schema : Schema} {parent : Option TypeDef} {set : SelectionSet}

theorem not_mem_argumentVisits {site : ArgumentSite} {arguments : List Argument} :
    .selectionSet parent set ∉ argumentVisits site arguments := by
  simp [argumentVisits]

theorem not_mem_directiveVisits {location : DirectiveLocation} {directives : List Directive} :
    .selectionSet parent set ∉ directiveVisits schema location directives := by
  unfold directiveVisits
  split
  · exact List.not_mem_nil
  · intro h
    rcases List.mem_cons.1 h with h | h
    · cases h
    · obtain ⟨d, -, hd⟩ := List.mem_flatMap.1 h
      exact not_mem_argumentVisits hd

theorem not_mem_fieldVisits {above : Option TypeDef} {f : Field} {body : Option SelectionSet} :
    .selectionSet parent set ∉ fieldVisits schema above f body := by
  intro h
  rcases List.mem_append.1 h with h | h
  · rcases List.mem_cons.1 h with h | h
    · cases h
    · exact not_mem_argumentVisits h
  · exact not_mem_directiveVisits h

mutual

theorem spreads_subset_of_selectionVisits : ∀ (above : Option TypeDef) (selection : Selection),
    .selectionSet parent set ∈ selectionVisits schema above selection → set.spreads ⊆ selection.spreads
  | _, .field _, h => absurd h not_mem_fieldVisits
  | _, .group f selections span, h => by
    rcases List.mem_append.1 h with h | h
    · exact absurd h not_mem_fieldVisits
    · rcases List.mem_cons.1 h with h | h
      · cases h
        exact SelectionSet.spreads_subset _
      · exact spreads_subset_of_selectionsVisits _ selections h
  | _, .spread _, h => by
    rcases List.mem_cons.1 h with h | h
    · cases h
    · exact absurd h not_mem_directiveVisits
  | _, .inline i selections span, h => by
    rcases List.mem_append.1 h with h | h
    · rcases List.mem_cons.1 h with h | h
      · cases h
      · exact absurd h not_mem_directiveVisits
    · rcases List.mem_cons.1 h with h | h
      · cases h
        exact SelectionSet.spreads_subset _
      · exact spreads_subset_of_selectionsVisits _ selections h

theorem spreads_subset_of_selectionsVisits : ∀ (above : Option TypeDef) (selections : List Selection),
    .selectionSet parent set ∈ selectionsVisits schema above selections →
      set.spreads ⊆ Selection.spreadsIn selections
  | _, [], h => absurd h List.not_mem_nil
  | _, selection :: rest, h => by
    rcases List.mem_append.1 h with h | h
    · exact List.Subset.trans (spreads_subset_of_selectionVisits _ selection h) (List.subset_append_left _ _)
    · exact List.Subset.trans (spreads_subset_of_selectionsVisits _ rest h) (List.subset_append_right _ _)

end

theorem spreads_subset_of_setVisits {above : Option TypeDef} {body : SelectionSet}
    (h : .selectionSet parent set ∈ setVisits schema above body) : set.spreads ⊆ body.spreads := by
  rcases List.mem_cons.1 h with h | h
  · cases h
    exact List.Subset.refl _
  · exact List.Subset.trans (spreads_subset_of_selectionsVisits _ _ h) (SelectionSet.spreadsIn_subset _)

/-- What a selection set of a definition spreads, the definition spreads. -/
theorem spreads_subset_of_visits {s : Subject} (h : .selectionSet parent set ∈ s.visits schema) :
    set.spreads ⊆ s.definition.body.spreads := by
  unfold Subject.visits at h
  split at h
  · rename_i op hop
    rw [hop]
    simp only [operationVisits, List.mem_append, List.mem_cons, List.mem_flatMap, List.not_mem_nil, or_false,
      reduceCtorEq, false_or] at h
    rcases h with (⟨v, -, hv⟩ | h) | h
    · exact absurd hv not_mem_directiveVisits
    · exact absurd h not_mem_directiveVisits
    · exact spreads_subset_of_setVisits h
  · rename_i frag hfrag
    rw [hfrag]
    simp only [fragmentVisits, List.mem_append, List.mem_cons, List.not_mem_nil, or_false, reduceCtorEq,
      false_or] at h
    rcases h with h | h
    · exact absurd h not_mem_directiveVisits
    · exact spreads_subset_of_setVisits h

end Visits

/-! ## Conflicts in larger contexts -/

section Embedded

variable {part whole : Context} {rename : Owner → Owner}

theorem Context.Embeds.place_ne (h : part.Embeds whole rename) {a b : Placed} (hne : a.place ≠ b.place) :
    (a.renamed rename).place ≠ (b.renamed rename).place := by
  intro he
  obtain ⟨howner, hspan⟩ := Prod.mk.injEq _ _ _ _ ▸ he
  exact hne (Prod.ext (h.injective howner) hspan)

theorem Context.Embeds.expandBelow (h : part.Embeds whole rename) (p : Placed) {set : SelectionSet}
    (hset : part.Covers set.spreads) (seen : List String) :
    Agree part rename seen (Rules.expandBelow part p set seen)
      (Rules.expandBelow whole (p.renamed rename) set seen) := by
  unfold Rules.expandBelow
  rw [← h.schema]
  exact h.expand p.subject _ hset seen

/-- Fields of the small context that do not merge there do not merge in the larger one. -/
theorem Context.Embeds.conflictBetween (h : part.Embeds whole rename) {room room' : Nat} (hle : room ≤ room')
    {exclusive : Bool} {seen : List String} {a b : Placed} (ha : a.Covered part) (hb : b.Covered part)
    (hsome : (Rules.conflictBetween part room exclusive seen a b).isSome = true) :
    (Rules.conflictBetween whole room' exclusive seen (a.renamed rename) (b.renamed rename)).isSome = true := by
  induction room generalizing room' exclusive seen a b with
  | zero => cases hsome
  | succ room ih =>
    obtain ⟨room', rfl⟩ : ∃ n, room' = n + 1 := ⟨room' - 1, by omega⟩
    obtain ⟨hplace, hwhy⟩ := conflictBetween_isSome_iff.1 hsome
    refine conflictBetween_isSome_iff.2 ⟨h.place_ne hplace, ?_⟩
    rcases hwhy with hhead | ⟨s, t, hs, ht, x, hx, hbelow⟩
    · rw [← h.schema]
      exact .inl hhead
    · have hleft := h.expandBelow a (ha s hs) seen
      have hright := h.expandBelow b (hb t ht) seen
      obtain ⟨group, hgroup, hxa, hxb, -⟩ := mem_keyedPairs.1 hx
      refine .inr ⟨s, t, hs, ht, (x.1, x.2.1.renamed rename, x.2.2.renamed rename), ?_, ?_⟩
      · rw [hleft.fields, hright.fields]
        rw [keyedPairs_map (Placed.responseKey_renamed rename)]
        exact List.mem_map_of_mem hx
      · rw [hleft.met, hright.met]
        exact ih (by omega) (hleft.covered _ (mem_grouped hgroup hxa)) (hright.covered _ hxb) hbelow

/-- The larger context has at least as many selection sets. -/
theorem Context.Embeds.selectionSetCount_le (h : part.Embeds whole rename) :
    selectionSetCount part ≤ selectionSetCount whole := by
  obtain ⟨subjects, hperm, hsub⟩ := h.subperm
  have hvisits : (part.subjects.map (Subject.renamed rename)).flatMap
      (fun s => (s.visits whole.schema).map fun v => (s, v)) =
      part.visits.map (Prod.map (Subject.renamed rename) id) := by
    unfold Context.visits
    rw [List.flatMap_map, List.map_flatMap, h.schema]
    refine List.flatMap_congr fun s _ => ?_
    rw [List.map_map, Subject.visits_renamed]
    rfl
  have hperm' := hperm.flatMap_right fun s => (s.visits whole.schema).map fun v => (s, v)
  rw [hvisits] at hperm'
  unfold selectionSetCount
  refine Nat.le_trans (Nat.le_of_eq ?_) (hsub.flatMap fun s => (s.visits whole.schema).map fun v => (s, v)).countP_le
  rw [hperm'.countP_eq, List.countP_map]
  exact List.countP_congr fun ⟨_, v⟩ _ => by cases v <;> exact Iff.rfl

theorem Context.Embeds.comparisonRoom_le (h : part.Embeds whole rename) :
    comparisonRoom part ≤ comparisonRoom whole := by
  have hle := h.selectionSetCount_le
  unfold comparisonRoom
  omega

/-- A conflict of the small context is one of the larger context, met in the same definition. -/
theorem Context.Embeds.conflicts (h : part.Embeds whole rename) {s : Subject} {c : Conflict}
    (hc : (s, c) ∈ Rules.conflicts part) :
    s ∈ part.subjects ∧ ∃ c', (s.renamed rename, c') ∈ Rules.conflicts whole := by
  obtain ⟨parent, set, group, hv, hgroup, hab, hreason⟩ := mem_conflicts.1 hc
  obtain ⟨hs, hwhole⟩ := h.mem_visits hv
  refine ⟨hs, ?_⟩
  have hset : part.Covers set.spreads := fun spread hspread =>
    h.closed hs spread (spreads_subset_of_visits (Rules.mem_visits.1 hv).2 hspread)
  have hexpand := h.expand s parent hset []
  obtain ⟨ha, hb⟩ := mem_orderedPairs hab
  have hcovered : ∀ p ∈ group, p.Covered part := fun p hp => hexpand.covered p (mem_grouped hgroup hp)
  have hsome := h.conflictBetween h.comparisonRoom_le (hcovered _ ha) (hcovered _ hb)
    (by rw [hreason]; rfl)
  obtain ⟨reason', hreason'⟩ := Option.isSome_iff_exists.1 hsome
  refine ⟨⟨c.key, reason', c.first.renamed rename, c.second.renamed rename⟩, mem_conflicts.2 ⟨parent, set,
    group.map (Placed.renamed rename), hwhole, ?_, ?_, hreason'⟩⟩
  · rw [hexpand.fields]
    exact mem_grouped_map (Placed.responseKey_renamed rename) hgroup
  · rw [orderedPairs_map]
    exact List.mem_map_of_mem (f := Prod.map (Placed.renamed rename) (Placed.renamed rename)) hab

end Embedded

/-! ## What conflicts reject -/

/-- A definition is blamed for a conflict that is met in another one: it is the same one, or holds one of the fields. -/
def Context.Blames (cx : Context) (s t : Subject) : Prop :=
  ∃ c, (s, c) ∈ conflicts cx ∧ (t = s ∨ t = c.first.subject ∨ t = c.second.subject)

section Blames

variable {cx : Context} {s t : Subject}

/-- All definitions that are blamed for a conflict are rejected, when it is first reported or before. -/
theorem rejects_conflictFindings {c : Conflict} {found : List (Subject × Conflict)} (h : (s, c) ∈ found)
    (ht : t = s ∨ t = c.first.subject ∨ t = c.second.subject) (reported : List ((Owner × Span) × (Owner × Span))) :
    (∃ f ∈ conflictFindings reported found, t.owner ∈ f.rejected) ∨
      ∃ x ∈ reported, t.owner = x.1.1 ∨ t.owner = x.2.1 := by
  induction found generalizing reported with
  | nil => exact absurd h List.not_mem_nil
  | cons x rest ih =>
    obtain ⟨s', c'⟩ := x
    rw [conflictFindings]
    split
    · rename_i hreported
      rcases List.mem_cons.1 h with he | h
      · cases he
        rcases ht with rfl | ht
        · exact .inl ⟨_, List.mem_cons_self, List.mem_singleton_self _⟩
        · unfold wasReported at hreported
          rw [Bool.or_eq_true, List.contains_iff_mem, List.contains_iff_mem] at hreported
          rcases hreported with hmem | hmem
          · exact .inr ⟨_, hmem, ht.symm.imp (congrArg Subject.owner) (congrArg Subject.owner)⟩
          · exact .inr ⟨_, hmem, ht.imp (congrArg Subject.owner) (congrArg Subject.owner)⟩
      · refine (ih h reported).imp_left ?_
        rintro ⟨f, hf, howner⟩
        exact ⟨f, List.mem_cons_of_mem _ hf, howner⟩
    · rcases List.mem_cons.1 h with he | h
      · cases he
        refine .inl ⟨_, List.mem_cons_self, ?_⟩
        rcases ht with rfl | rfl | rfl <;> simp
      · rcases ih h ((c'.second.place, c'.first.place) :: reported) with ⟨f, hf, howner⟩ | ⟨x, hx, howner⟩
        · exact .inl ⟨f, List.mem_cons_of_mem _ hf, howner⟩
        · rcases List.mem_cons.1 hx with rfl | hx
          · refine .inl ⟨_, List.mem_cons_self, ?_⟩
            rcases howner with howner | howner
            · rw [howner]
              exact List.mem_cons_self
            · rw [howner]
              exact List.mem_cons_of_mem _ List.mem_cons_self
          · exact .inr ⟨x, hx, howner⟩

/-- What is rejected for conflicts is blamed for one of them. -/
theorem exists_of_mem_conflictFindings {found : List (Subject × Conflict)}
    {reported : List ((Owner × Span) × (Owner × Span))} {f : Finding} (hf : f ∈ conflictFindings reported found)
    {owner : Owner} (howner : owner ∈ f.rejected) : ∃ s c t, (s, c) ∈ found ∧
      (t = s ∨ t = c.first.subject ∨ t = c.second.subject) ∧ t.owner = owner := by
  induction found generalizing reported with
  | nil => exact absurd hf List.not_mem_nil
  | cons x rest ih =>
    obtain ⟨s, c⟩ := x
    have hlater : ∀ reported, f ∈ conflictFindings reported rest → ∃ s' c' t, (s', c') ∈ (s, c) :: rest ∧
        (t = s' ∨ t = c'.first.subject ∨ t = c'.second.subject) ∧ t.owner = owner := by
      intro reported hf
      obtain ⟨s', c', t, hmem, ht⟩ := ih hf
      exact ⟨s', c', t, List.mem_cons_of_mem _ hmem, ht⟩
    rw [conflictFindings] at hf
    split at hf
    · rcases List.mem_cons.1 hf with rfl | hf
      · exact ⟨s, c, s, List.mem_cons_self, .inl rfl, (List.mem_singleton.1 howner).symm⟩
      · exact hlater _ hf
    · rcases List.mem_cons.1 hf with rfl | hf
      · simp only [List.mem_cons, List.not_mem_nil, or_false] at howner
        rcases howner with rfl | rfl | rfl
        · exact ⟨s, c, _, List.mem_cons_self, .inr (.inr rfl), rfl⟩
        · exact ⟨s, c, _, List.mem_cons_self, .inr (.inl rfl), rfl⟩
        · exact ⟨s, c, s, List.mem_cons_self, .inl rfl, rfl⟩
      · exact hlater _ hf

/-- The rule on fields with one response key rejects just what is blamed for a conflict. -/
theorem rejects_overlappingFields_iff {owner : Owner} :
    Rejects overlappingFields cx owner ↔ ∃ s t, cx.Blames s t ∧ t.owner = owner := by
  constructor
  · rintro ⟨f, hf, howner⟩
    obtain ⟨s, c, t, hc, ht, howner⟩ := exists_of_mem_conflictFindings hf howner
    exact ⟨s, t, ⟨c, hc, ht⟩, howner⟩
  · rintro ⟨s, t, ⟨c, hc, ht⟩, rfl⟩
    refine (rejects_conflictFindings hc ht []).resolve_right ?_
    rintro ⟨x, hx, -⟩
    exact List.not_mem_nil hx

end Blames

theorem inherits_overlappingFields : Inherits overlappingFields := by
  intro part whole rename h hspares
  have hnone : conflicts part = [] := by
    refine List.eq_nil_iff_forall_not_mem.2 fun x hx => ?_
    obtain ⟨s, c⟩ := x
    obtain ⟨hs, c', hc'⟩ := h.conflicts hx
    obtain ⟨f, hf, howner⟩ := rejects_overlappingFields_iff.2 ⟨_, _, ⟨c', hc', .inl rfl⟩, rfl⟩
    exact hspares f hf s hs howner
  unfold overlappingFields
  rw [hnone]
  rfl

end QueryBatch.Rules
