import Mathlib.Algebra.GroupWithZero.Nat
import Mathlib.Algebra.Order.BigOperators.Group.List
import Mathlib.Algebra.Order.Group.Nat
import QueryBatch.Proofs.Rules.Overlap

/-!
# Room for comparisons

Two fields are compared down to a depth that bounds the recursion. The bound is never reached: every step down leaves
fewer selection sets to open, those below the field and those in fragments that were not spread on the way.

* `Placed.weight`, `Context.pool`: what is left to open below a field, and in fragments.
* `Context.weight_expandBelow_lt`: a step down leaves less.
* `conflictBetween_of_room`: with more room than is left to open no conflict is missed.
* `Context.weight_lt_comparisonRoom`: so much room there is for the fields of every selection set.
-/

namespace QueryBatch

/-! ## Selection sets in a text -/

mutual

/-- The number of selection sets in a selection. -/
def Selection.setCount : Selection → Nat
  | .field _ => 0
  | .group _ selections _ => 1 + Selection.setCountIn selections
  | .spread _ => 0
  | .inline _ selections _ => 1 + Selection.setCountIn selections

def Selection.setCountIn : List Selection → Nat
  | [] => 0
  | selection :: rest => selection.setCount + Selection.setCountIn rest

end

/-- The number of selection sets in a selection set, and itself. -/
def SelectionSet.setCount (set : SelectionSet) : Nat := 1 + Selection.setCountIn set.selections

namespace Rules

/-- Whether a selection set is met. -/
def Visit.isSet : Visit → Bool
  | .selectionSet _ _ => true
  | _ => false

section Visits

variable {schema : Schema}

theorem countP_directiveVisits (location : DirectiveLocation) (directives : List Directive) :
    (directiveVisits schema location directives).countP Visit.isSet = 0 := by
  refine List.countP_eq_zero.2 fun v hv hset => ?_
  cases v with
  | selectionSet parent set => exact not_mem_directiveVisits hv
  | _ => cases hset

theorem countP_fieldVisits (parent : Option TypeDef) (f : Field) (body : Option SelectionSet) :
    (fieldVisits schema parent f body).countP Visit.isSet = 0 := by
  refine List.countP_eq_zero.2 fun v hv hset => ?_
  cases v with
  | selectionSet parent set => exact not_mem_fieldVisits hv
  | _ => cases hset

mutual

theorem countP_selectionVisits : ∀ (parent : Option TypeDef) (selection : Selection),
    (selectionVisits schema parent selection).countP Visit.isSet = selection.setCount
  | parent, .field f => countP_fieldVisits parent f none
  | parent, .group f selections span => by
    rw [selectionVisits, List.countP_append, countP_fieldVisits, List.countP_cons_of_pos rfl,
      countP_selectionsVisits _ selections, Selection.setCount]
    omega
  | parent, .spread s => by
    rw [selectionVisits, List.countP_cons_of_neg Bool.false_ne_true, countP_directiveVisits]
    rfl
  | parent, .inline i selections span => by
    rw [selectionVisits, List.countP_append, List.countP_cons_of_neg Bool.false_ne_true, countP_directiveVisits,
      List.countP_cons_of_pos rfl, countP_selectionsVisits _ selections, Selection.setCount]
    omega

theorem countP_selectionsVisits : ∀ (parent : Option TypeDef) (selections : List Selection),
    (selectionsVisits schema parent selections).countP Visit.isSet = Selection.setCountIn selections
  | _, [] => rfl
  | parent, selection :: rest => by
    rw [selectionsVisits, List.countP_append, countP_selectionVisits parent selection,
      countP_selectionsVisits parent rest]
    rfl

end

theorem countP_setVisits (parent : Option TypeDef) (set : SelectionSet) :
    (setVisits schema parent set).countP Visit.isSet = set.setCount := by
  unfold setVisits SelectionSet.setCount
  rw [List.countP_cons_of_pos rfl, countP_selectionsVisits, Nat.add_comm]

/-- On the walk through a definition every selection set is met once. -/
theorem countP_visits (s : Subject) : (s.visits schema).countP Visit.isSet = s.definition.body.setCount := by
  unfold Subject.visits
  cases s.definition with
  | operation op =>
    have hvariables : (op.variableDefinitions.flatMap fun v => .variableDefinition v ::
        directiveVisits schema .variableDefinition v.directives).countP Visit.isSet = 0 := by
      refine List.countP_eq_zero.2 fun v hv hset => ?_
      obtain ⟨d, -, hv⟩ := List.mem_flatMap.1 hv
      rcases List.mem_cons.1 hv with rfl | hv
      · cases hset
      · exact List.countP_eq_zero.1 (countP_directiveVisits _ d.directives) v hv hset
    show (operationVisits schema op).countP Visit.isSet = op.body.setCount
    unfold operationVisits
    rw [List.countP_append, List.countP_append, List.countP_append, List.countP_cons_of_neg Bool.false_ne_true,
      hvariables, countP_directiveVisits, countP_setVisits]
    simp [Visit.isSet]
  | fragment frag =>
    show (fragmentVisits schema frag).countP Visit.isSet = frag.body.setCount
    unfold fragmentVisits
    rw [List.countP_append, List.countP_append, List.countP_cons_of_neg Bool.false_ne_true, countP_directiveVisits,
      countP_setVisits]
    simp [Visit.isSet]

/-! ### Selection sets inside others -/

variable {parent : Option TypeDef} {set : SelectionSet}

mutual

theorem setVisits_sublist_selection : ∀ (above : Option TypeDef) (selection : Selection),
    .selectionSet parent set ∈ selectionVisits schema above selection →
      (setVisits schema parent set).Sublist (selectionVisits schema above selection)
  | _, .field _, h => absurd h not_mem_fieldVisits
  | above, .group f selections span, h => by
    rw [selectionVisits] at h ⊢
    rcases List.mem_append.1 h with h | h
    · exact absurd h not_mem_fieldVisits
    · refine List.Sublist.trans ?_ (List.sublist_append_right _ _)
      rcases List.mem_cons.1 h with h | h
      · cases h
        exact List.Sublist.refl _
      · exact (setVisits_sublist_selections _ selections h).cons _
  | _, .spread _, h => by
    rcases List.mem_cons.1 h with h | h
    · cases h
    · exact absurd h not_mem_directiveVisits
  | above, .inline i selections span, h => by
    rw [selectionVisits] at h ⊢
    rcases List.mem_append.1 h with h | h
    · rcases List.mem_cons.1 h with h | h
      · cases h
      · exact absurd h not_mem_directiveVisits
    · refine List.Sublist.trans ?_ (List.sublist_append_right _ _)
      rcases List.mem_cons.1 h with h | h
      · cases h
        exact List.Sublist.refl _
      · exact (setVisits_sublist_selections _ selections h).cons _

theorem setVisits_sublist_selections : ∀ (above : Option TypeDef) (selections : List Selection),
    .selectionSet parent set ∈ selectionsVisits schema above selections →
      (setVisits schema parent set).Sublist (selectionsVisits schema above selections)
  | _, [], h => absurd h List.not_mem_nil
  | above, selection :: rest, h => by
    rw [selectionsVisits] at h ⊢
    rcases List.mem_append.1 h with h | h
    · exact (setVisits_sublist_selection above selection h).trans (List.sublist_append_left _ _)
    · exact (setVisits_sublist_selections above rest h).trans (List.sublist_append_right _ _)

end

/-- A selection set that is met in a definition is met with all that is in it. -/
theorem setVisits_sublist {s : Subject} (h : .selectionSet parent set ∈ s.visits schema) :
    (setVisits schema parent set).Sublist (s.visits schema) := by
  have hbody : ∀ (above : Option TypeDef) (body : SelectionSet),
      .selectionSet parent set ∈ setVisits schema above body →
        (setVisits schema parent set).Sublist (setVisits schema above body) := by
    intro above body h
    rcases List.mem_cons.1 h with h | h
    · cases h
      exact List.Sublist.refl _
    · exact (setVisits_sublist_selections _ _ h).cons _
  unfold Subject.visits at h ⊢
  split at h
  · simp only [operationVisits, List.mem_append, List.mem_cons, List.mem_flatMap, List.not_mem_nil, or_false,
      reduceCtorEq, false_or] at h
    rcases h with (⟨v, -, hv⟩ | h) | h
    · exact absurd hv not_mem_directiveVisits
    · exact absurd h not_mem_directiveVisits
    · exact (hbody _ _ h).trans ((List.sublist_append_right _ _).trans (List.sublist_append_left _ _))
  · simp only [fragmentVisits, List.mem_append, List.mem_cons, List.not_mem_nil, or_false, reduceCtorEq,
      false_or] at h
    rcases h with h | h
    · exact absurd h not_mem_directiveVisits
    · exact (hbody _ _ h).trans ((List.sublist_append_right _ _).trans (List.sublist_append_left _ _))

end Visits

theorem selectionSetCount_eq_sum (cx : Context) :
    selectionSetCount cx = (cx.subjects.map fun s => s.definition.body.setCount).sum := by
  have hcount : selectionSetCount cx = cx.visits.countP fun x => x.2.isSet :=
    List.countP_congr fun ⟨_, v⟩ _ => by cases v <;> exact Iff.rfl
  rw [hcount]
  unfold Context.visits
  rw [List.countP_flatMap]
  congr 1
  refine List.map_congr_left fun s _ => ?_
  rw [Function.comp_apply, List.countP_map]
  exact countP_visits s

/-- No definition has more selection sets than all together. -/
theorem setCount_le_selectionSetCount {cx : Context} {s : Subject} (hs : s ∈ cx.subjects) :
    s.definition.body.setCount ≤ selectionSetCount cx := by
  rw [selectionSetCount_eq_sum]
  exact List.single_le_sum (fun _ _ => Nat.zero_le _) _ (List.mem_map_of_mem hs)

/-! ## What is left to open -/

/-- The selection sets that can be opened below a field without following a spread. -/
def Placed.weight (p : Placed) : Nat :=
  match p.body with
  | some set => set.setCount
  | none => 0

/-- The selection sets of a fragment, if its name was not met. -/
def poolOf (seen : List String) (x : Subject × Fragment) : Nat :=
  if x.2.name.text ∈ seen then 0 else x.2.body.setCount

/-- The selection sets of the fragments whose names were not met. -/
def Context.pool (cx : Context) (seen : List String) : Nat := (cx.fragments.map (poolOf seen)).sum

section Pool

variable {cx : Context} {seen seen' : List String}

theorem poolOf_mono (h : seen ⊆ seen') (x : Subject × Fragment) : poolOf seen' x ≤ poolOf seen x := by
  unfold poolOf
  by_cases hold : x.2.name.text ∈ seen
  · rw [if_pos hold, if_pos (h hold)]
  · rw [if_neg hold]
    split
    · exact Nat.zero_le _
    · exact Nat.le_refl _

theorem Context.pool_mono (h : seen ⊆ seen') : cx.pool seen' ≤ cx.pool seen :=
  List.sum_le_sum fun x _ => poolOf_mono h x

/-- A fragment whose name is met for the first time leaves the pool. -/
theorem Context.pool_of_new (h : seen ⊆ seen') {name : String} (hold : name ∉ seen) (hnew : name ∈ seen')
    {s : Subject} {frag : Fragment} (hfound : cx.fragment? name = some (s, frag)) :
    frag.body.setCount + cx.pool seen' ≤ cx.pool seen := by
  unfold pool
  obtain ⟨before, after, hsplit⟩ := List.append_of_mem (Context.mem_of_fragment? hfound)
  have hname := Context.name_of_fragment? hfound
  have hbefore : (before.map (poolOf seen')).sum ≤ (before.map (poolOf seen)).sum :=
    List.sum_le_sum fun x _ => poolOf_mono h x
  have hafter : (after.map (poolOf seen')).sum ≤ (after.map (poolOf seen)).sum :=
    List.sum_le_sum fun x _ => poolOf_mono h x
  have hgone : poolOf seen' (s, frag) = 0 := if_pos (by rw [hname]; exact hnew)
  have hthere : poolOf seen (s, frag) = frag.body.setCount := if_neg (by rw [hname]; exact hold)
  rw [hsplit]
  simp only [List.map_append, List.map_cons, List.sum_append, List.sum_cons, hgone, hthere]
  omega

end Pool

/-! ## A step down -/

section Step

variable {cx : Context} {seen : List String}

/-- The fields of an expansion from `seen` have no more below them than `count`, or than a fragment first met. -/
structure Context.Weighs (cx : Context) (count : Nat) (seen : List String) (e : Expanded) : Prop where
  kept : seen ⊆ e.2
  fields : ∀ p ∈ e.1, p.weight ≤ count ∨ ∃ name ∈ e.2, name ∉ seen ∧ ∃ s frag,
    cx.fragment? name = some (s, frag) ∧ p.weight ≤ Selection.setCountIn frag.body.selections

theorem Context.Weighs.nil (cx : Context) (count : Nat) (seen : List String) : cx.Weighs count seen ([], seen) :=
  ⟨List.Subset.refl _, fun _ h => absurd h List.not_mem_nil⟩

theorem Context.Weighs.mono {count count' : Nat} {e : Expanded} (h : cx.Weighs count seen e) (hle : count ≤ count') :
    cx.Weighs count' seen e :=
  ⟨h.kept, fun p hp => (h.fields p hp).imp_left fun hweight => Nat.le_trans hweight hle⟩

theorem Context.Weighs.append {count count' : Nat} {e more : Expanded} (h : cx.Weighs count seen e)
    (h' : cx.Weighs count' e.2 more) : cx.Weighs (count + count') seen (e.1 ++ more.1, more.2) := by
  refine ⟨List.Subset.trans h.kept h'.kept, fun p hp => ?_⟩
  rcases List.mem_append.1 hp with hp | hp
  · rcases h.fields p hp with hweight | ⟨name, hname, hnew, hfrag⟩
    · exact .inl (by omega)
    · exact .inr ⟨name, h'.kept hname, hnew, hfrag⟩
  · rcases h'.fields p hp with hweight | ⟨name, hname, hnew, hfrag⟩
    · exact .inl (by omega)
    · exact .inr ⟨name, hname, fun hseen => hnew (h.kept hseen), hfrag⟩

section Follow

variable {follow : Spread → List String → Expanded}

mutual

theorem weighs_expandSelection (hf : ∀ spread seen, cx.Weighs 0 seen (follow spread seen)) (s : Subject)
    (parent : Option TypeDef) : ∀ (selection : Selection) (seen : List String),
    cx.Weighs selection.setCount seen (expandSelection cx.schema follow s parent selection seen)
  | .field f, seen => by
    refine ⟨List.Subset.refl _, fun p hp => .inl ?_⟩
    cases List.mem_singleton.1 hp
    exact Nat.zero_le _
  | .group f selections span, seen => by
    refine ⟨List.Subset.refl _, fun p hp => .inl ?_⟩
    cases List.mem_singleton.1 hp
    exact Nat.le_refl _
  | .spread spread, seen => hf spread seen
  | .inline i selections span, seen =>
    (weighs_expandSelections hf s (inlineType? cx.schema parent i) selections seen).mono (Nat.le_add_left _ _)

theorem weighs_expandSelections (hf : ∀ spread seen, cx.Weighs 0 seen (follow spread seen)) (s : Subject)
    (parent : Option TypeDef) : ∀ (selections : List Selection) (seen : List String),
    cx.Weighs (Selection.setCountIn selections) seen (expandSelections cx.schema follow s parent selections seen)
  | [], seen => .nil cx _ seen
  | selection :: rest, seen =>
    (weighs_expandSelection hf s parent selection seen).append (weighs_expandSelections hf s parent rest _)

end

end Follow

theorem Context.weighs_expandSpread (cx : Context) (room : Nat) (spread : Spread) (seen : List String) :
    cx.Weighs 0 seen (cx.expandSpread room spread seen) := by
  induction room generalizing spread seen with
  | zero => exact .nil cx 0 seen
  | succ room ih =>
    rw [expandSpread]
    split
    · exact .nil cx 0 seen
    · rename_i hnew
      cases hfound : cx.fragment? spread.name.text with
      | none => exact ⟨List.subset_cons_self _ _, fun _ h => absurd h List.not_mem_nil⟩
      | some found =>
        obtain ⟨inside, frag⟩ := found
        have hbody := weighs_expandSelections ih inside (cx.type? frag.condition.text) frag.body.selections
          (spread.name.text :: seen)
        refine ⟨List.Subset.trans (List.subset_cons_self _ _) hbody.kept, fun p hp => .inr ?_⟩
        rcases hbody.fields p hp with hweight | ⟨name, hname, hnot, hfrag⟩
        · exact ⟨_, hbody.kept List.mem_cons_self, hnew, inside, frag, hfound, hweight⟩
        · exact ⟨name, hname, fun hseen => hnot (List.mem_cons_of_mem _ hseen), hfrag⟩

theorem Context.weighs_expand (cx : Context) (s : Subject) (parent : Option TypeDef) (set : SelectionSet)
    (seen : List String) : cx.Weighs (Selection.setCountIn set.selections) seen (cx.expand s parent set seen) :=
  weighs_expandSelections (cx.weighs_expandSpread _) s parent set.selections seen

/-- Below a field less is left to open than at it, whatever else is met on the way. -/
theorem Context.weight_expandBelow_lt {p inner : Placed} {set : SelectionSet} (hset : p.body = some set)
    (hinner : inner ∈ (expandBelow cx p set seen).1) {met : List String} (hmet : (expandBelow cx p set seen).2 ⊆ met) :
    inner.weight + cx.pool met < p.weight + cx.pool seen := by
  have hweighs : cx.Weighs (Selection.setCountIn set.selections) seen (expandBelow cx p set seen) :=
    cx.weighs_expand _ _ set seen
  have hp : p.weight = 1 + Selection.setCountIn set.selections := by
    unfold Placed.weight
    rw [hset]
    rfl
  have hsub := List.Subset.trans hweighs.kept hmet
  rcases hweighs.fields inner hinner with hweight | ⟨name, hname, hnew, s, frag, hfound, hweight⟩
  · have hpool := cx.pool_mono hsub
    omega
  · have hpool := Context.pool_of_new hsub hnew (hmet hname) hfound
    unfold SelectionSet.setCount at hpool
    omega

end Step

/-! ## Comparisons -/

/-- With more room than is left to open below one of the fields, no conflict is missed for want of room. -/
theorem conflictBetween_of_room {cx : Context} {room room' : Nat} {exclusive : Bool} {seen : List String} {a b : Placed}
    (hsome : (conflictBetween cx room exclusive seen a b).isSome = true) (hroom : a.weight + cx.pool seen < room') :
    (conflictBetween cx room' exclusive seen a b).isSome = true := by
  induction room generalizing room' exclusive seen a b with
  | zero => cases hsome
  | succ room ih =>
    obtain ⟨room', rfl⟩ : ∃ n, room' = n + 1 := ⟨room' - 1, by omega⟩
    obtain ⟨hplace, hwhy⟩ := conflictBetween_isSome_iff.1 hsome
    refine conflictBetween_isSome_iff.2 ⟨hplace, hwhy.imp_right ?_⟩
    rintro ⟨s, t, hs, ht, x, hx, hbelow⟩
    obtain ⟨group, hgroup, hxa, -, -⟩ := mem_keyedPairs.1 hx
    have hlt := cx.weight_expandBelow_lt hs (mem_grouped hgroup hxa)
      (List.subset_append_left (expandBelow cx a s seen).2 (expandBelow cx b t seen).2)
    exact ⟨s, t, hs, ht, x, hx, ih hbelow (by omega)⟩

/-- There is room enough for the fields of every selection set that is met. -/
theorem Context.weight_lt_comparisonRoom {cx : Context} {s : Subject} {parent : Option TypeDef} {set : SelectionSet}
    (hset : (s, .selectionSet parent set) ∈ cx.visits) {p : Placed} (hp : p ∈ (cx.expand s parent set []).1) :
    p.weight + cx.pool [] < comparisonRoom cx := by
  obtain ⟨hs, hv⟩ := mem_visits.1 hset
  have hpool : cx.pool [] ≤ selectionSetCount cx := by
    rw [selectionSetCount_eq_sum]
    have hfragments : cx.fragments.map (fun x => x.2.body.setCount) =
        (cx.fragments.map Prod.fst).map fun s => s.definition.body.setCount := by
      rw [List.map_map]
      refine List.map_congr_left fun x hx => ?_
      rw [Function.comp_apply, Definition.body_of_fragment? (mem_fragments.1 hx).2]
    have hsub : (cx.fragments.map Prod.fst).Sublist cx.subjects := by
      rw [map_fst_fragments]
      exact List.filter_sublist
    have hsame : cx.fragments.map (poolOf []) = cx.fragments.map fun x => x.2.body.setCount :=
      List.map_congr_left fun x _ => if_neg List.not_mem_nil
    unfold pool
    rw [hsame, hfragments]
    exact (hsub.map _).sum_le_sum fun _ _ => Nat.zero_le _
  have hweight : p.weight ≤ selectionSetCount cx := by
    rcases (cx.weighs_expand s parent set []).fields p hp with hweight | ⟨name, -, -, inside, frag, hfound, hweight⟩
    · have hcount := (setVisits_sublist hv).countP_le (p := Visit.isSet)
      rw [countP_setVisits, countP_visits] at hcount
      have hle := setCount_le_selectionSetCount hs
      unfold SelectionSet.setCount at hcount hle
      omega
    · obtain ⟨hinside, hfrag⟩ := mem_fragments.1 (mem_of_fragment? hfound)
      have hle := setCount_le_selectionSetCount hinside
      rw [Definition.body_of_fragment? hfrag] at hle
      unfold SelectionSet.setCount at hle
      omega
  unfold comparisonRoom
  omega

end Rules

end QueryBatch
