import QueryBatch.Proofs.Rules.Room
import QueryBatch.Proofs.Rules.Subjectwise

/-!
# Contexts with the same fragments

What is said about a definition depends on it and on the fragments at hand. So it is the same in all contexts that have
the same fragments, wherever they stand there.

* `Context.Alike`: the fragments of two contexts are the same, each up to a recast.
* `Context.Alike.conflictBetween`: the same fields conflict.
* `Context.Alike.exists_conflict`: the same conflicts are met in a definition.
-/

namespace QueryBatch.Rules

/-- The recast that keeps the owners of definitions and the spans of fields. -/
def Recast.still : Recast := ⟨id, fun _ => id⟩

/-- A recast takes no two definitions and no two fields to one place. -/
structure Recast.Faithful (r : Recast) : Prop where
  owner : Function.Injective r.owner
  span : ∀ owner, Function.Injective (r.span owner)

theorem Recast.faithful_still : Recast.still.Faithful := ⟨fun _ _ h => h, fun _ _ _ h => h⟩

/-- Two contexts have the same fragments, each up to a recast. -/
structure Context.Alike (cx cx' : Context) (r r' : Recast) : Prop where
  recast_eq : cx.recast r = cx'.recast r'

section Alike

variable {cx cx' : Context} {r r' : Recast}

theorem Context.Alike.symm (h : cx.Alike cx' r r') : cx'.Alike cx r' r := ⟨h.recast_eq.symm⟩

theorem Context.Alike.schema_eq (h : cx.Alike cx' r r') : cx.schema = cx'.schema :=
  (congrArg Context.schema h.recast_eq : (cx.recast r).schema = (cx'.recast r').schema)

theorem Context.Alike.map_fragments (h : cx.Alike cx' r r') :
    cx.fragments.map r.fragment = cx'.fragments.map r'.fragment := by
  rw [← Context.fragments_recast, ← Context.fragments_recast, h.recast_eq]

theorem Context.map_fragments_recast (r : Recast) (cx : Context) :
    (cx.fragments.map fun x => x.1.recast r) =
      (cx.subjects.map (Subject.recast r)).filter fun s => s.definition.fragment?.isSome := by
  have hkind : (fun s : Subject => s.definition.fragment?.isSome) ∘ Subject.recast r =
      fun s => s.definition.fragment?.isSome := by
    funext s
    rw [Function.comp_apply, Subject.recast, Definition.fragment?_respanned, Option.isSome_map]
  rw [List.filter_map, hkind, ← Context.map_fst_fragments, List.map_map]
  rfl

/-- Contexts are alike if they have the same fragments in the same order. -/
theorem Context.alike_of_filter (hschema : cx.schema = cx'.schema)
    (h : (cx.subjects.map (Subject.recast r)).filter (fun s => s.definition.fragment?.isSome) =
      (cx'.subjects.map (Subject.recast r')).filter fun s => s.definition.fragment?.isSome) :
    cx.Alike cx' r r' := by
  refine ⟨?_⟩
  unfold Context.recast
  rw [map_fragments_recast, map_fragments_recast, h, hschema]

/-- A fragment has its name wherever it stands. -/
theorem Subject.fragmentName_recast (r : Recast) (s : Subject) :
    ((s.recast r).definition.fragment?.map fun frag => frag.name.text) =
      s.definition.fragment?.map fun frag => frag.name.text := by
  unfold recast
  rw [Definition.fragment?_respanned, Option.map_map]
  rfl

end Alike

/-! ### Contexts of lists -/

section Lists

variable {α : Type} {owner : Nat → Owner} {definition : α → Definition} {as bs : List (Nat × α)} {n m : Nat}
  {r : Recast}

/-- The same definitions under other numbers, which a recast makes up for. -/
theorem map_zipIdx_recast (h : as.map Prod.snd = bs.map Prod.snd) (hspan : ∀ o, r.span o = id)
    (howner : ∀ i < as.length, r.owner (owner (n + i)) = owner (m + i)) :
    ((as.zipIdx n).map fun x => Subject.recast r ⟨owner x.2, x.1.1, definition x.1.2⟩) =
      (bs.zipIdx m).map fun x => Subject.recast .still ⟨owner x.2, x.1.1, definition x.1.2⟩ := by
  refine List.ext_getElem? fun i => ?_
  have hi := congrArg (fun l => l[i]?) h
  simp only [List.getElem?_map] at hi
  simp only [List.getElem?_map, List.getElem?_zipIdx, Option.map_map]
  cases ha : as[i]? with
  | none =>
    have hb : bs[i]? = none := by
      rw [ha, Option.map_none] at hi
      exact Option.map_eq_none_iff.1 hi.symm
    rw [hb]
    rfl
  | some x =>
    rw [ha, Option.map_some] at hi
    obtain ⟨y, hb, hsame⟩ := Option.map_eq_some_iff.1 hi.symm
    have howner' := howner i (List.getElem?_eq_some_iff.1 ha).1
    rw [hb]
    simp only [Option.map_some, Function.comp_apply, Subject.recast, hspan, howner', hsame]
    rfl

/-- Contexts of the same fragments are alike, whatever operations they have. -/
theorem Context.alike_of {schema : Schema} {ops ops' : List (Nat × Operation)} {frags frags' : List (Nat × Fragment)}
    (h : frags.map Prod.snd = frags'.map Prod.snd) (hspan : ∀ o, r.span o = id)
    (howner : ∀ i, r.owner (.fragment i) = .fragment i) :
    (of schema ops frags).Alike (of schema ops' frags') r .still := by
  refine ⟨?_⟩
  unfold recast
  rw [fragments_of, fragments_of, List.map_map, List.map_map]
  exact congrArg (Context.mk schema) (@map_zipIdx_recast _ .fragment .fragment frags frags' 0 0 r h hspan fun i _ => by
    rw [Nat.zero_add, howner])

end Lists

/-! ## Fields that are recast alike -/

section Fields

/-- The place of a recast field depends on its place alone. -/
theorem Placed.place_recast (r : Recast) (p : Placed) :
    (p.recast r).place = (r.owner p.place.1, r.span p.place.1 p.place.2) := rfl

/-- Fields that stand in one place in a faithful recast stand in one place. -/
theorem Placed.place_eq_of_recast {r : Recast} (hr : r.Faithful) {p q : Placed}
    (h : (p.recast r).place = (q.recast r).place) : p.place = q.place := by
  rw [place_recast, place_recast, Prod.mk.injEq] at h
  obtain ⟨howner, hspan⟩ := h
  have hsame : p.place.1 = q.place.1 := hr.owner howner
  rw [hsame] at hspan
  exact Prod.ext hsame (hr.span _ hspan)

theorem sameArguments_unspanned (as bs : List Argument) :
    sameArguments (as.map Argument.unspanned) (bs.map Argument.unspanned) = sameArguments as bs := by
  unfold sameArguments
  rw [List.length_map, List.length_map, List.all_map]
  congr 1
  refine congrArg as.all (funext fun x => ?_)
  rw [Function.comp_apply, List.any_map]
  refine congrArg bs.any (funext fun y => ?_)
  simp only [Function.comp_apply, Argument.unspanned, Value.text_unspanned, Name.unspanned]

/-- Whether two fields conflict by themselves does not depend on where they stand. -/
theorem headConflict_recast (schema : Schema) (exclusive : Bool) (r : Recast) (a b : Placed) :
    headConflict schema exclusive (a.recast r) (b.recast r) = headConflict schema exclusive a b := by
  have harguments : sameArguments (a.recast r).field.arguments (b.recast r).field.arguments =
      sameArguments a.field.arguments b.field.arguments := sameArguments_unspanned _ _
  unfold headConflict
  rw [harguments]
  rfl

/-- A field has a selection set where it came from if it has one in its new place. -/
theorem Placed.exists_body {r r' : Recast} {a a' : Placed} (h : a.recast r = a'.recast r') {set' : SelectionSet}
    (hset' : a'.body = some set') : ∃ set, a.body = some set ∧
      set.respanned (r.span a.subject.owner) = set'.respanned (r'.span a'.subject.owner) := by
  have hbody : (a.recast r).body = (a'.recast r').body := congrArg Placed.body h
  unfold Placed.recast at hbody
  rw [hset', Option.map_some] at hbody
  exact Option.map_eq_some_iff.1 hbody

/-- Fields that are recast alike make pairs that are recast alike. -/
theorem exists_keyedPair {r r' : Recast} {left right left' right' : List Placed} {x' : String × Placed × Placed}
    (hleft : left.map (Placed.recast r) = left'.map (Placed.recast r'))
    (hright : right.map (Placed.recast r) = right'.map (Placed.recast r')) (hx' : x' ∈ keyedPairs left' right') :
    ∃ x ∈ keyedPairs left right, x.2.1.recast r = x'.2.1.recast r' ∧ x.2.2.recast r = x'.2.2.recast r' := by
  have hmem := List.mem_map_of_mem (f := Prod.map id (Prod.map (Placed.recast r') (Placed.recast r'))) hx'
  rw [← keyedPairs_map (Placed.responseKey_recast r'), ← hleft, ← hright,
    keyedPairs_map (Placed.responseKey_recast r)] at hmem
  obtain ⟨x, hx, hsame⟩ := List.mem_map.1 hmem
  exact ⟨x, hx, congrArg (fun x => x.2.1) hsame, congrArg (fun x => x.2.2) hsame⟩

/-- So do the members of one group. -/
theorem exists_groupedPair {r r' : Recast} {fields fields' : List Placed}
    (h : fields.map (Placed.recast r) = fields'.map (Placed.recast r')) {key : String} {group' : List Placed}
    (hgroup' : (key, group') ∈ grouped fields') {a' b' : Placed} (hab' : (a', b') ∈ orderedPairs group') :
    ∃ group, (key, group) ∈ grouped fields ∧ ∃ a b, (a, b) ∈ orderedPairs group ∧ a.recast r = a'.recast r' ∧
      b.recast r = b'.recast r' := by
  have hmem := mem_grouped_map (Placed.responseKey_recast r') hgroup'
  rw [← h, grouped_map (Placed.responseKey_recast r)] at hmem
  obtain ⟨⟨key, group⟩, hgroup, he⟩ := List.mem_map.1 hmem
  obtain ⟨rfl, hsame⟩ := Prod.mk.inj he
  have hpair := List.mem_map_of_mem (f := Prod.map (Placed.recast r') (Placed.recast r')) hab'
  rw [← orderedPairs_map, ← hsame, orderedPairs_map] at hpair
  obtain ⟨⟨a, b⟩, hab, he⟩ := List.mem_map.1 hpair
  exact ⟨group, hgroup, a, b, hab, congrArg Prod.fst he, congrArg Prod.snd he⟩

end Fields

/-! ## Conflicts -/

section Conflicts

variable {cx cx' : Context} {r r' : Recast}

theorem Context.Alike.expand (h : cx.Alike cx' r r') {s s' : Subject} (hs : s.recast r = s'.recast r')
    (parent : Option TypeDef) {set set' : SelectionSet}
    (hset : set.respanned (r.span s.owner) = set'.respanned (r'.span s'.owner)) (seen : List String) :
    (cx.expand s parent set seen).recast r = (cx'.expand s' parent set' seen).recast r' := by
  rw [← Context.expand_recast, ← Context.expand_recast, h.recast_eq, hs, hset]

theorem Context.Alike.expandBelow (h : cx.Alike cx' r r') {a a' : Placed} (ha : a.recast r = a'.recast r')
    {set set' : SelectionSet}
    (hset : set.respanned (r.span a.subject.owner) = set'.respanned (r'.span a'.subject.owner)) (seen : List String) :
    (Rules.expandBelow cx a set seen).recast r = (Rules.expandBelow cx' a' set' seen).recast r' := by
  have hsubject : a.subject.recast r = a'.subject.recast r' := congrArg Placed.subject ha
  have hdeclared : (a.recast r).declared = (a'.recast r').declared := congrArg Placed.declared ha
  unfold Rules.expandBelow
  rw [show a.declared = a'.declared from hdeclared, ← h.schema_eq]
  exact h.expand hsubject _ hset seen

/-- Fields that conflict in one context conflict in the other. -/
theorem Context.Alike.conflictBetween (h : cx.Alike cx' r r') (hr' : r'.Faithful) {room : Nat} {exclusive : Bool}
    {seen : List String} {a b a' b' : Placed} (ha : a.recast r = a'.recast r') (hb : b.recast r = b'.recast r')
    (hsome : (Rules.conflictBetween cx' room exclusive seen a' b').isSome = true) :
    (Rules.conflictBetween cx room exclusive seen a b).isSome = true := by
  induction room generalizing exclusive seen a b a' b' with
  | zero => cases hsome
  | succ room ih =>
    obtain ⟨hplace, hwhy⟩ := conflictBetween_isSome_iff.1 hsome
    have hparents : a.parent = a'.parent ∧ b.parent = b'.parent :=
      ⟨(congrArg Placed.parent ha : (a.recast r).parent = _), (congrArg Placed.parent hb : (b.recast r).parent = _)⟩
    refine conflictBetween_isSome_iff.2 ⟨fun he => hplace (Placed.place_eq_of_recast hr' ?_), ?_⟩
    · rw [← ha, ← hb, Placed.place_recast, Placed.place_recast, he]
    rw [hparents.1, hparents.2]
    rcases hwhy with hhead | ⟨s', t', hs', ht', x', hx', hbelow⟩
    · left
      rwa [h.schema_eq, ← headConflict_recast cx'.schema _ r, ha, hb, headConflict_recast]
    · right
      obtain ⟨s, hs, hsame⟩ := Placed.exists_body ha hs'
      obtain ⟨t, ht, htame⟩ := Placed.exists_body hb ht'
      have hleft := h.expandBelow ha hsame seen
      have hright := h.expandBelow hb htame seen
      obtain ⟨x, hx, hfirst, hsecond⟩ := exists_keyedPair (congrArg Prod.fst hleft) (congrArg Prod.fst hright) hx'
      have hmet : (Rules.expandBelow cx a s seen).2 = (Rules.expandBelow cx' a' s' seen).2 ∧
          (Rules.expandBelow cx b t seen).2 = (Rules.expandBelow cx' b' t' seen).2 :=
        ⟨(congrArg Prod.snd hleft : ((Rules.expandBelow cx a s seen).recast r).2 = _),
          (congrArg Prod.snd hright : ((Rules.expandBelow cx b t seen).recast r).2 = _)⟩
      refine ⟨s, t, hs, ht, x, hx, ?_⟩
      rw [hmet.1, hmet.2]
      exact ih hfirst hsecond hbelow

/-- A selection set that is met in a definition is met wherever the definition stands. -/
theorem exists_set_of_recast {schema : Schema} {s s' : Subject} (hs : s.recast r = s'.recast r')
    {parent : Option TypeDef} {set' : SelectionSet} (hv' : .selectionSet parent set' ∈ s'.visits schema) :
    ∃ set, .selectionSet parent set ∈ s.visits schema ∧
      set.respanned (r.span s.owner) = set'.respanned (r'.span s'.owner) := by
  have hmem := List.mem_map_of_mem (f := Visit.respanned (r'.span s'.owner)) hv'
  rw [← Subject.visits_recast, ← hs, Subject.visits_recast] at hmem
  obtain ⟨v, hv, hsame⟩ := List.mem_map.1 hmem
  cases v with
  | selectionSet parent' set =>
    simp only [Visit.respanned, Visit.selectionSet.injEq] at hsame
    obtain ⟨rfl, hset⟩ := hsame
    exact ⟨set, hv, hset⟩
  | _ => simp [Visit.respanned] at hsame

/-- A conflict that is met in a definition in one context is met in it in the other. -/
theorem Context.Alike.exists_conflict (h : cx.Alike cx' r r') (hr' : r'.Faithful) {s s' : Subject}
    (hs : s ∈ cx.subjects) (hsame : s.recast r = s'.recast r') {c' : Conflict} (hc' : (s', c') ∈ conflicts cx') :
    ∃ c, (s, c) ∈ conflicts cx ∧ c.first.recast r = c'.first.recast r' ∧ c.second.recast r = c'.second.recast r' := by
  obtain ⟨parent, set', group', hv', hgroup', hab', hreason⟩ := mem_conflicts.1 hc'
  obtain ⟨set, hv, hset⟩ := exists_set_of_recast hsame (mem_visits.1 hv').2
  rw [← h.schema_eq] at hv
  have hmet := mem_visits.2 ⟨hs, hv⟩
  have hfields := congrArg Prod.fst (h.expand hsame parent hset [])
  obtain ⟨group, hgroup, a, b, hab, ha, hb⟩ := exists_groupedPair hfields hgroup' hab'
  have hsome : (Rules.conflictBetween cx (comparisonRoom cx') false [] a b).isSome = true :=
    h.conflictBetween hr' ha hb (by rw [hreason]; rfl)
  -- the other context may have another number of selection sets, and so another room
  have hroom := Context.weight_lt_comparisonRoom hmet (mem_grouped hgroup (mem_orderedPairs hab).1)
  obtain ⟨reason, hreason⟩ := Option.isSome_iff_exists.1 (conflictBetween_of_room hsome hroom)
  exact ⟨⟨c'.key, reason, a, b⟩, mem_conflicts.2 ⟨parent, set, group, hmet, hgroup, hab, hreason⟩, ha, hb⟩

end Conflicts

end QueryBatch.Rules
