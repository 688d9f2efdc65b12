import QueryBatch.Proofs.Batch.Validation
import QueryBatch.Proofs.Rules.Room
import QueryBatch.Proofs.Rules.Standing

/-!
# Operations whose fields merge

What the rule on fields that share a response key guarantees for the full expansion of an operation.

* `Mergeable`: two fields ask for the same, or for values of one shape if no object is asked for both.
* `Context.Beside`: two fields that the full expansion places at one response path.
* `Context.SpreadOnce`: no fragment is spread at a response path and again at one that goes on from it. For on the way
  down from two fields the rule follows a spread of one name only.
* `Context.Beside.mergeable`: then all fields of an operation that stand at one response path merge, if the rules spare
  the operation and the fragments it reaches.
* `mergeable_of_accepted`: the same for what a validation rejects.
-/

namespace QueryBatch.Rules

/-! ## Fields that merge -/

/-- The values of two types can stand in one place. -/
inductive Compatible (schema : Schema) : TypeRef → TypeRef → Prop
  | same (name : String) : Compatible schema (.named name) (.named name)
  | composite {a b : String} : (schema.type? a).any TypeDef.isLeaf = false →
      (schema.type? b).any TypeDef.isLeaf = false → Compatible schema (.named a) (.named b)
  | list {a b : TypeRef} : Compatible schema a b → Compatible schema (.list a) (.list b)
  | nonNull {a b : TypeRef} : Compatible schema a b → Compatible schema (.nonNull a) (.nonNull b)

theorem Compatible.refl (schema : Schema) : ∀ type : TypeRef, Compatible schema type type
  | .named name => .same name
  | .list a => .list (Compatible.refl schema a)
  | .nonNull a => .nonNull (Compatible.refl schema a)

theorem Compatible.symm {schema : Schema} {a b : TypeRef} (h : Compatible schema a b) : Compatible schema b a := by
  induction h with
  | same name => exact .same name
  | composite ha hb => exact .composite hb ha
  | list _ ih => exact .list ih
  | nonNull _ ih => exact .nonNull ih

theorem compatible_of_typesConflict {schema : Schema} : ∀ {a b : TypeRef}, typesConflict schema a b = false →
    Compatible schema a b
  | .named a, .named b, h => by
    simp only [typesConflict, typesConflict.isLeaf, Bool.and_eq_false_iff, Bool.or_eq_false_iff] at h
    rcases h with ⟨ha, hb⟩ | h
    · exact .composite ha hb
    · have hsame : a = b := by simpa using h
      rw [hsame]
      exact .same b
  | .list a, .list b, h => .list (compatible_of_typesConflict h)
  | .nonNull a, .nonNull b, h => .nonNull (compatible_of_typesConflict h)

/-- What is given to an argument: its name and the text of the value. -/
def Given (a : Argument) : String × String := (a.name.text, a.value.text)

/-- Two fields merge. If it is `exclusive` that one of them is asked, for no object has both parents, only their types
matter. -/
structure Mergeable (schema : Schema) (exclusive : Bool) (p q : Placed) : Prop where
  types : ∀ x y, p.declared = some x → q.declared = some y → Compatible schema x.type y.type
  name : exclusive = false → p.field.name.text = q.field.name.text
  arguments : exclusive = false → (p.field.arguments.map Given).Perm (q.field.arguments.map Given)

section Mergeable

variable {schema : Schema} {exclusive : Bool} {p q : Placed}

theorem Mergeable.refl (schema : Schema) (exclusive : Bool) (p : Placed) : Mergeable schema exclusive p p := by
  refine ⟨fun x y hx hy => ?_, fun _ => rfl, fun _ => .refl _⟩
  rw [hx] at hy
  cases hy
  exact .refl schema x.type

theorem Mergeable.symm (h : Mergeable schema exclusive p q) : Mergeable schema exclusive q p :=
  ⟨fun x y hx hy => (h.types y x hy hx).symm, fun he => (h.name he).symm, fun he => (h.arguments he).symm⟩

/-- Lists of arguments of different names that are the same give the same. -/
theorem perm_of_sameArguments {as bs : List Argument} (has : (as.map fun a => a.name.text).Nodup)
    (h : sameArguments as bs = true) : (as.map Given).Perm (bs.map Given) := by
  unfold sameArguments at h
  rw [Bool.and_eq_true, beq_iff_eq, List.all_eq_true] at h
  obtain ⟨hlength, hall⟩ := h
  have hnodup : (as.map Given).Nodup := by
    refine List.Nodup.of_map Prod.fst ?_
    rwa [List.map_map]
  have hsub : as.map Given ⊆ bs.map Given := by
    intro g hg
    obtain ⟨a, ha, rfl⟩ := List.mem_map.1 hg
    obtain ⟨b, hb, hsame⟩ := List.any_eq_true.1 (hall a ha)
    rw [Bool.and_eq_true, beq_iff_eq, beq_iff_eq] at hsame
    exact List.mem_map.2 ⟨b, hb, Prod.ext hsame.1 hsame.2⟩
  refine (List.subperm_of_subset hnodup hsub).perm_of_length_le ?_
  rw [List.length_map, List.length_map, hlength]

/-- Fields that do not conflict by themselves merge. -/
theorem mergeable_of_headConflict (hnames : (p.field.arguments.map fun a => a.name.text).Nodup)
    (h : headConflict schema exclusive p q = none) : Mergeable schema exclusive p q := by
  unfold headConflict at h
  dsimp only at h
  split at h
  · cases h
  rename_i hname
  split at h
  · cases h
  rename_i harguments
  refine ⟨fun x y hx hy => ?_, fun he => ?_, fun he => ?_⟩
  · rw [hx, hy] at h
    dsimp only at h
    split at h
    · cases h
    · rename_i htypes
      exact compatible_of_typesConflict (by simpa using htypes)
  · simpa [he] using hname
  · exact perm_of_sameArguments hnames (by simpa [he] using harguments)

end Mergeable

/-! ## Response paths -/

/-- The full expansion goes through a spread of a name directly below a field. -/
def Context.MeetsBelow (cx : Context) (p : Placed) (name : String) : Prop :=
  ∃ set, p.body = some set ∧ cx.Meets (childType? cx.schema p.declared) set.selections name

section Paths

variable (cx : Context) (s : Subject) (parent : Option TypeDef) (selections : List Selection)

/-- The full expansion of selections places two fields at one response path. They are exclusive if there, or somewhere
above, their parents are different object types. -/
inductive Context.Beside : List String → Bool → Placed → Placed → Prop
  | top {p q : Placed} : cx.Places s parent selections p → cx.Places s parent selections q →
      p.responseKey = q.responseKey → Beside [p.responseKey] (exclusiveParents p.parent q.parent) p q
  | deeper {path : List String} {exclusive : Bool} {p q p' q' : Placed} : Beside path exclusive p q →
      cx.PlacesBelow p p' → cx.PlacesBelow q q' → p'.responseKey = q'.responseKey →
      Beside (path ++ [p'.responseKey]) (exclusive || exclusiveParents p'.parent q'.parent) p' q'

/-- A name is spread below a field that stands at a response path. -/
def Context.SpreadAt (path : List String) (name : String) : Prop :=
  ∃ exclusive p q, cx.Beside s parent selections path exclusive p q ∧ cx.MeetsBelow p name

/-- No name is spread below the fields of a response path and again below those of one that goes on from it. -/
def Context.SpreadOnce : Prop :=
  ∀ path more name, more ≠ [] → cx.SpreadAt s parent selections path name →
    ¬ cx.SpreadAt s parent selections (path ++ more) name

end Paths

section Beside

variable {cx : Context} {s : Subject} {parent : Option TypeDef} {selections : List Selection} {path : List String}
  {exclusive : Bool} {p q : Placed}

theorem exclusiveParents_comm (a b : Option TypeDef) : exclusiveParents a b = exclusiveParents b a := by
  cases a with
  | none => cases b <;> rfl
  | some a =>
    cases b with
    | none => rfl
    | some b =>
      show (a.kind == .object && b.kind == .object && a.name != b.name) =
        (b.kind == .object && a.kind == .object && b.name != a.name)
      rw [Bool.and_comm (a.kind == .object), bne_comm]

theorem Context.Beside.symm (h : cx.Beside s parent selections path exclusive p q) :
    cx.Beside s parent selections path exclusive q p := by
  induction h with
  | top hp hq hkey =>
    rw [exclusiveParents_comm, hkey]
    exact .top hq hp hkey.symm
  | deeper _ hp hq hkey ih =>
    rw [exclusiveParents_comm, hkey]
    exact ih.deeper hq hp hkey.symm

end Beside

/-! ## Spared definitions -/

/-- The global rules reject a definition for nothing. -/
def Context.Spared (cx : Context) (s : Subject) : Prop := ∀ rule ∈ globalRules, ∀ f ∈ rule cx, s.owner ∉ f.rejected

/-- Some definitions of a context, closed under spreads, that the global rules spare, with fields that differ in their
places. -/
structure Context.Accepts (cx : Context) (among : Subject → Prop) : Prop extends cx.Closed among where
  spared : ∀ s, among s → cx.Spared s
  owners : ∀ s t, among s → among t → s.owner = t.owner → s = t
  spans : ∀ s, among s → s.definition.fieldSpans.Nodup

section Spared

variable {cx : Context} {among : Subject → Prop} {s : Subject}

theorem Context.Spared.not_mem_conflicts (h : cx.Spared s) (c : Conflict) : (s, c) ∉ conflicts cx := by
  intro hc
  obtain ⟨f, hf, howner⟩ := rejects_overlappingFields_iff.2 ⟨s, s, ⟨c, hc, .inl rfl⟩, rfl⟩
  exact h overlappingFields (by simp [globalRules]) f hf howner

theorem Context.Spared.nodup_arguments (h : cx.Spared s) (hs : s ∈ cx.subjects) {site : ArgumentSite}
    {arguments : List Argument} (hv : .arguments site arguments ∈ s.visits cx.schema) :
    (arguments.map fun a => a.name.text).Nodup := by
  refine repeats_eq_nil_iff.1 (List.eq_nil_iff_forall_not_mem.2 fun x hx => ?_)
  have hfound : ∃ d, s.rejectedFor d ∈ uniqueArguments cx :=
    ⟨_, List.mem_flatMap.2 ⟨(s, .arguments site arguments), mem_visits.2 ⟨hs, hv⟩, List.mem_map.2 ⟨x, hx, rfl⟩⟩⟩
  obtain ⟨d, hd⟩ := hfound
  exact h uniqueArguments (by simp [globalRules]) _ hd (List.mem_singleton_self _)

end Spared

/-! ## Comparisons -/

/-- Two fields of a response path that were compared and did not conflict. The spreads that the comparison left out were
met further up, and it had room enough for the way down. -/
structure Context.Compared (cx : Context) (s : Subject) (parent : Option TypeDef) (selections : List Selection)
    (path : List String) (exclusive : Bool) (p q : Placed) (room : Nat) (above : Bool) (seen : List String) : Prop where
  differ : p.place ≠ q.place
  merge : conflictBetween cx room above seen p q = none
  exclusive : (above || exclusiveParents p.parent q.parent) = true → exclusive = true
  room : p.weight + cx.pool seen < room
  seen : ∀ name ∈ seen, ∃ path' more, path = path' ++ more ∧ more ≠ [] ∧ cx.SpreadAt s parent selections path' name

section Compared

variable {cx : Context} {among : Subject → Prop} {s : Subject} {parent : Option TypeDef} {selections : List Selection}
  {path : List String} {exclusive : Bool} {p q p' q' : Placed} {room : Nat} {above : Bool} {seen : List String}

/-- There is room for a comparison that has been reached. -/
theorem Context.Compared.exists_room (h : cx.Compared s parent selections path exclusive p q room above seen) :
    ∃ n, room = n + 1 := by
  have hroom := h.room
  exact ⟨room - 1, by omega⟩

/-- Fields that were compared merge. -/
theorem Context.Compared.mergeable (haccepts : cx.Accepts among) (hp : cx.Stands among p)
    (h : cx.Compared s parent selections path exclusive p q room above seen) :
    Mergeable cx.schema exclusive p q := by
  obtain ⟨room, rfl⟩ := h.exists_room
  have hhead : headConflict cx.schema (above || exclusiveParents p.parent q.parent) p q = none := by
    refine Option.not_isSome_iff_eq_none.1 fun hsome => ?_
    have hconflict : (conflictBetween cx (room + 1) above seen p q).isSome = true :=
      conflictBetween_isSome_iff.2 ⟨h.differ, .inl hsome⟩
    rw [h.merge] at hconflict
    cases hconflict
  have hvisit : .arguments (.field p.parent p.field (fieldDef? cx.schema p.parent p.field) p.field.span)
      p.field.arguments ∈ p.subject.visits cx.schema :=
    hp.visits (List.mem_append_left _ (List.mem_cons_of_mem _ List.mem_cons_self))
  have hnames := (haccepts.spared _ hp.member).nodup_arguments (haccepts.subjects _ hp.member) hvisit
  have hmerge := mergeable_of_headConflict hnames hhead
  have hfalse : exclusive = false → (above || exclusiveParents p.parent q.parent) = false := by
    intro he
    refine Bool.eq_false_iff.2 fun htrue => ?_
    rw [h.exclusive htrue] at he
    cases he
  exact ⟨hmerge.types, fun he => hmerge.name (hfalse he), fun he => hmerge.arguments (hfalse he)⟩

/-- Fields below compared ones were compared, if the spreads above do not come again. -/
theorem Context.Compared.step (honce : cx.SpreadOnce s parent selections)
    (hbeside : cx.Beside s parent selections path exclusive p q)
    (h : cx.Compared s parent selections path exclusive p q room above seen) (hp' : cx.PlacesBelow p p')
    (hq' : cx.PlacesBelow q q') (hkey : p'.responseKey = q'.responseKey) (hdiffer : p'.place ≠ q'.place) :
    ∃ room above seen, cx.Compared s parent selections (path ++ [p'.responseKey])
      (exclusive || exclusiveParents p'.parent q'.parent) p' q' room above seen := by
  obtain ⟨room, rfl⟩ := h.exists_room
  obtain ⟨a, ha, hpa⟩ := hp'
  obtain ⟨b, hb, hqb⟩ := hq'
  have hleft : ∀ name, cx.Meets (childType? cx.schema p.declared) a.selections name →
      cx.SpreadAt s parent selections path name := fun name hmeets => ⟨_, p, q, hbeside, a, ha, hmeets⟩
  have hright : ∀ name, cx.Meets (childType? cx.schema q.declared) b.selections name →
      cx.SpreadAt s parent selections path name := fun name hmeets => ⟨_, q, p, hbeside.symm, b, hb, hmeets⟩
  have hnew : ∀ name, cx.SpreadAt s parent selections path name → name ∉ seen := by
    intro name hat hseen
    obtain ⟨path', more, rfl, hmore, hat'⟩ := h.seen name hseen
    exact honce path' more name hmore hat' hat
  have hpe : p' ∈ (expandBelow cx p a seen).1 := hpa.mem_expand fun name hmeets => hnew name (hleft name hmeets)
  have hqe : q' ∈ (expandBelow cx q b seen).1 := hqb.mem_expand fun name hmeets => hnew name (hright name hmeets)
  have hpair : (p'.responseKey, p', q') ∈ keyedPairs (expandBelow cx p a seen).1 (expandBelow cx q b seen).1 := by
    obtain ⟨group, hgroup, hmem, -⟩ := exists_mem_grouped hpe hpe rfl
    exact mem_keyedPairs.2 ⟨group, hgroup, hmem, hqe, hkey.symm⟩
  refine ⟨room, above || exclusiveParents p.parent q.parent,
    (expandBelow cx p a seen).2 ++ (expandBelow cx q b seen).2, hdiffer, ?_, ?_, ?_, ?_⟩
  · refine Option.not_isSome_iff_eq_none.1 fun hsome => ?_
    have hconflict := conflictBetween_isSome_iff.2 ⟨h.differ, .inr ⟨a, b, ha, hb, _, hpair, hsome⟩⟩
    rw [h.merge] at hconflict
    cases hconflict
  · intro he
    rcases Bool.or_eq_true_iff.1 he with he | he
    · rw [h.exclusive he, Bool.true_or]
    · rw [he, Bool.or_true]
  · have hroom := h.room
    have hless := cx.weight_expandBelow_lt ha hpe
      (List.subset_append_left (expandBelow cx p a seen).2 (expandBelow cx q b seen).2)
    omega
  · have hgone : ∀ name, name ∈ seen ∨ cx.SpreadAt s parent selections path name → ∃ path' more,
        path ++ [p'.responseKey] = path' ++ more ∧ more ≠ [] ∧ cx.SpreadAt s parent selections path' name := by
      rintro name (hname | hat)
      · obtain ⟨path', more, rfl, -, hat⟩ := h.seen name hname
        exact ⟨path', more ++ [p'.responseKey], by rw [List.append_assoc], by simp, hat⟩
      · exact ⟨path, [p'.responseKey], rfl, by simp, hat⟩
    intro name hname
    refine hgone name ?_
    rcases List.mem_append.1 hname with hname | hname
    · exact ((cx.stays_expand _ _ a seen).met name hname).imp_right (hleft name)
    · exact ((cx.stays_expand _ _ b seen).met name hname).imp_right (hright name)

/-- Different fields of one selection set with one response key were compared, in the order of the text. -/
theorem Context.Accepts.compare (haccepts : cx.Accepts among) {t : Subject} (ht : among t) {under : Option TypeDef}
    {set : SelectionSet} (hset : .selectionSet under set ∈ t.visits cx.schema) (hp : cx.Places t under set.selections p)
    (hq : cx.Places t under set.selections q) (hkey : p.responseKey = q.responseKey) (hdiffer : p.place ≠ q.place) :
    conflictBetween cx (comparisonRoom cx) false [] p q = none ∨
      conflictBetween cx (comparisonRoom cx) false [] q p = none := by
  obtain ⟨group, hgroup, hpg, hqg⟩ :=
    exists_mem_grouped (Context.mem_expand_iff.2 hp) (Context.mem_expand_iff.2 hq) hkey
  have hv := mem_visits.2 ⟨haccepts.subjects t ht, hset⟩
  have hnone : ∀ a b, (a, b) ∈ orderedPairs group →
      conflictBetween cx (comparisonRoom cx) false [] a b = none := by
    intro a b hab
    refine Option.eq_none_iff_forall_not_mem.2 fun reason hreason => ?_
    exact (haccepts.spared t ht).not_mem_conflicts ⟨p.responseKey, reason, a, b⟩
      (mem_conflicts.2 ⟨under, set, group, hv, hgroup, hab, hreason⟩)
  have hne : p ≠ q := fun he => hdiffer (by rw [he])
  exact (mem_orderedPairs_or hpg hqg hne).imp (hnone p q) (hnone q p)

theorem Context.Compared.start (hdiffer : p.place ≠ q.place)
    (hmerge : conflictBetween cx (comparisonRoom cx) false [] p q = none)
    (hexclusive : exclusiveParents p.parent q.parent = true → exclusive = true)
    (hroom : p.weight + cx.pool [] < comparisonRoom cx) :
    cx.Compared s parent selections path exclusive p q (comparisonRoom cx) false [] := by
  refine ⟨hdiffer, hmerge, ?_, hroom, fun _ h => absurd h List.not_mem_nil⟩
  rwa [Bool.false_or]

/-- Two fields of a response path are one field, or they were compared, in one order or the other. -/
def Context.Settled (cx : Context) (s : Subject) (parent : Option TypeDef) (selections : List Selection)
    (path : List String) (exclusive : Bool) (p q : Placed) : Prop :=
  p = q ∨ (∃ room above seen, cx.Compared s parent selections path exclusive p q room above seen) ∨
    ∃ room above seen, cx.Compared s parent selections path exclusive q p room above seen

/-- Two fields of one selection set are settled. -/
theorem Context.Accepts.settled (haccepts : cx.Accepts among) {t : Subject} (ht : among t) {under : Option TypeDef}
    {set : SelectionSet} (hset : .selectionSet under set ∈ t.visits cx.schema) (hp : cx.Places t under set.selections p)
    (hq : cx.Places t under set.selections q) (hps : cx.Stands among p) (hqs : cx.Stands among q)
    (hkey : p.responseKey = q.responseKey) (hexclusive : exclusiveParents p.parent q.parent = true → exclusive = true) :
    cx.Settled s parent selections path exclusive p q := by
  by_cases hplace : p.place = q.place
  · exact .inl (hps.eq_of_place hqs haccepts.spans haccepts.owners hplace)
  · have hv := mem_visits.2 ⟨haccepts.subjects t ht, hset⟩
    refine .inr ((haccepts.compare ht hset hp hq hkey hplace).imp (fun h => ?_) fun h => ?_)
    · have hroom := Context.weight_lt_comparisonRoom hv (Context.mem_expand_iff.2 hp)
      exact ⟨_, _, _, .start hplace h hexclusive hroom⟩
    · have hroom := Context.weight_lt_comparisonRoom hv (Context.mem_expand_iff.2 hq)
      refine ⟨_, _, _, .start (Ne.symm hplace) h ?_ hroom⟩
      rwa [exclusiveParents_comm]

/-- All fields that stand at one response path of an accepted selection set are settled: they are one field, or they
are compared where the ways to them part. -/
theorem Context.Beside.settled (haccepts : cx.Accepts among) {set : SelectionSet} (hs : among s)
    (hset : .selectionSet parent set ∈ s.visits cx.schema) (hwalks : cx.Walks among s parent set.selections)
    (honce : cx.SpreadOnce s parent set.selections) (h : cx.Beside s parent set.selections path exclusive p q) :
    cx.Stands among p ∧ cx.Stands among q ∧ cx.Settled s parent set.selections path exclusive p q := by
  induction h with
  | @top p q hp hq hkey =>
    have hps := hp.stands haccepts.toClosed hwalks
    have hqs := hq.stands haccepts.toClosed hwalks
    exact ⟨hps, hqs, haccepts.settled hs hset hp hq hps hqs hkey id⟩
  | @deeper path exclusive p q p' q' hbeside hp' hq' hkey ih =>
    obtain ⟨hp, hq, hsettled⟩ := ih
    have hps := hp'.stands haccepts.toClosed hp
    have hqs := hq'.stands haccepts.toClosed hq
    refine ⟨hps, hqs, ?_⟩
    by_cases hplace : p'.place = q'.place
    · exact .inl (hps.eq_of_place hqs haccepts.spans haccepts.owners hplace)
    · rcases hsettled with rfl | ⟨_, _, _, h⟩ | ⟨_, _, _, h⟩
      · obtain ⟨inner, hinner, hp'⟩ := hp'
        obtain ⟨inner', hinner', hq'⟩ := hq'
        rw [hinner] at hinner'
        cases hinner'
        refine haccepts.settled hp.member (hp.below inner hinner).1 hp' hq' hps hqs hkey fun he => ?_
        rw [he, Bool.or_true]
      · exact .inr (.inl (h.step honce hbeside hp' hq' hkey hplace))
      · have hstep := h.step honce hbeside.symm hq' hp' hkey.symm (Ne.symm hplace)
        rw [exclusiveParents_comm, ← hkey] at hstep
        exact .inr (.inr hstep)

/-- All fields that stand at one response path of an accepted selection set merge. -/
theorem Context.Beside.mergeable (haccepts : cx.Accepts among) {set : SelectionSet} (hs : among s)
    (hset : .selectionSet parent set ∈ s.visits cx.schema) (hwalks : cx.Walks among s parent set.selections)
    (honce : cx.SpreadOnce s parent set.selections) (h : cx.Beside s parent set.selections path exclusive p q) :
    Mergeable cx.schema exclusive p q := by
  obtain ⟨hp, hq, rfl | ⟨_, _, _, h⟩ | ⟨_, _, _, h⟩⟩ := h.settled haccepts hs hset hwalks honce
  · exact .refl cx.schema exclusive p
  · exact h.mergeable haccepts hp
  · exact (h.mergeable haccepts hq).symm

end Compared

/-! ## Accepted operations -/

section Accepted

variable {schema : Schema} {ops : List (Nat × Operation)} {frags : List (Nat × Fragment)} {index source : Nat}
  {op : Operation}

/-- An operation of a context, and the fragments that it reaches. -/
def Context.Needed (cx : Context) (index source : Nat) (op : Operation) (s : Subject) : Prop :=
  s = ⟨.operation index, source, .operation op⟩ ∨
    ∃ name frag, Reaches cx.bodyOf op.body name ∧ cx.fragment? name = some (s, frag)

/-- An operation that is not rejected is accepted together with the fragments that it reaches if none is tainted. -/
theorem accepts_of_validateGlobal (hop : ops[index]? = some (source, op))
    (hspans : (Definition.operation op).fieldSpans.Nodup)
    (hfragspans : ∀ x ∈ frags, (Definition.fragment x.2).fieldSpans.Nodup)
    (hrejected : index ∉ (validateGlobal schema ops frags).rejected)
    (htainted : ∀ name, Reaches (Context.of schema ops frags).bodyOf op.body name →
      name ∉ (validateGlobal schema ops frags).tainted) :
    (Context.of schema ops frags).Accepts ((Context.of schema ops frags).Needed index source op) := by
  have hsubjects : ∀ s, (Context.of schema ops frags).Needed index source op s →
      s ∈ (Context.of schema ops frags).subjects := by
    rintro s (rfl | ⟨name, frag, -, hfound⟩)
    · exact Context.mem_subjects_of.2 (.inl ⟨index, _, hop, rfl⟩)
    · exact (Context.mem_fragments.1 (Context.mem_of_fragment? hfound)).1
  refine ⟨⟨hsubjects, ?_⟩, ?_, fun s t hs ht => Context.eq_of_owner (hsubjects s hs) (hsubjects t ht), ?_⟩
  · rintro s (rfl | ⟨name, frag, hreach, hfound⟩) spread hspread inside frag' hfound'
    · exact .inr ⟨_, frag', .spread hspread (Context.bodyOf_eq hfound'), hfound'⟩
    · have hfrag := (Context.mem_fragments.1 (Context.mem_of_fragment? hfound)).2
      rw [Definition.body_of_fragment? hfrag] at hspread
      exact .inr ⟨_, frag', hreach.snoc (Context.bodyOf_eq hfound) hspread (Context.bodyOf_eq hfound'), hfound'⟩
  · rintro s (rfl | ⟨name, frag, hreach, hfound⟩) rule hrule f hf howner
    · exact hrejected (mem_rejected.2 ⟨rule, hrule, f, hf, howner⟩)
    · refine htainted name hreach (mem_tainted.2 ⟨rule, hrule, ?_⟩)
      obtain ⟨hs, hfrag⟩ := Context.mem_fragments.1 (Context.mem_of_fragment? hfound)
      rcases Context.mem_subjects_of.1 hs with ⟨i, x, hx, rfl⟩ | ⟨i, x, hx, rfl⟩
      · cases hfrag
      · cases hfrag
        exact ⟨i, x, ⟨f, hf, howner⟩, hx, Context.name_of_fragment? hfound⟩
  · rintro s hs
    rcases Context.mem_subjects_of.1 (hsubjects s hs) with ⟨i, x, hx, rfl⟩ | ⟨i, x, hx, rfl⟩
    · rcases hs with he | ⟨name, frag, -, hfound⟩
      · cases he
        exact hspans
      · cases (Context.mem_fragments.1 (Context.mem_of_fragment? hfound)).2
    · exact hfragspans x (List.mem_of_getElem? hx)

/-- The fields of an operation that stand at one response path merge, if a validation neither rejects the operation nor
taints a fragment that it reaches, no two fields of one definition stand in one place, and no fragment is spread at a
response path of the operation and again at one that goes on from it. -/
theorem mergeable_of_accepted (hop : ops[index]? = some (source, op))
    (hspans : (Definition.operation op).fieldSpans.Nodup)
    (hfragspans : ∀ x ∈ frags, (Definition.fragment x.2).fieldSpans.Nodup)
    (hrejected : index ∉ (validateGlobal schema ops frags).rejected)
    (htainted : ∀ name, Reaches (Context.of schema ops frags).bodyOf op.body name →
      name ∉ (validateGlobal schema ops frags).tainted)
    (honce : (Context.of schema ops frags).SpreadOnce ⟨.operation index, source, .operation op⟩
      (schema.root? op.kind) op.body.selections) {path : List String} {exclusive : Bool} {p q : Placed}
    (h : (Context.of schema ops frags).Beside ⟨.operation index, source, .operation op⟩ (schema.root? op.kind)
      op.body.selections path exclusive p q) : Mergeable schema exclusive p q := by
  have haccepts := accepts_of_validateGlobal hop hspans hfragspans hrejected htainted
  have hvisits : setVisits schema (schema.root? op.kind) op.body ⊆
      Subject.visits schema ⟨.operation index, source, .operation op⟩ := fun v hv =>
    List.mem_append_left _ (List.mem_append_right _ hv)
  refine h.mergeable haccepts (.inl rfl) (hvisits List.mem_cons_self)
    ⟨.inl rfl, ?_, SelectionSet.spreadsIn_subset _⟩ honce
  exact List.Subset.trans (List.subset_cons_self _ _) hvisits

end Accepted

/-! ## Two documents -/

section Pairs

variable {cx : Context} {s : Subject} {parent : Option TypeDef} {set : SelectionSet}

/-- The fields that the full expansion places directly below a field. -/
def Context.fieldsBelow (cx : Context) (p : Placed) : List Placed :=
  p.body.toList.flatMap fun set => (expandBelow cx p set []).1

theorem Context.mem_fieldsBelow {p inner : Placed} : inner ∈ cx.fieldsBelow p ↔ cx.PlacesBelow p inner := by
  unfold fieldsBelow PlacesBelow expandBelow
  simp only [List.mem_flatMap, Option.mem_toList, Context.mem_expand_iff]

/-- The pairs of fields at the response paths of `n + 1` keys. -/
def Context.pairs (cx : Context) (s : Subject) (parent : Option TypeDef) (set : SelectionSet) :
    Nat → List (List String × Bool × Placed × Placed)
  | 0 =>
    let fields := (cx.expand s parent set []).1
    fields.flatMap fun p => (fields.filter fun q => p.responseKey == q.responseKey).map fun q =>
      ([p.responseKey], exclusiveParents p.parent q.parent, p, q)
  | n + 1 => (pairs cx s parent set n).flatMap fun (path, exclusive, p, q) =>
    (cx.fieldsBelow p).flatMap fun p' =>
      ((cx.fieldsBelow q).filter fun q' => p'.responseKey == q'.responseKey).map fun q' =>
        (path ++ [p'.responseKey], exclusive || exclusiveParents p'.parent q'.parent, p', q')

theorem Context.beside_of_mem_pairs {n : Nat} {x : List String × Bool × Placed × Placed}
    (h : x ∈ cx.pairs s parent set n) : cx.Beside s parent set.selections x.1 x.2.1 x.2.2.1 x.2.2.2 := by
  induction n generalizing x with
  | zero =>
    obtain ⟨p, hp, hx⟩ := List.mem_flatMap.1 h
    obtain ⟨q, hq, rfl⟩ := List.mem_map.1 hx
    obtain ⟨hq, hkey⟩ := List.mem_filter.1 hq
    exact .top (Context.mem_expand_iff.1 hp) (Context.mem_expand_iff.1 hq) (beq_iff_eq.1 hkey)
  | succ n ih =>
    obtain ⟨y, hy, hx⟩ := List.mem_flatMap.1 h
    obtain ⟨p', hp', hx⟩ := List.mem_flatMap.1 hx
    obtain ⟨q', hq', rfl⟩ := List.mem_map.1 hx
    obtain ⟨hq', hkey⟩ := List.mem_filter.1 hq'
    exact (ih hy).deeper (Context.mem_fieldsBelow.1 hp') (Context.mem_fieldsBelow.1 hq') (beq_iff_eq.1 hkey)

/-- Nothing is spread again where no field two levels down has a selection set. -/
theorem Context.spreadOnce_of_shallow {selections : List Selection}
    (h : ∀ p inner, cx.Places s parent selections p → cx.PlacesBelow p inner → inner.body = none) :
    cx.SpreadOnce s parent selections := by
  have htop : ∀ path exclusive p q, cx.Beside s parent selections path exclusive p q → p.body ≠ none →
      path.length = 1 ∧ cx.Places s parent selections p := by
    intro path exclusive p q hbeside
    induction hbeside with
    | top hp _ _ => exact fun _ => ⟨rfl, hp⟩
    | @deeper path exclusive p q p' q' _ hp' _ _ ih =>
      intro hbody
      obtain ⟨a, ha, hplaces⟩ := hp'
      exact absurd (h p p' (ih (by rw [ha]; nofun)).2 ⟨a, ha, hplaces⟩) hbody
  have hlength : ∀ path name, cx.SpreadAt s parent selections path name → path.length = 1 := by
    rintro path name ⟨exclusive, p, q, hbeside, a, ha, -⟩
    exact (htop path exclusive p q hbeside (by rw [ha]; nofun)).1
  intro path more name hmore hat hagain
  have hone := hlength path name hat
  have htwo := hlength _ name hagain
  rw [List.length_append] at htwo
  exact hmore (List.length_eq_zero_iff.1 (by omega))

end Pairs

/-- A fragment that is spread in one of two fields that merge. -/
def mergingDocument : Document :=
  (Batch.sampleFile "a.js" ("query Q \x7b b \x7b ...F \x7d b \x7b a(n: 1) \x7d \x7d " ++
    "fragment F on Query \x7b a(n: 1) \x7d")).document

/-- A fragment that is spread in a field and again below it, where its field does not merge. -/
def respreadDocument : Document :=
  (Batch.sampleFile "a.js" ("query Q \x7b b \x7b ...F b \x7b ...F \x7d \x7d b \x7b b \x7b a(n: 1) \x7d \x7d \x7d " ++
    "fragment F on Query \x7b a \x7d")).document

/-- The first operation of a document. -/
def firstOperation (document : Document) : Operation := document.operations.headD default

/-- The fragments of a document, all of one source. -/
def fragmentsOf (document : Document) : List (Nat × Fragment) := document.fragments.map fun frag => (0, frag)

/-- What a validation sees of the first operation of a document and its fragments. -/
def firstContext (document : Document) : Context :=
  .of Batch.sampleSchema [(0, firstOperation document)] (fragmentsOf document)

/-- The first operation under validation. -/
def firstSubject (document : Document) : Subject := ⟨.operation 0, 0, .operation (firstOperation document)⟩

/-- The type that the first operation asks. -/
def firstRoot (document : Document) : Option TypeDef := Batch.sampleSchema.root? (firstOperation document).kind

theorem not_mem_of_isEmpty {α : Type} [DecidableEq α] {set : OrderedSet α} (h : set.isEmpty = true) (a : α) :
    a ∉ set := by
  rw [OrderedSet.mem_iff, List.isEmpty_iff.1 h]
  exact List.not_mem_nil

/-- No two fields of a definition stand in one place, and the validation of the first operation and the fragments
rejects nothing. -/
def PassesAlone (document : Document) : Prop :=
  (Definition.operation (firstOperation document)).fieldSpans.Nodup ∧
    (∀ x ∈ fragmentsOf document, (Definition.fragment x.2).fieldSpans.Nodup) ∧
    (validateGlobal Batch.sampleSchema [(0, firstOperation document)] (fragmentsOf document)).rejected.isEmpty = true ∧
    (validateGlobal Batch.sampleSchema [(0, firstOperation document)] (fragmentsOf document)).tainted.isEmpty = true

instance (document : Document) : Decidable (PassesAlone document) := inferInstanceAs (Decidable (_ ∧ _ ∧ _ ∧ _))

theorem mergeable_of_accepted_sample : ∃ path p q,
    (firstContext mergingDocument).Beside (firstSubject mergingDocument) (firstRoot mergingDocument)
      (firstOperation mergingDocument).body.selections path false p q ∧
    p.place ≠ q.place ∧ Mergeable Batch.sampleSchema false p q := by
  have hchecks : PassesAlone mergingDocument ∧
      ((firstContext mergingDocument).pairs (firstSubject mergingDocument) (firstRoot mergingDocument)
        (firstOperation mergingDocument).body 1).any
        (fun x => !x.2.1 && decide (x.2.2.1.place ≠ x.2.2.2.place)) = true ∧
      ((firstContext mergingDocument).expand (firstSubject mergingDocument) (firstRoot mergingDocument)
        (firstOperation mergingDocument).body []).1.all
        (fun p => ((firstContext mergingDocument).fieldsBelow p).all fun inner => inner.body.isNone) = true := by
    decide +kernel
  obtain ⟨⟨hspans, hfragspans, hrejected, htainted⟩, hpairs, hflat⟩ := hchecks
  obtain ⟨⟨path, exclusive, p, q⟩, hmem, hx⟩ := List.any_eq_true.1 hpairs
  simp only [Bool.and_eq_true, Bool.not_eq_true', decide_eq_true_eq] at hx
  obtain ⟨rfl, hplace⟩ := hx
  have hbeside := Context.beside_of_mem_pairs hmem
  have honce := Context.spreadOnce_of_shallow fun p inner hp hinner => Option.isNone_iff_eq_none.1
    (List.all_eq_true.1 (List.all_eq_true.1 hflat p (Context.mem_expand_iff.2 hp)) inner
      (Context.mem_fieldsBelow.2 hinner))
  exact ⟨path, p, q, hbeside, hplace, mergeable_of_accepted rfl hspans hfragspans (not_mem_of_isEmpty hrejected 0)
    (fun name _ => not_mem_of_isEmpty htainted name) honce hbeside⟩

/-- Acceptance alone is not enough: what is spread again below a field is not compared with the fields beside it. -/
theorem mergeable_of_accepted_respread : ¬ ∀ (schema : Schema) (ops : List (Nat × Operation))
    (frags : List (Nat × Fragment)) (index source : Nat) (op : Operation), ops[index]? = some (source, op) →
    (Definition.operation op).fieldSpans.Nodup → (∀ x ∈ frags, (Definition.fragment x.2).fieldSpans.Nodup) →
    acyclicFragments (.of schema ops frags) = [] → knownFields (.of schema ops frags) = [] →
    index ∉ (validateGlobal schema ops frags).rejected →
    (∀ name, Reaches (Context.of schema ops frags).bodyOf op.body name →
      name ∉ (validateGlobal schema ops frags).tainted) →
    ∀ path exclusive p q, (Context.of schema ops frags).Beside ⟨.operation index, source, .operation op⟩
      (schema.root? op.kind) op.body.selections path exclusive p q → Mergeable schema exclusive p q := by
  intro hall
  have hchecks : PassesAlone respreadDocument ∧
      (acyclicFragments (firstContext respreadDocument)).isEmpty = true ∧
      (knownFields (firstContext respreadDocument)).isEmpty = true ∧
      ((firstContext respreadDocument).pairs (firstSubject respreadDocument) (firstRoot respreadDocument)
        (firstOperation respreadDocument).body 2).any
        (fun x => !x.2.1 && x.2.2.1.field.arguments.length != x.2.2.2.field.arguments.length) = true := by
    decide +kernel
  obtain ⟨⟨hspans, hfragspans, hrejected, htainted⟩, hacyclic, hknown, hpairs⟩ := hchecks
  obtain ⟨⟨path, exclusive, p, q⟩, hmem, hx⟩ := List.any_eq_true.1 hpairs
  simp only [Bool.and_eq_true, Bool.not_eq_true', bne_iff_ne] at hx
  obtain ⟨rfl, hlength⟩ := hx
  have hmerge := hall Batch.sampleSchema [(0, firstOperation respreadDocument)] (fragmentsOf respreadDocument) 0 0
    (firstOperation respreadDocument) rfl hspans hfragspans (List.isEmpty_iff.1 hacyclic) (List.isEmpty_iff.1 hknown)
    (not_mem_of_isEmpty hrejected 0) (fun name _ => not_mem_of_isEmpty htainted name) path false p q
    (Context.beside_of_mem_pairs hmem)
  have hsame := (hmerge.arguments rfl).length_eq
  rw [List.length_map, List.length_map] at hsame
  exact hlength hsame

end QueryBatch.Rules
