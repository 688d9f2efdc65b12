import QueryBatch.Proofs.Rules.Alike
import QueryBatch.Proofs.Rules.Placement

/-!
# Which definitions the rules reject

* `Independent`: whether a rule rejects a definition depends on it and on the fragments at hand alone. So it is for all
  global rules save two.
* `rejects_uniqueOperationNames_iff`: one of these rejects an operation if its name came before.
* `Context.Alike.exists_blames`: the other is that on fields with one response key. What is blamed for a conflict there
  is blamed for it wherever the same fragments are at hand.
-/

namespace QueryBatch.Rules

/-- The definitions of a context are told from each other by their owners. -/
def Context.Separate (cx : Context) : Prop := ∀ s ∈ cx.subjects, ∀ t ∈ cx.subjects, s.owner = t.owner → s = t

theorem Context.separate_of (schema : Schema) (ops : List (Nat × Operation)) (frags : List (Nat × Fragment)) :
    (Context.of schema ops frags).Separate := fun _ hs _ ht => Context.eq_of_owner hs ht

/-- Whether a rule rejects a definition depends on it and on the fragments at hand alone. -/
def Independent (rule : Rule) : Prop :=
  ∀ cx cx' r r', cx.Alike cx' r r' → r'.Faithful → cx.Separate → ∀ s ∈ cx.subjects, ∀ s' ∈ cx'.subjects,
    s.recast r = s'.recast r' → Rejects rule cx s.owner → Rejects rule cx' s'.owner

/-- Definitions of one owner have one owner in other places, too. -/
theorem owner_eq_of_recast {r r' : Recast} (hr' : r'.Faithful) {s s' t t' : Subject} (hs : s.recast r = s'.recast r')
    (ht : t.recast r = t'.recast r') (h : s.owner = t.owner) : s'.owner = t'.owner := by
  refine hr'.owner ?_
  have hs' : r.owner s.owner = r'.owner s'.owner := congrArg Subject.owner hs
  have ht' : r.owner t.owner = r'.owner t'.owner := congrArg Subject.owner ht
  rw [← hs', ← ht', h]

/-- A rule that looks at one definition after the other is independent. -/
theorem Subjectwise.independent {rule : Rule} (h : Subjectwise rule) : Independent rule := by
  obtain ⟨look, heq, haccuses, hrecast⟩ := h
  rintro cx cx' r r' halike - hseparate s hs s' hs' hsame ⟨f, hf, howner⟩
  rw [heq] at hf
  obtain ⟨t, ht, hf⟩ := List.mem_flatMap.1 hf
  obtain ⟨d, rfl⟩ := haccuses cx t f hf
  obtain rfl := hseparate s hs t ht (List.mem_singleton.1 howner)
  have hfound : look cx' s' ≠ [] := by
    rw [ne_eq, ← hrecast cx' s' r', ← halike.recast_eq, ← hsame, hrecast]
    exact List.ne_nil_of_mem hf
  obtain ⟨f', hf'⟩ := List.exists_mem_of_ne_nil _ hfound
  obtain ⟨d', rfl⟩ := haccuses cx' s' f' hf'
  refine ⟨s'.rejectedFor d', ?_, List.mem_singleton_self _⟩
  rw [heq]
  exact List.mem_flatMap.2 ⟨s', hs', hf'⟩

/-! ## Names of fragments -/

section Repeats

variable {α β : Type} {key : α → String} {key' : β → String} {g : α → β}

theorem repeatsAfter_map (hkey : ∀ a, key' (g a) = key a) (firsts as : List α) :
    repeatsAfter key' (firsts.map g) (as.map g) = (repeatsAfter key firsts as).map (Prod.map g g) := by
  induction as generalizing firsts with
  | nil => rfl
  | cons a rest ih =>
    have hfind : (firsts.map g).find? (fun first => key' first == key' (g a)) =
        (firsts.find? fun first => key first == key a).map g := by
      rw [List.find?_map]
      simp only [Function.comp_def, hkey]
    rw [List.map_cons, repeatsAfter, repeatsAfter, hfind]
    cases firsts.find? fun first => key first == key a with
    | some first =>
      dsimp only [Option.map_some]
      rw [ih]
      rfl
    | none =>
      have hrest := ih (firsts ++ [a])
      rwa [List.map_append] at hrest

theorem repeats_map (hkey : ∀ a, key' (g a) = key a) (as : List α) :
    repeats key' (as.map g) = (repeats key as).map (Prod.map g g) := repeatsAfter_map hkey [] as

end Repeats

theorem independent_uniqueFragmentNames : Independent uniqueFragmentNames := by
  rintro cx cx' r r' halike hr' - s hs s' hs' hsame ⟨f, hf, howner⟩
  obtain ⟨x, hx, rfl⟩ := List.mem_map.1 hf
  have hrepeats : ∀ (r : Recast) (cx : Context), repeats (fun x => x.2.name.text) (cx.fragments.map r.fragment) =
      (repeats (fun x => x.2.name.text) cx.fragments).map (Prod.map r.fragment r.fragment) :=
    fun r cx => repeats_map (fun _ => rfl) cx.fragments
  have hpair : Prod.map r.fragment r.fragment x ∈ (repeats (fun x => x.2.name.text) cx.fragments).map _ :=
    List.mem_map_of_mem hx
  rw [← hrepeats, halike.map_fragments, hrepeats] at hpair
  obtain ⟨x', hx', he⟩ := List.mem_map.1 hpair
  have hfirst : x.1.1.recast r = x'.1.1.recast r' := (congrArg (fun x => x.1.1) he).symm
  have hsecond : x.2.1.recast r = x'.2.1.recast r' := (congrArg (fun x => x.2.1) he).symm
  refine ⟨_, List.mem_map_of_mem hx', ?_⟩
  rcases List.mem_cons.1 howner with howner | howner
  · rw [owner_eq_of_recast hr' hsame hsecond howner]
    exact List.mem_cons_self
  · rw [owner_eq_of_recast hr' hsame hfirst (List.mem_singleton.1 howner)]
    exact List.mem_cons_of_mem _ (List.mem_singleton_self _)

/-! ## Cycles -/

/-- A step in a recast definition. -/
def Step.recast (r : Recast) (step : Step) : Step := ⟨step.inside, step.subject.recast r, step.spread.unspanned⟩

section Cycles

variable (r : Recast) (cx : Context)

theorem stepsOf_recast (x : Subject × Fragment) :
    stepsOf (r.fragment x).1 (r.fragment x).2 = (stepsOf x.1 x.2).map (Step.recast r) := by
  have hspreads : (r.fragment x).2.body.spreads = x.2.body.spreads.map Spread.unspanned :=
    SelectionSet.spreads_respanned _ x.2.body
  unfold stepsOf
  rw [hspreads, List.map_map, List.map_map]
  rfl

theorem closedPart_recast (way : List Step) (target : String) :
    closedPart (way.map (Step.recast r)) target = (closedPart way target).map (Step.recast r) :=
  List.dropWhile_map

/-- What a search has found and seen, recast. -/
def Recast.search (state : List (List Step) × List String) : List (List Step) × List String :=
  (state.1.map (List.map (Step.recast r)), state.2)

/-- A step goes on alike if the searches behind it do. -/
theorem goOn_recast {room : Nat} (hroom : ∀ path seen x, cyclesFrom (cx.recast r) room (path.map (Step.recast r)) seen
      (r.fragment x).1 (r.fragment x).2 = r.search (cyclesFrom cx room path seen x.1 x.2))
    (path : List Step) (state : List (List Step) × List String) (step : Step) :
    goOn (cx.recast r) room (path.map (Step.recast r)) (r.search state) (step.recast r) =
      r.search (goOn cx room path state step) := by
  have hway : path.map (Step.recast r) ++ [step.recast r] = (path ++ [step]).map (Step.recast r) := by
    rw [List.map_append]
    rfl
  have htarget : (step.recast r).target = step.target := rfl
  unfold goOn
  dsimp only
  rw [hway, htarget, closedPart_recast, Context.fragment?_recast]
  cases hclosed : closedPart (path ++ [step]) step.target with
  | cons first rest => simp [Recast.search]
  | nil =>
    cases cx.fragment? step.target with
    | none => rfl
    | some x =>
      rw [List.map_nil, Option.map_some]
      dsimp only
      rw [show (r.search state).2 = state.2 from rfl, hroom]
      simp [Recast.search]

theorem cyclesFrom_recast (room : Nat) (path : List Step) (seen : List String) (x : Subject × Fragment) :
    cyclesFrom (cx.recast r) room (path.map (Step.recast r)) seen (r.fragment x).1 (r.fragment x).2 =
      r.search (cyclesFrom cx room path seen x.1 x.2) := by
  induction room generalizing path seen x with
  | zero => rfl
  | succ room ih =>
    have hname : (r.fragment x).2.name.text = x.2.name.text := rfl
    by_cases hseen : x.2.name.text ∈ seen
    · rw [cyclesFrom_of_seen hseen, cyclesFrom_of_seen (hname ▸ hseen)]
      rfl
    · rw [cyclesFrom_of_new hseen, cyclesFrom_of_new (hname ▸ hseen), stepsOf_recast, List.foldl_map, hname,
        show (([] : List (List Step)), x.2.name.text :: seen) = r.search ([], x.2.name.text :: seen) from rfl]
      exact List.foldl_hom r.search fun state step => goOn_recast r cx ih path state step

/-- In a recast context the same cycles are found. -/
theorem cycles_recast : cycles (cx.recast r) = (cycles cx).map (List.map (Step.recast r)) := by
  have hnames : (cx.recast r).fragmentNames = cx.fragmentNames := by
    rw [Context.fragmentNames_eq, Context.fragmentNames_eq, Context.names, Context.fragments_recast, List.map_map]
    rfl
  have hstarts : (cx.recast r).fragmentNames.filterMap (cx.recast r).fragment? =
      (cx.fragmentNames.filterMap cx.fragment?).map r.fragment := by
    rw [hnames, List.map_filterMap]
    exact List.filterMap_congr fun name _ => cx.fragment?_recast r name
  have hsearch : ∀ state x, searchFrom (cx.recast r) (r.search state) (r.fragment x) =
      r.search (searchFrom cx state x) := by
    intro state x
    have hfrom := cyclesFrom_recast r cx (cx.fragments.length + 1) [] state.2 x
    unfold searchFrom
    rw [Context.length_fragments_recast]
    dsimp only
    rw [show (r.search state).2 = state.2 from rfl, show ([] : List Step) = [].map (Step.recast r) from rfl, hfrom]
    simp [Recast.search]
  rw [cycles_eq, cycles_eq, hstarts, List.foldl_map,
    show (([] : List (List Step)), ([] : List String)) = r.search ([], []) from rfl]
  exact congrArg Prod.fst (List.foldl_hom r.search hsearch)

end Cycles

theorem independent_acyclicFragments : Independent acyclicFragments := by
  intro cx cx' r r' halike hr' _ s _ s' _ hsame hrejects
  obtain ⟨cycle, hcycle, step, hstep, howner⟩ := rejects_acyclicFragments_iff.1 hrejects
  have hmem := List.mem_map_of_mem (f := List.map (Step.recast r)) hcycle
  rw [← cycles_recast, halike.recast_eq, cycles_recast] at hmem
  obtain ⟨cycle', hcycle', he⟩ := List.mem_map.1 hmem
  have hmem' := List.mem_map_of_mem (f := Step.recast r) hstep
  rw [← he] at hmem'
  obtain ⟨step', hstep', he'⟩ := List.mem_map.1 hmem'
  refine rejects_acyclicFragments_iff.2 ⟨cycle', hcycle', step', hstep', ?_⟩
  exact owner_eq_of_recast hr' (congrArg Step.subject he').symm hsame howner

/-! ## Names of operations -/

section Before

variable {α : Type} {key : α → String}

/-- What is repeated comes behind another member of its key. -/
theorem sublist_of_mem_repeatsAfter {firsts as : List α} {x : α × α} (h : x ∈ repeatsAfter key firsts as) :
    key x.1 = key x.2 ∧ x.2 ∈ as ∧ (x.1 ∈ firsts ∨ [x.1, x.2].Sublist as) := by
  induction as generalizing firsts with
  | nil => exact absurd h List.not_mem_nil
  | cons a rest ih =>
    have hlater : ∀ firsts, x ∈ repeatsAfter key firsts rest → key x.1 = key x.2 ∧ x.2 ∈ a :: rest ∧
        (x.1 ∈ firsts ∨ [x.1, x.2].Sublist (a :: rest)) := by
      intro firsts h
      obtain ⟨hkey, hmem, hfirst⟩ := ih h
      exact ⟨hkey, List.mem_cons_of_mem _ hmem, hfirst.imp_right fun hsub => hsub.cons _⟩
    rw [repeatsAfter] at h
    cases hfound : firsts.find? fun first => key first == key a with
    | some first =>
      rw [hfound] at h
      rcases List.mem_cons.1 h with rfl | h
      · exact ⟨by simpa using List.find?_some hfound, List.mem_cons_self, .inl (List.mem_of_find?_eq_some hfound)⟩
      · exact hlater firsts h
    | none =>
      rw [hfound] at h
      obtain ⟨hkey, hmem, hfirst⟩ := hlater _ h
      refine ⟨hkey, hmem, ?_⟩
      rcases hfirst with hfirst | hsub
      · rcases List.mem_append.1 hfirst with hfirst | hfirst
        · exact .inl hfirst
        · obtain rfl := List.mem_singleton.1 hfirst
          have hrest := (ih h).2.1
          exact .inr (List.Sublist.cons_cons _ (List.singleton_sublist.2 hrest))
      · exact .inr hsub

/-- What has the key of an earlier member is repeated. -/
theorem exists_repeatsAfter {firsts as : List α} {b : α} (hb : b ∈ as) (h : ∃ a ∈ firsts, key a = key b) :
    ∃ a, (a, b) ∈ repeatsAfter key firsts as := by
  induction as generalizing firsts with
  | nil => exact absurd hb List.not_mem_nil
  | cons a rest ih =>
    rw [repeatsAfter]
    cases hfound : firsts.find? fun first => key first == key a with
    | some first =>
      rcases List.mem_cons.1 hb with rfl | hb
      · exact ⟨first, List.mem_cons_self⟩
      · obtain ⟨a', ha'⟩ := ih hb h
        exact ⟨a', List.mem_cons_of_mem _ ha'⟩
    | none =>
      rcases List.mem_cons.1 hb with rfl | hb
      · obtain ⟨a, ha, hkey⟩ := h
        exact absurd (beq_iff_eq.2 hkey) (List.find?_eq_none.1 hfound a ha)
      · obtain ⟨a', ha', hkey⟩ := h
        exact ih hb ⟨a', List.mem_append_left _ ha', hkey⟩

theorem exists_repeatsAfter_of_sublist {firsts as : List α} {a b : α} (h : [a, b].Sublist as) (hkey : key a = key b) :
    ∃ a', (a', b) ∈ repeatsAfter key firsts as := by
  induction as generalizing firsts with
  | nil => cases h
  | cons x rest ih =>
    rw [repeatsAfter]
    cases hfound : firsts.find? fun first => key first == key x with
    | some first =>
      have hrest : ∃ a', (a', b) ∈ repeatsAfter key firsts rest := by
        cases h with
        | cons _ h => exact ih h
        | cons_cons _ h =>
          have hfirst : key first = key a := by simpa using List.find?_some hfound
          exact exists_repeatsAfter (List.singleton_sublist.1 h)
            ⟨first, List.mem_of_find?_eq_some hfound, hfirst.trans hkey⟩
      obtain ⟨a', ha'⟩ := hrest
      exact ⟨a', List.mem_cons_of_mem _ ha'⟩
    | none =>
      cases h with
      | cons _ h => exact ih h
      | cons_cons _ h =>
        exact exists_repeatsAfter (List.singleton_sublist.1 h)
          ⟨a, List.mem_append_right _ (List.mem_singleton_self a), hkey⟩

end Before

/-- The owner and the name of an operation that has one. -/
def Subject.operationName? (s : Subject) : Option (Owner × String) :=
  s.definition.operation?.bind fun op => op.name.map fun name => (s.owner, name.text)

/-- The names of operations with their owners, in order. -/
def Context.operationNames (cx : Context) : List (Owner × String) := cx.subjects.filterMap Subject.operationName?

theorem map_namedOperations (cx : Context) :
    (namedOperations cx).map (fun x => (x.1.owner, x.2.text)) = cx.operationNames := by
  unfold namedOperations Context.operations Context.operationNames
  rw [List.filterMap_filterMap, List.map_filterMap]
  refine List.filterMap_congr fun s _ => ?_
  unfold Subject.operationName?
  cases s.definition.operation? with
  | none => rfl
  | some op => cases hname : op.name <;> simp [hname]

theorem Subject.operationName?_recast (r : Recast) (s : Subject) :
    (s.recast r).operationName? = s.operationName?.map (Prod.map r.owner id) := by
  unfold Subject.operationName? Subject.recast
  rw [Definition.operation?_respanned]
  cases s.definition.operation? with
  | none => rfl
  | some op => cases hname : op.name <;> simp [Operation.respanned, Operation.unspanned, hname, Name.unspanned]

/-- An operation is rejected for its name just if the name came before. -/
theorem rejects_uniqueOperationNames_iff {cx : Context} {owner : Owner} :
    Rejects uniqueOperationNames cx owner ↔
      ∃ first text, [(first, text), (owner, text)].Sublist cx.operationNames := by
  rw [← map_namedOperations]
  constructor
  · rintro ⟨f, hf, howner⟩
    obtain ⟨x, hx, rfl⟩ := List.mem_map.1 hf
    obtain rfl := List.mem_singleton.1 howner
    obtain ⟨hkey, -, hsub⟩ := sublist_of_mem_repeatsAfter hx
    have hmapped := (hsub.resolve_left List.not_mem_nil).map fun x => (x.1.owner, x.2.text)
    simp only [List.map_cons, List.map_nil, hkey] at hmapped
    exact ⟨_, _, hmapped⟩
  · rintro ⟨first, text, hsub⟩
    obtain ⟨pair, hpair, he⟩ := List.sublist_map_iff.1 hsub
    obtain ⟨a, rest, rfl, ha, hrest⟩ := List.map_eq_cons_iff.1 he.symm
    obtain ⟨b, rfl, hb⟩ := List.map_eq_singleton_iff.1 hrest
    have hkey : a.2.text = b.2.text := (congrArg Prod.snd ha).trans (congrArg Prod.snd hb).symm
    obtain ⟨a', ha'⟩ : ∃ a', (a', b) ∈ repeats (fun x : Subject × Name => x.2.text) (namedOperations cx) :=
      exists_repeatsAfter_of_sublist hpair hkey
    exact ⟨_, List.mem_map_of_mem ha', List.mem_singleton.2 (congrArg Prod.fst hb).symm⟩

/-! ## Conflicts -/

section Blames

variable {cx cx' : Context} {r r' : Recast} {s s' t t' : Subject}

/-- A field of a full expansion is one of the definition that is expanded, or of a fragment. -/
theorem Context.Places.subject_cases {parent : Option TypeDef} {selections : List Selection} {p : Placed}
    (h : cx.Places s parent selections p) : p.subject = s ∨ ∃ frag, (p.subject, frag) ∈ cx.fragments := by
  induction h with
  | field _ => exact .inl rfl
  | group _ => exact .inl rfl
  | spread _ hfound _ ih =>
    refine .inr ?_
    rcases ih with hs | hfrag
    · rw [hs]
      exact ⟨_, Context.mem_of_fragment? hfound⟩
    · exact hfrag

/-- What is blamed for a conflict is the definition that it is met in, or a fragment. -/
theorem Context.Blames.cases (h : cx.Blames s t) :
    s ∈ cx.subjects ∧ (t = s ∨ ∃ frag, (t, frag) ∈ cx.fragments) := by
  obtain ⟨c, hc, ht⟩ := h
  obtain ⟨parent, set, group, hv, hgroup, hab, -⟩ := mem_conflicts.1 hc
  have hfield : ∀ p ∈ group, p.subject = s ∨ ∃ frag, (p.subject, frag) ∈ cx.fragments := fun p hp =>
    (Context.mem_expand_iff.1 (mem_grouped hgroup hp)).subject_cases
  obtain ⟨hfirst, hsecond⟩ := mem_orderedPairs hab
  refine ⟨(mem_visits.1 hv).1, ?_⟩
  rcases ht with rfl | rfl | rfl
  · exact .inl rfl
  · exact hfield _ hfirst
  · exact hfield _ hsecond

/-- Whoever is blamed for a conflict in one context is blamed for it in the other. -/
theorem Context.Alike.exists_blames (h : cx.Alike cx' r r') (hr' : r'.Faithful) (hs : s ∈ cx.subjects)
    (hsame : s.recast r = s'.recast r') (hblames : cx'.Blames s' t') :
    ∃ t, cx.Blames s t ∧ t.recast r = t'.recast r' := by
  obtain ⟨c', hc', ht'⟩ := hblames
  obtain ⟨c, hc, hfirst, hsecond⟩ := h.exists_conflict hr' hs hsame hc'
  rcases ht' with rfl | rfl | rfl
  · exact ⟨s, ⟨c, hc, .inl rfl⟩, hsame⟩
  · exact ⟨_, ⟨c, hc, .inr (.inl rfl)⟩, congrArg Placed.subject hfirst⟩
  · exact ⟨_, ⟨c, hc, .inr (.inr rfl)⟩, congrArg Placed.subject hsecond⟩

end Blames

end QueryBatch.Rules
