import QueryBatch.Proofs.Rules.Context

/-!
# Fragments that a search reaches

The rules collect the fragments of an operation by a search with a stack of selection sets. It finds what the operation
reaches, and nothing twice.

* `reachFrom_sound`: what a search finds is reached from its stack, under a name that was not seen before.
* `Context.Explored`: the names that a search has seen and left behind. `reachFrom_complete`: with rounds enough, a
  search ends when all is explored.
* `Context.mem_reachable`, `Context.nodup_reachable`: the fragments found are those reached, each once.
-/

namespace QueryBatch.Rules

namespace Context

variable {cx : Context} {seen more : List String} {name : String}

/-! ## Names met for the first time -/

theorem mem_newNames : name ∈ newNames seen more ↔ name ∈ more ∧ name ∉ seen := by
  induction more generalizing seen with
  | nil => simp [newNames]
  | cons first rest ih =>
    rw [newNames]
    split
    · rename_i hold
      rw [ih, List.mem_cons, or_and_right]
      exact ⟨.inr, fun h => h.resolve_left fun ⟨he, hnew⟩ => hnew (he ▸ hold)⟩
    · rename_i hnew
      rw [List.mem_cons, ih, List.mem_cons, List.mem_cons, not_or]
      by_cases he : name = first
      · subst he
        simp [hnew]
      · simp [he]

theorem nodup_newNames (seen more : List String) : (newNames seen more).Nodup := by
  induction more generalizing seen with
  | nil => exact .nil
  | cons first rest ih =>
    rw [newNames]
    split
    · exact ih seen
    · exact List.nodup_cons.2 ⟨fun h => (mem_newNames.1 h).2 List.mem_cons_self, ih _⟩

/-- The fragments that are found under new names leave fewer names to meet. -/
theorem unseen_found (cx : Context) (seen more : List String) :
    ((newNames seen more).filterMap cx.fragment?).length + unseen cx.names (seen ++ newNames seen more) ≤
      unseen cx.names seen := by
  induction more generalizing seen with
  | nil => simp [newNames]
  | cons first rest ih =>
    rw [newNames]
    split
    · exact ih seen
    · rename_i hnew
      have hrest := ih (first :: seen)
      have hsame : unseen cx.names (seen ++ first :: newNames (first :: seen) rest) ≤
          unseen cx.names (first :: seen ++ newNames (first :: seen) rest) := by
        refine unseen_mono fun other hother => ?_
        simp only [List.cons_append, List.mem_cons, List.mem_append] at hother ⊢
        rcases hother with rfl | hother | hother
        · exact .inr (.inl rfl)
        · exact .inl hother
        · exact .inr (.inr hother)
      cases hfound : cx.fragment? first with
      | none =>
        have hle : unseen cx.names (first :: seen) ≤ unseen cx.names seen := unseen_mono (List.subset_cons_self _ _)
        rw [List.filterMap_cons_none hfound]
        omega
      | some x =>
        have hlt : unseen cx.names (first :: seen) < unseen cx.names seen :=
          unseen_lt (List.subset_cons_self _ _) (mem_names_of_fragment? hfound) hnew List.mem_cons_self
        rw [List.filterMap_cons_some hfound, List.length_cons]
        omega

/-! ## The search -/

/-- The fragments that a selection set spreads under names that were not seen. -/
def foundIn (cx : Context) (seen : List String) (set : SelectionSet) : List (Subject × Fragment) :=
  (newNames seen set.spreadNames).filterMap cx.fragment?

section Search

variable {rounds : Nat} {stack : List SelectionSet} {set : SelectionSet} {x : Subject × Fragment}

theorem mem_foundIn : x ∈ cx.foundIn seen set ↔ ∃ name ∈ set.spreadNames, name ∉ seen ∧ cx.fragment? name = some x := by
  simp only [foundIn, List.mem_filterMap, mem_newNames, and_assoc]

theorem reachFrom_nil (cx : Context) (rounds : Nat) (seen : List String) : cx.reachFrom rounds seen [] = [] := by
  cases rounds <;> rfl

/-- A round takes a selection set off the stack and puts the bodies of what is found there in its place. -/
theorem reachFrom_cons (cx : Context) (rounds : Nat) (seen : List String) (set : SelectionSet)
    (stack : List SelectionSet) : cx.reachFrom (rounds + 1) seen (set :: stack) =
      cx.foundIn seen set ++ cx.reachFrom rounds (seen ++ newNames seen set.spreadNames)
        (((cx.foundIn seen set).map fun x => x.2.body).reverse ++ stack) := rfl

/-- What a search finds is reached from its stack, under a name that was not seen before. -/
theorem reachFrom_sound (h : x ∈ cx.reachFrom rounds seen stack) :
    ∃ set ∈ stack, ∃ name, name ∉ seen ∧ Reaches cx.bodyOf set name ∧ cx.fragment? name = some x := by
  induction rounds generalizing seen stack with
  | zero => exact absurd h List.not_mem_nil
  | succ rounds ih =>
    cases stack with
    | nil => exact absurd h List.not_mem_nil
    | cons set stack =>
      rw [reachFrom_cons] at h
      rcases List.mem_append.1 h with h | h
      · obtain ⟨name, hname, hnew, hfound⟩ := mem_foundIn.1 h
        obtain ⟨s, hs, rfl⟩ := SelectionSet.mem_spreadNames.1 hname
        exact ⟨set, List.mem_cons_self, _, hnew, .spread hs (bodyOf_eq hfound), hfound⟩
      · obtain ⟨inner, hinner, name, hnew, hreach, hfound⟩ := ih h
        have hold : name ∉ seen := fun hseen => hnew (List.mem_append_left _ hseen)
        rcases List.mem_append.1 hinner with hinner | hinner
        · -- the selection set is the body of a fragment that the round found
          obtain ⟨⟨t, frag⟩, hx, rfl⟩ := List.mem_map.1 (List.mem_reverse.1 hinner)
          obtain ⟨outer, houter, -, hfrag⟩ := mem_foundIn.1 hx
          obtain ⟨s, hs, rfl⟩ := SelectionSet.mem_spreadNames.1 houter
          exact ⟨set, List.mem_cons_self, name, hold, .through hs (bodyOf_eq hfrag) hreach, hfound⟩
        · exact ⟨inner, List.mem_cons_of_mem _ hinner, name, hold, hreach, hfound⟩

/-- No search finds two fragments of one name. -/
theorem nodup_reachFrom (cx : Context) (rounds : Nat) (seen : List String) (stack : List SelectionSet) :
    ((cx.reachFrom rounds seen stack).map fun x => x.2.name.text).Nodup := by
  induction rounds generalizing seen stack with
  | zero => exact .nil
  | succ rounds ih =>
    cases stack with
    | nil => exact .nil
    | cons set stack =>
      rw [reachFrom_cons, List.map_append, List.nodup_append]
      refine ⟨?_, ih _ _, fun a ha b hb he => ?_⟩
      · unfold foundIn
        rw [List.map_filterMap]
        refine (nodup_newNames seen _).filterMap fun a b c ha hb => ?_
        obtain ⟨⟨s, frag⟩, hfrag, rfl⟩ := Option.map_eq_some_iff.1 ha
        obtain ⟨⟨t, other⟩, hother, hname⟩ := Option.map_eq_some_iff.1 hb
        rw [← name_of_fragment? hfrag, ← name_of_fragment? hother]
        exact hname.symm
      · -- what is found later has a name that this round has not seen
        subst he
        obtain ⟨⟨s, frag⟩, hx, rfl⟩ := List.mem_map.1 ha
        obtain ⟨⟨t, other⟩, hy, hname⟩ := List.mem_map.1 hb
        obtain ⟨name, hmem, hnew, hfrag⟩ := mem_foundIn.1 hx
        obtain ⟨-, -, name', hnot, -, hother⟩ := reachFrom_sound hy
        have hsame : name' = name := by
          rw [← name_of_fragment? hother, ← name_of_fragment? hfrag]
          exact hname
        rw [hsame] at hnot
        exact hnot (List.mem_append_right _ (mem_newNames.2 ⟨hmem, hnew⟩))

/-- All that the fragments of some names spread is among the names, but for the fragments whose bodies are on a
stack. -/
def Explored (cx : Context) (met : List String) (stack : List SelectionSet) : Prop :=
  ∀ name ∈ met, ∀ body, cx.bodyOf name = some body → body ∈ stack ∨ body.spreadNames ⊆ met

/-- A round leaves its selection set explored. -/
theorem Explored.round (h : cx.Explored seen (set :: stack)) :
    cx.Explored (seen ++ newNames seen set.spreadNames)
      (((cx.foundIn seen set).map fun x => x.2.body).reverse ++ stack) := by
  intro name hname body hbody
  rcases List.mem_append.1 hname with hname | hname
  · rcases h name hname body hbody with hmem | hsub
    · rcases List.mem_cons.1 hmem with rfl | hmem
      · refine .inr fun other hother => ?_
        by_cases hseen : other ∈ seen
        · exact List.mem_append_left _ hseen
        · exact List.mem_append_right _ (mem_newNames.2 ⟨hother, hseen⟩)
      · exact .inl (List.mem_append_right _ hmem)
    · exact .inr (List.Subset.trans hsub (List.subset_append_left _ _))
  · obtain ⟨hspread, hnew⟩ := mem_newNames.1 hname
    obtain ⟨s, frag, hfound, rfl⟩ := exists_of_bodyOf hbody
    have hmem : (s, frag) ∈ cx.foundIn seen set := mem_foundIn.2 ⟨name, hspread, hnew, hfound⟩
    exact .inl (List.mem_append_left _ (List.mem_reverse.2 (List.mem_map.2 ⟨_, hmem, rfl⟩)))

/-- With rounds enough a search ends when all is explored: it has met what its stack spreads, and found the fragments
of the names it has met. -/
theorem reachFrom_complete (h : cx.Explored seen stack) (hrounds : stack.length + unseen cx.names seen ≤ rounds) :
    ∃ met, cx.Explored met [] ∧ seen ⊆ met ∧ (∀ set ∈ stack, set.spreadNames ⊆ met) ∧
      ∀ name ∈ met, name ∈ seen ∨ ∀ x, cx.fragment? name = some x → x ∈ cx.reachFrom rounds seen stack := by
  induction rounds generalizing seen stack with
  | zero =>
    obtain rfl : stack = [] := List.length_eq_zero_iff.1 (by omega)
    exact ⟨seen, h, List.Subset.refl _, fun _ hset => absurd hset List.not_mem_nil, fun _ hname => .inl hname⟩
  | succ rounds ih =>
    cases stack with
    | nil =>
      exact ⟨seen, h, List.Subset.refl _, fun _ hset => absurd hset List.not_mem_nil, fun _ hname => .inl hname⟩
    | cons set stack =>
      have hless := cx.unseen_found seen set.spreadNames
      obtain ⟨met, hmet, hsub, hstack, hfound⟩ := ih h.round (by
        simp only [List.length_append, List.length_reverse, List.length_map, List.length_cons, foundIn] at hrounds ⊢
        omega)
      have hset : set.spreadNames ⊆ met := by
        intro name hname
        by_cases hseen : name ∈ seen
        · exact hsub (List.mem_append_left _ hseen)
        · exact hsub (List.mem_append_right _ (mem_newNames.2 ⟨hname, hseen⟩))
      refine ⟨met, hmet, List.Subset.trans (List.subset_append_left _ _) hsub, fun set' hset' => ?_,
        fun name hname => ?_⟩
      · rcases List.mem_cons.1 hset' with rfl | hset'
        · exact hset
        · exact hstack set' (List.mem_append_right _ hset')
      · rw [reachFrom_cons]
        rcases hfound name hname with hseen | hlater
        · refine (List.mem_append.1 hseen).imp_right fun hnew x hx => List.mem_append_left _ ?_
          exact mem_foundIn.2 ⟨name, (mem_newNames.1 hnew).1, (mem_newNames.1 hnew).2, hx⟩
        · exact .inr fun x hx => List.mem_append_right _ (hlater x hx)

/-- What is reached from spreads that were met was met, if all is explored. -/
theorem Explored.mem_of_reaches {met : List String} (h : cx.Explored met []) (hset : set.spreadNames ⊆ met)
    (hreach : Reaches cx.bodyOf set name) : name ∈ met := by
  induction hreach with
  | spread hs _ => exact hset (SelectionSet.mem_spreadNames.2 ⟨_, hs, rfl⟩)
  | through hs hbody _ ih =>
    refine ih ?_
    have hmem := hset (SelectionSet.mem_spreadNames.2 ⟨_, hs, rfl⟩)
    exact (h _ hmem _ hbody).resolve_left List.not_mem_nil

/-- The fragments that are found from a selection set are those that it reaches. -/
theorem mem_reachable : x ∈ cx.reachable set ↔ ∃ name, Reaches cx.bodyOf set name ∧ cx.fragment? name = some x := by
  constructor
  · intro h
    obtain ⟨start, hstart, name, -, hreach, hfound⟩ := reachFrom_sound h
    cases List.mem_singleton.1 hstart
    exact ⟨name, hreach, hfound⟩
  · rintro ⟨name, hreach, hfound⟩
    have hrounds : [set].length + unseen cx.names [] ≤ cx.fragments.length + 1 := by
      have hle := cx.unseen_names_le []
      rw [List.length_singleton]
      omega
    have hnone : cx.Explored [] [set] := fun _ hname => absurd hname List.not_mem_nil
    obtain ⟨met, hmet, -, hstack, hall⟩ := reachFrom_complete hnone hrounds
    have hmem := hmet.mem_of_reaches (hstack set (List.mem_singleton_self _)) hreach
    exact ((hall name hmem).resolve_left List.not_mem_nil) x hfound

/-- No two fragments of one name are found from a selection set. -/
theorem nodup_reachable (cx : Context) (set : SelectionSet) :
    ((cx.reachable set).map fun x => x.2.name.text).Nodup := cx.nodup_reachFrom _ _ _

end Search

end Context

end QueryBatch.Rules
