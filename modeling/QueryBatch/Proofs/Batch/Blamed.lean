import QueryBatch.Proofs.Batch.Compiled
import QueryBatch.Proofs.Registry.History

/-!
# Blamed fragments

An operation that needs tainted fragments is reported with the one that its closure lists first. What a closure lists
is the same in every state of the cache; the order is not.

* `Closure.blamed`: the tainted fragment that comes first in a closure.
* `Registry.BlamesOnly`: what makes sure that a selection set is blamed on no other fragment than one.
  `ClosureWalk.heeds_run`: a computation heeds this, if the closures that the cache keeps do.
* `Registry.Fork`: a selection set for which the order matters. `Registry.blamesOnly_or_fork`: there is no other.
* `Batch.blamed_after`: two histories of a cache blame an operation on one fragment, unless its first spread that leads
  to a tainted fragment leads to a fork.
-/

namespace QueryBatch

/-! ## First members with a property -/

namespace OrderedSet

variable {α : Type} [DecidableEq α] (s : OrderedSet α) (p : α → Bool)

theorem find?_insert (a : α) : (s.insert a).toList.find? p = (s.toList.find? p).or (if p a then some a else none) := by
  rw [toList_insert]
  split
  · rename_i ha
    cases hs : s.toList.find? p with
    | some b => rfl
    | none => rw [if_neg (List.find?_eq_none.1 hs a ha), Option.none_or]
  · rw [List.find?_append, List.find?_singleton]

theorem find?_insertAll (as : List α) : (s.insertAll as).toList.find? p = (s.toList.find? p).or (as.find? p) := by
  induction as generalizing s with
  | nil => exact Option.or_none.symm
  | cons a as ih =>
    have hstep : s.insertAll (a :: as) = (s.insert a).insertAll as := rfl
    rw [hstep, ih, find?_insert, Option.or_assoc, List.find?_cons]
    congr 1
    cases p a <;> rfl

theorem find?_union (t : OrderedSet α) :
    (s.union t).toList.find? p = (s.toList.find? p).or (t.toList.find? p) := find?_insertAll s p t.toList

end OrderedSet

/-! ## Blame -/

/-- The fragment of a closure that comes first among the tainted ones. -/
def Closure.blamed (c : Closure) (tainted : OrderedSet String) : Option String :=
  c.fragments.toList.find? fun name => name ∈ tainted

section Blame

variable {r : Registry} {tainted : OrderedSet String} {c known : Closure} {source : Nat} {body set : SelectionSet}
  {name blame : String}

namespace Closure

theorem mem_of_blamed (h : c.blamed tainted = some name) : name ∈ tainted ∧ name ∈ c.fragments :=
  ⟨of_decide_eq_true (List.find?_some (p := fun name => decide (name ∈ tainted)) h), List.mem_of_find?_eq_some h⟩

theorem blamed_eq_none_iff : c.blamed tainted = none ↔ ∀ name ∈ tainted, name ∉ c.fragments := by
  simp only [blamed, List.find?_eq_none, decide_eq_true_eq]
  exact ⟨fun h name ht hc => h name hc ht, fun h name hc ht => h name ht hc⟩

theorem blamed_insert (name : String) : ({ c with fragments := c.fragments.insert name } : Closure).blamed tainted =
    (c.blamed tainted).or (if name ∈ tainted then some name else none) := by
  simp only [blamed, OrderedSet.find?_insert, decide_eq_true_eq]

/-- What is absorbed is blamed only if nothing was to blame before: the fragment first, and then those that come with
it. -/
theorem blamed_absorb (name : String) (known : Closure) : (c.absorb name known).blamed tainted =
    (c.blamed tainted).or (if name ∈ tainted then some name else known.blamed tainted) := by
  have hinsert : ({ c with fragments := c.fragments.insert name } : Closure).blamed tainted =
      (c.blamed tainted).or (if name ∈ tainted then some name else none) := blamed_insert name
  simp only [blamed] at hinsert ⊢
  rw [absorb, OrderedSet.find?_union, hinsert, Option.or_assoc]
  split <;> simp

theorem IsClosureOf.blamed_eq_none_iff (h : c.IsClosureOf r source body) :
    c.blamed tainted = none ↔ ∀ name ∈ tainted, ¬ Reaches r.bodyOf body name := by
  simp only [Closure.blamed_eq_none_iff, h.mem_fragments]

end Closure

/-! ### What can be blamed -/

/-- A fragment that is tainted or leads to a tainted one. -/
def Registry.Spoilt (r : Registry) (tainted : OrderedSet String) (name : String) : Prop :=
  ∃ body, r.bodyOf name = some body ∧ ∃ last ∈ tainted, last = name ∨ Reaches r.bodyOf body last

/-- No tainted fragment but the one of this name can come first in a closure of the selection set: it is the only one
that is reached; or it is spread before all else that leads to a tainted fragment; or all that leads to one is a single
fragment, which is not tainted itself, and no other can come first in its closure. -/
inductive Registry.BlamesOnly (r : Registry) (tainted : OrderedSet String) : SelectionSet → String → Prop
  | sole {set : SelectionSet} {name : String} : (∀ last ∈ tainted, Reaches r.bodyOf set last → last = name) →
      BlamesOnly r tainted set name
  | first {set body : SelectionSet} {before after : List Spread} {s : Spread} :
      set.spreads = before ++ s :: after → (∀ t ∈ before, ¬ r.Spoilt tainted t.name.text) →
      r.bodyOf s.name.text = some body → s.name.text ∈ tainted → BlamesOnly r tainted set s.name.text
  | through {set body : SelectionSet} {outer name : String} :
      (∀ s ∈ set.spreads, r.Spoilt tainted s.name.text → s.name.text = outer) → outer ∉ tainted →
      r.bodyOf outer = some body → BlamesOnly r tainted body name → BlamesOnly r tainted set name

namespace Registry

/-- What leads to a tainted fragment does so by one of its spreads. -/
theorem exists_spoilt_of_reaches (h : Reaches r.bodyOf set name) (ht : name ∈ tainted) :
    ∃ s ∈ set.spreads, r.Spoilt tainted s.name.text := by
  cases h with
  | spread hs hb => exact ⟨_, hs, _, hb, _, ht, .inl rfl⟩
  | through hs hb hr => exact ⟨_, hs, _, hb, _, ht, .inr hr⟩

/-- A selection set that leads to no tainted fragment blames nothing. -/
theorem blamesOnly_of_not_spoilt {outer : String} (h : ¬ r.Spoilt tainted outer) (hb : r.bodyOf outer = some body) :
    outer ∉ tainted ∧ r.BlamesOnly tainted body name :=
  ⟨fun ht => h ⟨body, hb, outer, ht, .inl rfl⟩, .sole fun last ht hr => absurd ⟨body, hb, last, ht, .inr hr⟩ h⟩

end Registry

/-! ### Computations heed it -/

/-- A closure that blames no other fragment than those that its selection set may be blamed on. -/
def Closure.Heeds (c : Closure) (r : Registry) (tainted : OrderedSet String) (set : SelectionSet) : Prop :=
  ∀ blame, r.BlamesOnly tainted set blame → ∀ name, c.blamed tainted = some name → name = blame

/-- A cache that holds only closures that heed what their fragments may be blamed on. -/
def ClosureCache.AllHeed (r : Registry) (tainted : OrderedSet String) (entries : OrderedMap Closure) : Prop :=
  ∀ name known body, entries.find? name = some known → r.bodyOf name = some body → known.Heeds r tainted body

/-- A spread that brings in no other blame than on one fragment. -/
def Registry.SpreadsOnly (r : Registry) (tainted : OrderedSet String) (s : Spread) (blame : String) : Prop :=
  ∀ body, r.bodyOf s.name.text = some body →
    (s.name.text ∈ tainted ∧ s.name.text = blame) ∨ (s.name.text ∉ tainted ∧ r.BlamesOnly tainted body blame)

/-- A fragment that a computation has found to blame, or one that it can only find to blame. -/
def ClosureWalk.Points (r : Registry) (tainted : OrderedSet String) (blame : String) (w : ClosureWalk) : Prop :=
  w.closure.blamed tainted = some blame ∨
    w.closure.blamed tainted = none ∧ ∀ part ∈ w.stack, r.BlamesOnly tainted part.2 blame

namespace ClosureWalk

variable {entries : OrderedMap Closure} {w : ClosureWalk} {s : Spread}

/-- Blame stays where it is. -/
theorem blamed_meet (h : w.closure.blamed tainted = some blame) :
    (meet r entries source w s).closure.blamed tainted = some blame := by
  rcases meet_cases r entries source w s with ⟨known, -, hw⟩ | ⟨f, -, -, hw⟩ | ⟨f, -, -, hw⟩ | ⟨-, hw⟩ <;> rw [hw]
  · simp only [Closure.blamed_absorb, h, Option.some_or]
  · exact h
  · simp only [Closure.blamed_insert, h, Option.some_or]
  · exact h

theorem blamed_foldl_meet {spreads : List Spread} (h : w.closure.blamed tainted = some blame) :
    (spreads.foldl (meet r entries source) w).closure.blamed tainted = some blame := by
  induction spreads generalizing w with
  | nil => exact h
  | cons s rest ih => exact ih (blamed_meet h)

/-- Taking in a spread that brings in no other blame. -/
theorem points_meet (hholds : ClosureCache.Holds r entries) (hh : ClosureCache.AllHeed r tainted entries)
    (hs : r.SpreadsOnly tainted s blame) (hp : w.Points r tainted blame) :
    (meet r entries source w s).Points r tainted blame := by
  rcases hp with hfound | ⟨hnone, hstack⟩
  · exact .inl (blamed_meet hfound)
  rcases meet_cases r entries source w s with ⟨known, he, hw⟩ | ⟨f, -, -, hw⟩ | ⟨f, hf, -, hw⟩ | ⟨-, hw⟩ <;> rw [hw]
  · obtain ⟨f, hf, -⟩ := hholds _ _ he
    simp only [Points, Closure.blamed_absorb, hnone, Option.none_or]
    rcases hs _ (Registry.bodyOf_eq hf) with ⟨ht, hname⟩ | ⟨ht, honly⟩
    · exact .inl (by rw [if_pos ht, hname])
    · rw [if_neg ht]
      cases hknown : known.blamed tainted with
      | none => exact .inr ⟨rfl, hstack⟩
      | some other => exact .inl (congrArg some (hh _ _ _ he (Registry.bodyOf_eq hf) _ honly _ hknown))
  · exact .inr ⟨hnone, hstack⟩
  · simp only [Points, Closure.blamed_insert, hnone, Option.none_or]
    rcases hs _ (Registry.bodyOf_eq hf) with ⟨ht, hname⟩ | ⟨ht, honly⟩
    · exact .inl (by rw [if_pos ht, hname])
    · refine .inr ⟨if_neg ht, fun part hpart => ?_⟩
      rcases List.mem_cons.1 hpart with rfl | hpart
      · exact honly
      · exact hstack part hpart
  · exact .inr ⟨hnone, hstack⟩

theorem points_foldl_meet (hholds : ClosureCache.Holds r entries) (hh : ClosureCache.AllHeed r tainted entries)
    {spreads : List Spread} (hs : ∀ s ∈ spreads, r.SpreadsOnly tainted s blame) (hp : w.Points r tainted blame) :
    (spreads.foldl (meet r entries source) w).Points r tainted blame := by
  induction spreads generalizing w with
  | nil => exact hp
  | cons s rest ih =>
    exact ih (fun t ht => hs t (List.mem_cons_of_mem _ ht)) (points_meet hholds hh (hs s List.mem_cons_self) hp)

/-- Looking at a selection set that brings in no other blame. -/
theorem points_round (hholds : ClosureCache.Holds r entries) (hh : ClosureCache.AllHeed r tainted entries)
    {part : Nat × SelectionSet} {rest : List (Nat × SelectionSet)} (hstack : w.stack = part :: rest)
    (hp : w.Points r tainted blame) :
    (part.2.spreads.foldl (meet r entries part.1) { w with stack := rest }).Points r tainted blame := by
  rcases hp with hfound | ⟨hnone, honly⟩
  · exact .inl (blamed_foldl_meet hfound)
  have hrest : ({ w with stack := rest } : ClosureWalk).Points r tainted blame :=
    .inr ⟨hnone, fun other ho => honly other (by rw [hstack]; exact List.mem_cons_of_mem _ ho)⟩
  have hpart : r.BlamesOnly tainted part.2 blame := honly part (by rw [hstack]; exact List.mem_cons_self)
  cases hpart with
  | sole hsole =>
    refine points_foldl_meet hholds hh (fun s hs body hb => ?_) hrest
    by_cases ht : s.name.text ∈ tainted
    · exact .inl ⟨ht, hsole _ ht (.spread hs hb)⟩
    · exact .inr ⟨ht, .sole fun last hlast hr => hsole last hlast (.through hs hb hr)⟩
  | first hspreads hbefore hb ht =>
    rename_i before after s
    obtain ⟨f, hf, -⟩ := Registry.exists_of_bodyOf hb
    -- nothing is blamed before the spread, and what is spread after it comes too late
    rw [hspreads, List.foldl_append, List.foldl_cons]
    have hpoints : (before.foldl (meet r entries part.1) { w with stack := rest }).Points r tainted s.name.text :=
      points_foldl_meet hholds hh
        (fun t htm body hbody => .inr (Registry.blamesOnly_of_not_spoilt (hbefore t htm) hbody)) hrest
    have hspread : (meet r entries part.1 (before.foldl (meet r entries part.1) { w with stack := rest }) s).Points r
        tainted s.name.text := points_meet hholds hh (fun _ _ => .inl ⟨ht, rfl⟩) hpoints
    rcases hspread with hfound | ⟨hnone', -⟩
    · exact .inl (blamed_foldl_meet hfound)
    · exact absurd ((accounts_meet hholds _ _ s).found f hf) (Closure.blamed_eq_none_iff.1 hnone' _ ht)
  | through hall ht hb hinner =>
    refine points_foldl_meet hholds hh (fun s hs body hbody => ?_) hrest
    by_cases hspoilt : r.Spoilt tainted s.name.text
    · rw [hall s hs hspoilt] at hbody ⊢
      cases hb.symm.trans hbody
      exact .inr ⟨ht, hinner⟩
    · exact .inr (Registry.blamesOnly_of_not_spoilt hspoilt hbody)

theorem points_run (hholds : ClosureCache.Holds r entries) (hh : ClosureCache.AllHeed r tainted entries)
    (rounds : Nat) (hp : w.Points r tainted blame) : (run r entries rounds w).Points r tainted blame := by
  induction rounds generalizing w with
  | zero => exact hp
  | succ rounds ih =>
    unfold run
    split
    · exact hp
    · rename_i source body rest hstack
      exact ih (points_round hholds hh hstack hp)

/-- A computation heeds what its selection set may be blamed on. -/
theorem heeds_run (hholds : ClosureCache.Holds r entries) (hh : ClosureCache.AllHeed r tainted entries)
    (rounds source : Nat) (set : SelectionSet) (hits : Nat) :
    (run r entries rounds { stack := [(source, set)], hits }).closure.Heeds r tainted set := by
  intro blame honly name hname
  have hstart : ({ stack := [(source, set)], hits } : ClosureWalk).Points r tainted blame := by
    refine .inr ⟨rfl, fun part hpart => ?_⟩
    cases List.mem_singleton.1 hpart
    exact honly
  rcases points_run hholds hh rounds hstart with hfound | ⟨hnone, -⟩
  · exact Option.some.inj (hname.symm.trans hfound)
  · rw [hnone] at hname
    cases hname

end ClosureWalk

/-! ### Caches heed it -/

namespace ClosureCache

variable {cache : ClosureCache}

/-- A cache of closures, all of which heed what their fragments may be blamed on. -/
structure Heeding (r : Registry) (tainted : OrderedSet String) (cache : ClosureCache) : Prop where
  holds : Holds r cache.entries
  heed : AllHeed r tainted cache.entries

theorem heeding_empty (r : Registry) (tainted : OrderedSet String) : Heeding r tainted {} :=
  ⟨holds_empty r, fun _ _ _ h => by cases h⟩

/-- The closure of a fragment heeds what it may be blamed on, and so do all that are kept then. -/
theorem heeding_closureOf (h : cache.Heeding r tainted) (name : String) :
    (cache.closureOf r name).2.Heeding r tainted ∧
      ∀ known body, (cache.closureOf r name).1 = some known → r.bodyOf name = some body →
        known.Heeds r tainted body := by
  suffices AllHeed r tainted (cache.closureOf r name).2.entries ∧
      ∀ known body, (cache.closureOf r name).1 = some known → r.bodyOf name = some body →
        known.Heeds r tainted body from ⟨⟨(closureOf_spec h.holds name).1, this.1⟩, this.2⟩
  cases hc : cache.entries.find? name with
  | some known =>
    simp only [closureOf, get?, hc]
    refine ⟨h.heed, fun known' body hk hb => ?_⟩
    cases hk
    exact h.heed _ _ _ hc hb
  | none =>
    cases hf : r.fragment? name with
    | none =>
      simp only [closureOf, get?, hc, hf]
      exact ⟨h.heed, fun known' body hk => by cases hk⟩
    | some f =>
      have hnew : ∀ body, r.bodyOf name = some body →
          (cache.walk r f.source f.definition.body).closure.Heeds r tainted body := fun body hb => by
        cases (Registry.bodyOf_eq hf).symm.trans hb
        exact ClosureWalk.heeds_run h.holds h.heed _ _ _ _
      simp only [closureOf, get?, hc, hf]
      refine ⟨fun other known body ho hb => ?_, fun known body hk hb => ?_⟩
      · rw [OrderedMap.find?_insert] at ho
        split at ho
        · rename_i heq
          cases ho
          exact hnew body (by rw [heq]; exact hb)
        · exact h.heed _ _ _ ho hb
      · cases hk
        exact hnew body hb

/-- What a spread may be blamed on: on its fragment, if that is tainted, and else on a tainted one that comes with it,
which heeds what the fragment may be blamed on. -/
structure Charges (r : Registry) (tainted : OrderedSet String) (s : Spread) (blame : Option String) : Prop where
  eq_none : blame = none ↔ ¬ r.Spoilt tainted s.name.text
  eq_self : s.name.text ∈ tainted → ∀ name, blame = some name → name = s.name.text
  through : s.name.text ∉ tainted → ∀ name, blame = some name → name ∈ tainted ∧
    ∀ body, r.bodyOf s.name.text = some body → Reaches r.bodyOf body name ∧
      ∀ other, r.BlamesOnly tainted body other → name = other

variable {state : Closure × ClosureCache} {s : Spread}

theorem resolveSpread_snd (source : Nat) (state : Closure × ClosureCache) (s : Spread) :
    (resolveSpread r source state s).2 = (state.2.closureOf r s.name.text).2 := by
  obtain ⟨found, cache⟩ := state
  simp only [resolveSpread]
  generalize cache.closureOf r s.name.text = answer
  obtain ⟨known | _, cache'⟩ := answer <;> rfl

theorem heeding_resolveSpread (source : Nat) (s : Spread) (h : state.2.Heeding r tainted) :
    (resolveSpread r source state s).2.Heeding r tainted := by
  rw [resolveSpread_snd]
  exact (heeding_closureOf h _).1

/-- One more spread is blamed only if nothing was to blame before. -/
theorem blamed_resolveSpread (source : Nat) (s : Spread) (h : state.2.Heeding r tainted) :
    ∃ blame, Charges r tainted s blame ∧
      (resolveSpread r source state s).1.blamed tainted = (state.1.blamed tainted).or blame := by
  obtain ⟨found, cache⟩ := state
  have hspec := (closureOf_spec h.holds s.name.text).2
  have hheeds := (heeding_closureOf h s.name.text).2
  generalize hanswer : cache.closureOf r s.name.text = answer at hspec hheeds
  obtain ⟨known?, cache'⟩ := answer
  cases hf : r.fragment? s.name.text with
  | none =>
    have hnone : r.bodyOf s.name.text = none := by rw [Registry.bodyOf, hf, Option.map_none]
    simp only [hf] at hspec
    subst hspec
    refine ⟨none, ⟨iff_of_true rfl ?_, fun _ _ hb => ?_, fun _ _ hb => ?_⟩, ?_⟩
    · rintro ⟨body, hb, -⟩
      cases hnone.symm.trans hb
    · cases hb
    · cases hb
    · simp only [resolveSpread, hanswer, Option.or_none]
      rfl
  | some f =>
    have hbody := Registry.bodyOf_eq hf
    simp only [hf] at hspec
    obtain ⟨known, hk, hc⟩ := hspec
    subst hk
    refine ⟨if s.name.text ∈ tainted then some s.name.text else known.blamed tainted, ?_, ?_⟩
    · by_cases ht : s.name.text ∈ tainted
      · rw [if_pos ht]
        refine ⟨iff_of_false (Option.some_ne_none _) (not_not_intro ⟨_, hbody, _, ht, .inl rfl⟩), fun _ name hb => ?_,
          fun hn => absurd ht hn⟩
        exact (Option.some.inj hb).symm
      · rw [if_neg ht]
        refine ⟨?_, fun hn => absurd hn ht, fun _ name hb => ⟨(Closure.mem_of_blamed hb).1, fun body hb' => ?_⟩⟩
        · rw [hc.blamed_eq_none_iff]
          constructor
          · rintro hnone ⟨body, hb, last, hlast, rfl | hr⟩
            · exact ht hlast
            · cases hbody.symm.trans hb
              exact hnone last hlast hr
          · exact fun hspoilt last hlast hr => hspoilt ⟨_, hbody, last, hlast, .inr hr⟩
        · cases hbody.symm.trans hb'
          exact ⟨(hc.mem_fragments _).1 (Closure.mem_of_blamed hb).2,
            fun other honly => hheeds known _ rfl hbody other honly name hb⟩
    · simp only [resolveSpread, hanswer, Closure.blamed_absorb]

theorem heeding_foldl_resolveSpread (source : Nat) (spreads : List Spread) (h : state.2.Heeding r tainted) :
    (spreads.foldl (resolveSpread r source) state).2.Heeding r tainted := by
  induction spreads generalizing state with
  | nil => exact h
  | cons s rest ih => exact ih (heeding_resolveSpread source s h)

/-- Spreads that lead to no tainted fragment are not blamed. -/
theorem blamed_foldl_of_not_spoilt (source : Nat) (spreads : List Spread) (h : state.2.Heeding r tainted)
    (hs : ∀ s ∈ spreads, ¬ r.Spoilt tainted s.name.text) :
    (spreads.foldl (resolveSpread r source) state).1.blamed tainted = state.1.blamed tainted := by
  induction spreads generalizing state with
  | nil => rfl
  | cons s rest ih =>
    obtain ⟨blame, hcharges, hstep⟩ := blamed_resolveSpread source s h
    rw [hcharges.eq_none.2 (hs s List.mem_cons_self), Option.or_none] at hstep
    rw [List.foldl_cons, ih (heeding_resolveSpread source s h) fun t ht => hs t (List.mem_cons_of_mem _ ht), hstep]

/-- Blame stays where it is. -/
theorem blamed_foldl_of_some {source : Nat} {spreads : List Spread} (h : state.2.Heeding r tainted)
    (hb : state.1.blamed tainted = some name) :
    (spreads.foldl (resolveSpread r source) state).1.blamed tainted = some name := by
  induction spreads generalizing state with
  | nil => exact hb
  | cons s rest ih =>
    obtain ⟨blame, -, hstep⟩ := blamed_resolveSpread source s h
    refine ih (heeding_resolveSpread source s h) ?_
    rw [hstep, hb, Option.some_or]

/-- A selection set is blamed on what its first spread that leads to a tainted fragment may be blamed on. -/
theorem blamed_resolve (source : Nat) (h : cache.Heeding r tainted) {before after : List Spread}
    (hset : set.spreads = before ++ s :: after) (hbefore : ∀ t ∈ before, ¬ r.Spoilt tainted t.name.text)
    (hs : r.Spoilt tainted s.name.text) : Charges r tainted s ((cache.resolve r source set).1.blamed tainted) := by
  have hinit : (before.foldl (resolveSpread r source) (({} : Closure), cache)).1.blamed tainted = none :=
    blamed_foldl_of_not_spoilt source before h hbefore
  have hheeding : (before.foldl (resolveSpread r source) (({} : Closure), cache)).2.Heeding r tainted :=
    heeding_foldl_resolveSpread source before h
  obtain ⟨blame, hcharges, hstep⟩ := blamed_resolveSpread source s hheeding
  obtain ⟨name, rfl⟩ := Option.ne_none_iff_exists'.1 fun hn => hcharges.eq_none.1 hn hs
  rw [hinit] at hstep
  unfold resolve
  rw [hset, List.foldl_append, List.foldl_cons,
    blamed_foldl_of_some (heeding_resolveSpread source s hheeding) hstep]
  exact hcharges

/-- A cache heeds what its fragments may be blamed on after every history. -/
theorem heeding_after (r : Registry) (tainted : OrderedSet String) (history : List Call) :
    (after r history).Heeding r tainted := by
  have hstep : ∀ cache call, Heeding r tainted cache → Heeding r tainted (ask r cache call) := fun cache call h => by
    cases call with
    | resolve source body =>
      have hspreads : (body.spreads.foldl (resolveSpread r source) (({} : Closure), cache)).2.Heeding r tainted :=
        heeding_foldl_resolveSpread source body.spreads h
      exact hspreads
    | closureOf name => exact (heeding_closureOf h name).1
  have hrun : ∀ cache, Heeding r tainted cache → Heeding r tainted (history.foldl (ask r) cache) := by
    induction history with
    | nil => exact fun _ h => h
    | cons call rest ih => exact fun cache h => ih _ (hstep cache call h)
  exact hrun {} (heeding_empty r tainted)

end ClosureCache

/-! ## Forks -/

namespace Registry

/-- The first spread of a selection set that leads to a tainted fragment is not of a tainted one, and a spread of
another fragment after it leads to a tainted one, too. -/
def Fork (r : Registry) (tainted : OrderedSet String) (set : SelectionSet) : Prop :=
  ∃ before s after, set.spreads = before ++ s :: after ∧ (∀ t ∈ before, ¬ r.Spoilt tainted t.name.text) ∧
    r.Spoilt tainted s.name.text ∧ s.name.text ∉ tainted ∧
    ∃ other ∈ after, r.Spoilt tainted other.name.text ∧ other.name.text ≠ s.name.text

/-- The first spread of a selection set that leads to a tainted fragment is not of a tainted one, and comes to a fork,
in a fragment that is not tainted, which leads to both of two fragments. -/
def ForksTo (r : Registry) (tainted : OrderedSet String) (set : SelectionSet) (name other : String) : Prop :=
  ∃ before s after, set.spreads = before ++ s :: after ∧ (∀ t ∈ before, ¬ r.Spoilt tainted t.name.text) ∧
    s.name.text ∉ tainted ∧ ∃ outer inner, (outer = s.name.text ∨ LeadsTo r.bodyOf s.name.text outer) ∧
      outer ∉ tainted ∧ r.bodyOf outer = some inner ∧ r.Fork tainted inner ∧
      Reaches r.bodyOf inner name ∧ Reaches r.bodyOf inner other

/-- A selection set that leads to a tainted fragment has a first spread that does. -/
theorem exists_first_spoilt (h : Reaches r.bodyOf set name) (ht : name ∈ tainted) :
    ∃ before s after, set.spreads = before ++ s :: after ∧ (∀ t ∈ before, ¬ r.Spoilt tainted t.name.text) ∧
      r.Spoilt tainted s.name.text := by
  classical
  obtain ⟨s, hs, hspoilt⟩ := exists_spoilt_of_reaches h ht
  have hsome := List.find?_isSome (p := fun s : Spread => decide (r.Spoilt tainted s.name.text)).2
    ⟨s, hs, decide_eq_true hspoilt⟩
  obtain ⟨first, hfirst⟩ := Option.isSome_iff_exists.1 hsome
  obtain ⟨hp, before, after, hset, hbefore⟩ := List.find?_eq_some_iff_append.1 hfirst
  exact ⟨before, first, after, hset, fun t ht => by simpa using hbefore t ht, of_decide_eq_true hp⟩

/-- A selection set that leads to a tainted fragment is to blame on its first spread, or is a fork, or leads to tainted
fragments by way of a single fragment, which is not tainted. -/
theorem blamesOnly_or_fork_or_single (h : Reaches r.bodyOf set name) (ht : name ∈ tainted) :
    (∃ blame, r.BlamesOnly tainted set blame) ∨ r.Fork tainted set ∨
      ∃ outer, outer ∉ tainted ∧ ∀ s ∈ set.spreads, r.Spoilt tainted s.name.text → s.name.text = outer := by
  obtain ⟨before, s, after, hset, hbefore, hs⟩ := exists_first_spoilt h ht
  by_cases hst : s.name.text ∈ tainted
  · obtain ⟨body, hb, -⟩ := hs
    exact .inl ⟨_, .first hset hbefore hb hst⟩
  · refine .inr (or_iff_not_imp_left.2 fun hfork => ⟨s.name.text, hst, fun other ho hspoilt => ?_⟩)
    by_contra hne
    rw [hset, List.mem_append, List.mem_cons] at ho
    rcases ho with ho | rfl | ho
    · exact hbefore other ho hspoilt
    · exact hne rfl
    · exact hfork ⟨before, s, after, hset, hbefore, hs, hst, other, ho, hspoilt, hne⟩

/-- If the order of a closure can matter for the blame, then for a fork that leads to all tainted fragments that the
selection set leads to. -/
theorem blamesOnly_or_fork (h : Reaches r.bodyOf set name) (ht : name ∈ tainted) :
    (∃ blame, r.BlamesOnly tainted set blame) ∨
      ∃ inner, (inner = set ∨ ∃ outer, Reaches r.bodyOf set outer ∧ outer ∉ tainted ∧ r.bodyOf outer = some inner) ∧
        r.Fork tainted inner ∧ ∀ last ∈ tainted, Reaches r.bodyOf set last → Reaches r.bodyOf inner last := by
  induction h with
  | spread hs hb =>
    rcases blamesOnly_or_fork_or_single (.spread hs hb) ht with honly | hfork | ⟨outer, houter, hall⟩
    · exact .inl honly
    · exact .inr ⟨_, .inl rfl, hfork, fun last _ hr => hr⟩
    · exact absurd (hall _ hs ⟨_, hb, _, ht, .inl rfl⟩ ▸ ht) houter
  | @through set body s name hs hb hr ih =>
    rcases blamesOnly_or_fork_or_single (.through hs hb hr) ht with honly | hfork | ⟨outer, houter, hall⟩
    · exact .inl honly
    · exact .inr ⟨_, .inl rfl, hfork, fun last _ hr => hr⟩
    -- all tainted fragments lie behind the one that is spread here
    have hname := hall s hs ⟨_, hb, _, ht, .inr hr⟩
    have hbehind : ∀ last ∈ tainted, Reaches r.bodyOf set last → Reaches r.bodyOf body last := by
      intro last hlast hreach
      cases hreach with
      | spread hs' hb' => exact absurd (hall _ hs' ⟨_, hb', _, hlast, .inl rfl⟩ ▸ hlast) houter
      | through hs' hb' hr' =>
        rw [hall _ hs' ⟨_, hb', _, hlast, .inr hr'⟩, ← hname, hb] at hb'
        cases hb'
        exact hr'
    rcases ih ht with ⟨blame, honly⟩ | ⟨inner, hinner, hfork, hall'⟩
    · exact .inl ⟨blame, .through hall houter (hname ▸ hb) honly⟩
    · refine .inr ⟨inner, .inr ?_, hfork, fun last hlast hr => hall' last hlast (hbehind last hlast hr)⟩
      rcases hinner with rfl | ⟨n, hn, hnt, hnb⟩
      · exact ⟨s.name.text, .spread hs hb, hname ▸ houter, hb⟩
      · exact ⟨n, .through hs hb hn, hnt, hnb⟩

end Registry

end Blame

/-! ## Two states of a cache -/

namespace Batch

variable {r : Registry} {tainted : OrderedSet String} {op : RegisteredOperation} {closure : Closure}

theorem verdict_eq_tainted_iff {compiled : List RegisteredOperation} {name : String}
    (h : closure.missing.toList = []) :
    verdict tainted compiled op closure = .tainted name ↔ closure.blamed tainted = some name := by
  unfold verdict Closure.blamed
  rw [h]
  cases closure.fragments.toList.find? fun name => name ∈ tainted with
  | some blame => simp
  | none =>
    cases compiled.find? fun other => other.source == op.source <;> simp

/-- After every history of a cache, an operation that lacks no fragment is reported with the tainted fragment that its
closure lists first, if one is reached. Two histories agree in whether there is one, and in which it is, unless the
operation comes to a fork first, which leads to the two fragments that the histories blame. -/
theorem blamed_after (r : Registry) (tainted : OrderedSet String) (op : RegisteredOperation)
    (hcomplete : ¬ r.Lacking op.definition.body) (history history' : List ClosureCache.Call) :
    let closure := ((ClosureCache.after r history).resolve r op.source op.definition.body).1
    let closure' := ((ClosureCache.after r history').resolve r op.source op.definition.body).1
    (∀ compiled name, verdict tainted compiled op closure = .tainted name ↔ closure.blamed tainted = some name) ∧
    (∀ name, closure.blamed tainted = some name → name ∈ tainted ∧ Reaches r.bodyOf op.definition.body name) ∧
    (closure.blamed tainted = none ↔ ∀ name ∈ tainted, ¬ Reaches r.bodyOf op.definition.body name) ∧
    (closure.blamed tainted = none ↔ closure'.blamed tainted = none) ∧
    ∀ name name', closure.blamed tainted = some name → closure'.blamed tainted = some name' →
      name = name' ∨ r.ForksTo tainted op.definition.body name name' := by
  intro closure closure'
  have hspec : closure.IsClosureOf r op.source op.definition.body :=
    (ClosureCache.resolve_spec (ClosureCache.holds_after r history) _ _).1
  have hspec' : closure'.IsClosureOf r op.source op.definition.body :=
    (ClosureCache.resolve_spec (ClosureCache.holds_after r history') _ _).1
  have hreached : ∀ name, closure.blamed tainted = some name →
      name ∈ tainted ∧ Reaches r.bodyOf op.definition.body name := fun name hb =>
    (Closure.mem_of_blamed hb).imp_right (hspec.mem_fragments name).1
  refine ⟨fun _ _ => verdict_eq_tainted_iff (hspec.missing_eq_nil_iff.2 hcomplete), hreached, hspec.blamed_eq_none_iff,
    hspec.blamed_eq_none_iff.trans hspec'.blamed_eq_none_iff.symm, fun name name' hb hb' => ?_⟩
  obtain ⟨ht, hr⟩ := hreached name hb
  obtain ⟨before, s, after, hset, hbefore, hs⟩ := Registry.exists_first_spoilt hr ht
  have hcharges := ClosureCache.blamed_resolve op.source (ClosureCache.heeding_after r tainted history) hset hbefore hs
  have hcharges' :=
    ClosureCache.blamed_resolve op.source (ClosureCache.heeding_after r tainted history') hset hbefore hs
  by_cases hst : s.name.text ∈ tainted
  · exact .inl ((hcharges.eq_self hst name hb).trans (hcharges'.eq_self hst name' hb').symm)
  obtain ⟨body, hbody, -⟩ := hs
  obtain ⟨-, hthrough⟩ := hcharges.through hst name hb
  obtain ⟨ht', hthrough'⟩ := hcharges'.through hst name' hb'
  obtain ⟨hreach, honly⟩ := hthrough body hbody
  obtain ⟨hreach', honly'⟩ := hthrough' body hbody
  rcases Registry.blamesOnly_or_fork hreach ht with ⟨blame, hblame⟩ | ⟨inner, hinner, hfork, hall⟩
  · exact .inl ((honly blame hblame).trans (honly' blame hblame).symm)
  · refine .inr ⟨before, s, after, hset, hbefore, hst, ?_⟩
    rcases hinner with rfl | ⟨outer, houter, hot, hinner⟩
    · exact ⟨_, _, .inl rfl, hst, hbody, hfork, hall name ht hreach, hall name' ht' hreach'⟩
    · exact ⟨outer, inner, .inr ⟨body, hbody, houter⟩, hot, hinner, hfork, hall name ht hreach, hall name' ht' hreach'⟩

/-- A fragment that leads to two others, to the last one by way of the first that it spreads; an operation that spreads
it, and one that spreads the fragment on the way. -/
def forkRegistry : Registry :=
  .ofMerges [
    (0, sampleFile "f.js" ("fragment A on Query \x7b ...B ...C \x7d fragment B on Query \x7b ...D \x7d " ++
      "fragment C on Query \x7b c \x7d fragment D on Query \x7b d \x7d")),
    (1, sampleFile "a.js" "query A \x7b ...A \x7d"), (2, sampleFile "b.js" "query B \x7b ...B \x7d")]

def forkOperation (index : Nat) : RegisteredOperation := forkRegistry.operations.getD index default

def forkTainted : OrderedSet String := .ofList ["C", "D"]

/-- The selection set that a cache is asked for before, if it is asked for one. -/
def forkSet : Nat × SelectionSet := (2, (forkOperation 1).definition.body)

theorem not_lacking_fork : ¬ forkRegistry.Lacking (forkOperation 0).definition.body :=
  (ClosureCache.resolve_spec (ClosureCache.holds_empty _) 1 _).1.missing_eq_nil_iff.1 (by decide +kernel)

theorem blamed_after_fork : (¬ forkRegistry.Lacking (forkOperation 0).definition.body) ∧
    forkRegistry.ForksTo forkTainted (forkOperation 0).definition.body "C" "D" := by
  have hafter := (blamed_after forkRegistry forkTainted (forkOperation 0) not_lacking_fork []
    [.resolve forkSet.1 forkSet.2]).2.2.2.2 "C" "D" (by decide +kernel) (by decide +kernel)
  exact ⟨not_lacking_fork, hafter.resolve_left (by decide)⟩

/-- What a cache was asked for before can change the blame. -/
theorem blamed_not_independent : ¬ ∀ (r : Registry) (tainted : OrderedSet String) (source : Nat) (body : SelectionSet),
    ¬ r.Lacking body → ∀ sets sets' : List (Nat × SelectionSet),
      ((ClosureCache.after r (sets.map fun set => .resolve set.1 set.2)).resolve r source body).1.blamed tainted =
        ((ClosureCache.after r (sets'.map fun set => .resolve set.1 set.2)).resolve r source body).1.blamed
          tainted := by
  intro h
  have hsame := h forkRegistry forkTainted 1 (forkOperation 0).definition.body not_lacking_fork [] [forkSet]
  revert hsame
  decide +kernel

end Batch

end QueryBatch
