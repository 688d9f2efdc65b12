import QueryBatch.Closure
import QueryBatch.Proofs.Reachability

/-!
# Closures hold what is reached

The closure that a cache gives for a selection set is the set of names that the selection set reaches, and of the
spreads among them that name no fragment, whatever was asked of the cache before.

* `Closure.IsClosureOf`: a closure holds just what a selection set depends on.
* `ClosureWalk.Inv`: the invariant of a computation. Every selection set found is on the stack or settled.
* `ClosureWalk.run_isClosureOf`: a computation ends in the closure of its start, if the cache holds closures.
* `ClosureCache.resolve_spec`: a cache of closures answers with closures and stays one.
* `ClosureCache.resolve_after`: every answer is a closure, after every history of a cache.
-/

namespace QueryBatch

/-! ## What a selection set depends on -/

/-- The selection set of the fragment that a name stands for. -/
def Registry.bodyOf (r : Registry) (name : String) : Option SelectionSet :=
  (r.fragment? name).map fun f => f.definition.body

/-- The selection sets that a closure is about, each with its source: the one it starts from, and those of the fragments
reached from there. -/
inductive Registry.Part (r : Registry) (start : Nat × SelectionSet) : Nat × SelectionSet → Prop
  | start : Part r start start
  | fragment {name : String} {f : RegisteredFragment} : Reaches r.bodyOf start.2 name → r.fragment? name = some f →
      Part r start (f.source, f.definition.body)

/-- A spread that is written in a selection set of a source and names no fragment. -/
def Registry.Lacks (r : Registry) (part : Nat × SelectionSet) (m : MissingSpread) : Prop :=
  ∃ s ∈ part.2.spreads, r.fragment? s.name.text = none ∧ m = ⟨s.name.text, part.1, s.name.span⟩

/-- A name that no fragment has is spread in a selection set or in a fragment that it reaches. -/
def Registry.Lacking (r : Registry) (body : SelectionSet) : Prop :=
  ∃ set, (set = body ∨ ∃ name, Reaches r.bodyOf body name ∧ r.bodyOf name = some set) ∧
    ∃ s ∈ set.spreads, r.bodyOf s.name.text = none

/-- A closure holds the names that a selection set reaches, and the spreads of its parts that name no fragment. -/
structure Closure.IsClosureOf (c : Closure) (r : Registry) (source : Nat) (body : SelectionSet) : Prop where
  mem_fragments : ∀ name, name ∈ c.fragments ↔ Reaches r.bodyOf body name
  mem_missing : ∀ m, m ∈ c.missing ↔ ∃ part, r.Part (source, body) part ∧ r.Lacks part m

section Parts

variable {r : Registry} {start part : Nat × SelectionSet} {name : String} {f : RegisteredFragment}

theorem Registry.bodyOf_eq (h : r.fragment? name = some f) : r.bodyOf name = some f.definition.body := by
  simp [bodyOf, h]

theorem Registry.exists_of_bodyOf {body : SelectionSet} (h : r.bodyOf name = some body) :
    ∃ f, r.fragment? name = some f ∧ f.definition.body = body := by
  simpa [bodyOf] using h

/-- The fragments that a part spreads are reached. -/
theorem Registry.Part.reaches (h : r.Part start part) {s : Spread} (hs : s ∈ part.2.spreads)
    (hf : r.fragment? s.name.text = some f) : Reaches r.bodyOf start.2 s.name.text := by
  cases h with
  | start => exact .spread hs (bodyOf_eq hf)
  | fragment hr hg => exact hr.snoc (bodyOf_eq hg) hs (bodyOf_eq hf)

/-- What a part reaches is reached. -/
theorem Registry.Part.trans_reaches (h : r.Part start part) (h' : Reaches r.bodyOf part.2 name) :
    Reaches r.bodyOf start.2 name := by
  cases h with
  | start => exact h'
  | fragment hr hg => exact hr.trans (bodyOf_eq hg) h'

/-- The parts of a part are parts. -/
theorem Registry.Part.trans {inner : Nat × SelectionSet} (h : r.Part start part) (h' : r.Part part inner) :
    r.Part start inner := by
  cases h' with
  | start => exact h
  | fragment hr hg => exact .fragment (h.trans_reaches hr) hg

end Parts

/-! ## Closures that account for spreads -/

namespace Closure

/-- A closure that holds all that another one holds. -/
structure Within (c d : Closure) : Prop where
  fragments : ∀ name ∈ c.fragments, name ∈ d.fragments
  missing : ∀ m ∈ c.missing, m ∈ d.missing

theorem Within.refl (c : Closure) : c.Within c := ⟨fun _ h => h, fun _ h => h⟩

theorem Within.trans {c d e : Closure} (h : c.Within d) (h' : d.Within e) : c.Within e :=
  ⟨fun n hn => h'.fragments n (h.fragments n hn), fun m hm => h'.missing m (h.missing m hm)⟩

/-- A spread of a source is among the fragments or among the missing spreads. -/
structure Accounts (c : Closure) (r : Registry) (source : Nat) (s : Spread) : Prop where
  found : ∀ f, r.fragment? s.name.text = some f → s.name.text ∈ c.fragments
  lacking : r.fragment? s.name.text = none → ⟨s.name.text, source, s.name.span⟩ ∈ c.missing

theorem Accounts.of_found {c : Closure} {r : Registry} {source : Nat} {s : Spread} {f : RegisteredFragment}
    (hf : r.fragment? s.name.text = some f) (h : s.name.text ∈ c.fragments) : c.Accounts r source s :=
  ⟨fun _ _ => h, fun hn => absurd (hf.symm.trans hn) (Option.some_ne_none f)⟩

theorem Accounts.of_lacking {c : Closure} {r : Registry} {source : Nat} {s : Spread}
    (hn : r.fragment? s.name.text = none) (h : ⟨s.name.text, source, s.name.span⟩ ∈ c.missing) :
    c.Accounts r source s :=
  ⟨fun f hf => absurd (hf.symm.trans hn) (Option.some_ne_none f), fun _ => h⟩

/-- All spreads of a selection set are accounted for. -/
def Settles (c : Closure) (r : Registry) (part : Nat × SelectionSet) : Prop :=
  ∀ s ∈ part.2.spreads, c.Accounts r part.1 s

variable {c d known : Closure} {r : Registry} {source : Nat} {body : SelectionSet} {s : Spread}
  {part : Nat × SelectionSet} {name other : String} {m : MissingSpread} {f : RegisteredFragment}

theorem Accounts.mono (h : c.Accounts r source s) (hw : c.Within d) : d.Accounts r source s :=
  ⟨fun f hf => hw.fragments _ (h.found f hf), fun hn => hw.missing _ (h.lacking hn)⟩

theorem Settles.mono (h : c.Settles r part) (hw : c.Within d) : d.Settles r part := fun s hs => (h s hs).mono hw

/-- A closure of a selection set settles all its parts. -/
theorem IsClosureOf.settles (h : c.IsClosureOf r source body) (hp : r.Part (source, body) part) : c.Settles r part :=
  fun s hs => ⟨fun _ hf => (h.mem_fragments _).2 (hp.reaches hs hf),
    fun hn => (h.mem_missing _).2 ⟨part, hp, s, hs, hn, rfl⟩⟩

/-- A closure that settles its start and every fragment it holds holds all that is reached. -/
theorem mem_of_reaches (hs : c.Settles r (source, body))
    (hc : ∀ name ∈ c.fragments, ∀ f, r.fragment? name = some f → c.Settles r (f.source, f.definition.body))
    (h : Reaches r.bodyOf body name) : name ∈ c.fragments := by
  induction h generalizing source with
  | spread hmem hb =>
    obtain ⟨f, hf, -⟩ := Registry.exists_of_bodyOf hb
    exact (hs _ hmem).found f hf
  | through hmem hb _ ih =>
    obtain ⟨f, hf, rfl⟩ := Registry.exists_of_bodyOf hb
    exact ih (hc _ ((hs _ hmem).found f hf) f hf)

/-- A closure is one of its start if it is sound and settles the start and every fragment it holds. -/
theorem isClosureOf_of_settles (hf : ∀ name ∈ c.fragments, Reaches r.bodyOf body name)
    (hm : ∀ m ∈ c.missing, ∃ part, r.Part (source, body) part ∧ r.Lacks part m) (hs : c.Settles r (source, body))
    (hc : ∀ name ∈ c.fragments, ∀ f, r.fragment? name = some f → c.Settles r (f.source, f.definition.body)) :
    c.IsClosureOf r source body := by
  refine ⟨fun name => ⟨hf name, mem_of_reaches hs hc⟩, fun m => ⟨hm m, ?_⟩⟩
  rintro ⟨part, hp, s, hmem, hn, rfl⟩
  cases hp with
  | start => exact (hs s hmem).lacking hn
  | fragment hr hg => exact (hc _ (mem_of_reaches hs hc hr) _ hg s hmem).lacking hn

/-- Two closures of one selection set hold the same, up to order. -/
theorem IsClosureOf.perm (h : c.IsClosureOf r source body) (h' : d.IsClosureOf r source body) :
    c.fragments.toList.Perm d.fragments.toList ∧ c.missing.toList.Perm d.missing.toList := by
  constructor
  · refine (List.perm_ext_iff_of_nodup c.fragments.nodup d.fragments.nodup).2 fun name => ?_
    exact (h.mem_fragments name).trans (h'.mem_fragments name).symm
  · refine (List.perm_ext_iff_of_nodup c.missing.nodup d.missing.nodup).2 fun m => ?_
    exact (h.mem_missing m).trans (h'.mem_missing m).symm

/-- Nothing is missing in a closure if all that is spread is there. -/
theorem IsClosureOf.missing_eq_nil_iff (h : c.IsClosureOf r source body) :
    c.missing.toList = [] ↔ ¬ r.Lacking body := by
  constructor
  · rintro hnil ⟨set, hset, s, hs, hnone⟩
    have hpart : ∃ source', r.Part (source, body) (source', set) := by
      rcases hset with rfl | ⟨name, hreach, hset⟩
      · exact ⟨source, .start⟩
      · obtain ⟨f, hf, rfl⟩ := Registry.exists_of_bodyOf hset
        exact ⟨f.source, .fragment hreach hf⟩
    obtain ⟨source', hpart⟩ := hpart
    have hm := (h.mem_missing _).2 ⟨_, hpart, s, hs, Option.map_eq_none_iff.1 hnone, rfl⟩
    rw [OrderedSet.mem_iff, hnil] at hm
    exact List.not_mem_nil hm
  · intro hcomplete
    refine List.eq_nil_iff_forall_not_mem.2 fun m hm => hcomplete ?_
    obtain ⟨part, hpart, s, hs, hnone, -⟩ := (h.mem_missing m).1 hm
    refine ⟨part.2, ?_, s, hs, Option.map_eq_none_iff.2 hnone⟩
    cases hpart with
    | start => exact .inl rfl
    | fragment hreach hf => exact .inr ⟨_, hreach, Registry.bodyOf_eq hf⟩

/-! ### Absorbing a closure -/

theorem mem_fragments_absorb : other ∈ (c.absorb name known).fragments ↔
    other ∈ c.fragments ∨ other = name ∨ other ∈ known.fragments := by
  simp [absorb, or_assoc]

theorem mem_missing_absorb : m ∈ (c.absorb name known).missing ↔ m ∈ c.missing ∨ m ∈ known.missing := by
  simp [absorb]

theorem within_absorb (c : Closure) (name : String) (known : Closure) : c.Within (c.absorb name known) :=
  ⟨fun _ h => mem_fragments_absorb.2 (.inl h), fun _ h => mem_missing_absorb.2 (.inl h)⟩

theorem known_within_absorb (c : Closure) (name : String) (known : Closure) : known.Within (c.absorb name known) :=
  ⟨fun _ h => mem_fragments_absorb.2 (.inr (.inr h)), fun _ h => mem_missing_absorb.2 (.inr h)⟩

/-- Absorbing the closure of a fragment settles it and every fragment that comes with it. -/
theorem settles_absorb (hf : r.fragment? name = some f) (hk : known.IsClosureOf r f.source f.definition.body)
    (ho : other = name ∨ other ∈ known.fragments) {g : RegisteredFragment} (hg : r.fragment? other = some g) :
    (c.absorb name known).Settles r (g.source, g.definition.body) := by
  refine Settles.mono ?_ (known_within_absorb c name known)
  rcases ho with rfl | ho
  · rw [hf] at hg
    cases hg
    exact hk.settles .start
  · exact hk.settles (.fragment ((hk.mem_fragments _).1 ho) hg)

/-- What comes in with the closure of a spread's fragment is reached. -/
theorem reaches_absorb {start : Nat × SelectionSet} (hp : r.Part start part) (hs : s ∈ part.2.spreads)
    (hf : r.fragment? s.name.text = some f) (hk : known.IsClosureOf r f.source f.definition.body)
    (ho : other = s.name.text ∨ other ∈ known.fragments) : Reaches r.bodyOf start.2 other := by
  rcases ho with rfl | ho
  · exact hp.reaches hs hf
  · exact (hp.reaches hs hf).trans (Registry.bodyOf_eq hf) ((hk.mem_fragments _).1 ho)

/-- A missing spread that comes in with the closure of a spread's fragment is written in a part. -/
theorem lacks_absorb {start : Nat × SelectionSet} (hp : r.Part start part) (hs : s ∈ part.2.spreads)
    (hf : r.fragment? s.name.text = some f) (hk : known.IsClosureOf r f.source f.definition.body)
    (hm : m ∈ known.missing) : ∃ inner, r.Part start inner ∧ r.Lacks inner m := by
  obtain ⟨inner, hi, hl⟩ := (hk.mem_missing m).1 hm
  exact ⟨inner, (Registry.Part.fragment (hp.reaches hs hf) hf).trans hi, hl⟩

end Closure

/-- A cache that holds only closures of fragments. -/
def ClosureCache.Holds (r : Registry) (entries : OrderedMap Closure) : Prop :=
  ∀ name known, entries.find? name = some known →
    ∃ f, r.fragment? name = some f ∧ known.IsClosureOf r f.source f.definition.body

/-! ## Computing a closure -/

namespace ClosureWalk

section Invariant

variable {r : Registry} {entries : OrderedMap Closure} {start part : Nat × SelectionSet}

/-- A selection set that a computation came across. -/
def Found (r : Registry) (start : Nat × SelectionSet) (w : ClosureWalk) (part : Nat × SelectionSet) : Prop :=
  part = start ∨
    ∃ name ∈ w.closure.fragments, ∃ f, r.fragment? name = some f ∧ part = (f.source, f.definition.body)

/-- The invariant of a computation from `start`: what it holds and what it has still to look at belongs to the closure,
and what it came across is busy, on the stack or settled. -/
structure Inv (r : Registry) (start : Nat × SelectionSet) (busy : List (Nat × SelectionSet)) (w : ClosureWalk) :
    Prop where
  fragments : ∀ name ∈ w.closure.fragments, Reaches r.bodyOf start.2 name
  missing : ∀ m ∈ w.closure.missing, ∃ part, r.Part start part ∧ r.Lacks part m
  stack : ∀ part ∈ w.stack, r.Part start part
  covered : ∀ part, Found r start w part → part ∈ busy ∨ part ∈ w.stack ∨ w.closure.Settles r part

/-- One computation holds all that another one does. -/
structure Extends (w w' : ClosureWalk) : Prop where
  closure : w.closure.Within w'.closure
  stack : ∀ part ∈ w.stack, part ∈ w'.stack

theorem Extends.refl (w : ClosureWalk) : w.Extends w := ⟨.refl _, fun _ h => h⟩

theorem Extends.trans {w w' w'' : ClosureWalk} (h : w.Extends w') (h' : w'.Extends w'') : w.Extends w'' :=
  ⟨h.closure.trans h'.closure, fun p hp => h'.stack p (h.stack p hp)⟩

/-- What was covered stays covered in a computation that holds more. -/
theorem covered_mono {busy : List (Nat × SelectionSet)} {w w' : ClosureWalk} (h : w.Extends w')
    (hc : part ∈ busy ∨ part ∈ w.stack ∨ w.closure.Settles r part) :
    part ∈ busy ∨ part ∈ w'.stack ∨ w'.closure.Settles r part :=
  hc.imp_right fun hc => hc.imp (h.stack part) fun hs => hs.mono h.closure

/-- The three ways to take a spread in: its fragment's closure is known, it is looked at later, or there is nothing to
look at. -/
theorem meet_cases (r : Registry) (entries : OrderedMap Closure) (source : Nat) (w : ClosureWalk) (s : Spread) :
    (∃ known, entries.find? s.name.text = some known ∧
      meet r entries source w s =
        { w with closure := w.closure.absorb s.name.text known, hits := w.hits + 1 }) ∨
    (∃ f, r.fragment? s.name.text = some f ∧ s.name.text ∈ w.closure.fragments ∧ meet r entries source w s = w) ∨
    (∃ f, r.fragment? s.name.text = some f ∧ s.name.text ∉ w.closure.fragments ∧
      meet r entries source w s =
        { w with
          closure := { w.closure with fragments := w.closure.fragments.insert s.name.text }
          stack := (f.source, f.definition.body) :: w.stack }) ∨
    (r.fragment? s.name.text = none ∧
      meet r entries source w s =
        { w with
          closure := { w.closure with
            missing := w.closure.missing.insert ⟨s.name.text, source, s.name.span⟩ } }) := by
  cases he : entries.find? s.name.text with
  | some known => exact .inl ⟨known, rfl, by simp [meet, he]⟩
  | none =>
    cases hf : r.fragment? s.name.text with
    | none => exact .inr (.inr (.inr ⟨rfl, by simp [meet, he, hf]⟩))
    | some f =>
      by_cases hm : s.name.text ∈ w.closure.fragments
      · exact .inr (.inl ⟨f, rfl, hm, by simp [meet, he, hf, hm]⟩)
      · exact .inr (.inr (.inl ⟨f, rfl, hm, by simp [meet, he, hf, hm]⟩))

/-- Taking a spread in loses nothing. -/
theorem extends_meet (source : Nat) (w : ClosureWalk) (s : Spread) : w.Extends (meet r entries source w s) := by
  rcases meet_cases r entries source w s with ⟨known, -, h⟩ | ⟨f, -, -, h⟩ | ⟨f, -, -, h⟩ | ⟨-, h⟩ <;> rw [h]
  · exact ⟨Closure.within_absorb _ _ _, fun _ hp => hp⟩
  · exact .refl w
  · exact ⟨⟨fun _ hn => OrderedSet.mem_insert.2 (.inl hn), fun _ hm => hm⟩, fun _ hp => List.mem_cons_of_mem _ hp⟩
  · exact ⟨⟨fun _ hn => hn, fun _ hm => OrderedSet.mem_insert.2 (.inl hm)⟩, fun _ hp => hp⟩

/-- A spread that was taken in is accounted for. -/
theorem accounts_meet (hh : ClosureCache.Holds r entries) (source : Nat) (w : ClosureWalk) (s : Spread) :
    (meet r entries source w s).closure.Accounts r source s := by
  rcases meet_cases r entries source w s with ⟨known, he, h⟩ | ⟨f, hf, hm, h⟩ | ⟨f, hf, hm, h⟩ | ⟨hn, h⟩ <;> rw [h]
  · obtain ⟨f, hf, -⟩ := hh _ _ he
    exact .of_found hf (Closure.mem_fragments_absorb.2 (.inr (.inl rfl)))
  · exact .of_found hf hm
  · exact .of_found hf (OrderedSet.mem_insert.2 (.inr rfl))
  · exact .of_lacking hn (OrderedSet.mem_insert.2 (.inr rfl))

/-- Taking in a spread of a part keeps the invariant. -/
theorem inv_meet (hh : ClosureCache.Holds r entries) {busy : List (Nat × SelectionSet)} {w : ClosureWalk}
    (hi : Inv r start busy w) (hp : r.Part start part) {s : Spread} (hs : s ∈ part.2.spreads) :
    Inv r start busy (meet r entries part.1 w s) := by
  have hext : w.Extends (meet r entries part.1 w s) := extends_meet part.1 w s
  rcases meet_cases r entries part.1 w s with ⟨known, he, h⟩ | ⟨f, hf, hm, h⟩ | ⟨f, hf, hm, h⟩ | ⟨hn, h⟩ <;>
    rw [h] at hext ⊢
  · obtain ⟨f, hf, hk⟩ := hh _ _ he
    refine ⟨fun name hname => ?_, fun m hm => ?_, hi.stack, fun x hx => ?_⟩
    · rcases Closure.mem_fragments_absorb.1 hname with hname | hname
      · exact hi.fragments name hname
      · exact Closure.reaches_absorb hp hs hf hk hname
    · rcases Closure.mem_missing_absorb.1 hm with hm | hm
      · exact hi.missing m hm
      · exact Closure.lacks_absorb hp hs hf hk hm
    · -- a part that came in with the known closure is settled by it
      rcases hx with rfl | ⟨name, hname, g, hg, rfl⟩
      · exact covered_mono hext (hi.covered _ (.inl rfl))
      · rcases Closure.mem_fragments_absorb.1 hname with hname | hname
        · exact covered_mono hext (hi.covered _ (.inr ⟨name, hname, g, hg, rfl⟩))
        · exact .inr (.inr (Closure.settles_absorb hf hk hname hg))
  · exact hi
  · refine ⟨fun name hname => ?_, hi.missing, fun x hx => ?_, fun x hx => ?_⟩
    · rcases OrderedSet.mem_insert.1 hname with hname | rfl
      · exact hi.fragments name hname
      · exact hp.reaches hs hf
    · rcases List.mem_cons.1 hx with rfl | hx
      · exact .fragment (hp.reaches hs hf) hf
      · exact hi.stack x hx
    · rcases hx with rfl | ⟨name, hname, g, hg, rfl⟩
      · exact covered_mono hext (hi.covered _ (.inl rfl))
      · rcases OrderedSet.mem_insert.1 hname with hname | rfl
        · exact covered_mono hext (hi.covered _ (.inr ⟨name, hname, g, hg, rfl⟩))
        · rw [hf] at hg
          cases hg
          exact .inr (.inl List.mem_cons_self)
  · refine ⟨hi.fragments, fun m hm => ?_, hi.stack, fun x hx => covered_mono hext (hi.covered x hx)⟩
    rcases OrderedSet.mem_insert.1 hm with hm | rfl
    · exact hi.missing m hm
    · exact ⟨part, hp, s, hs, hn, rfl⟩

/-- Taking in spreads of a part keeps the invariant, loses nothing and accounts for all of them. -/
theorem inv_foldl_meet (hh : ClosureCache.Holds r entries) {busy : List (Nat × SelectionSet)} (hp : r.Part start part)
    (spreads : List Spread) (hs : ∀ s ∈ spreads, s ∈ part.2.spreads) {w : ClosureWalk} (hi : Inv r start busy w) :
    Inv r start busy (spreads.foldl (meet r entries part.1) w) ∧
      w.Extends (spreads.foldl (meet r entries part.1) w) ∧
      ∀ s ∈ spreads, (spreads.foldl (meet r entries part.1) w).closure.Accounts r part.1 s := by
  induction spreads generalizing w with
  | nil => exact ⟨hi, .refl w, fun s hs => absurd hs List.not_mem_nil⟩
  | cons s rest ih =>
    obtain ⟨hi', hext, hall⟩ := ih (fun s hs' => hs s (List.mem_cons_of_mem _ hs'))
      (inv_meet hh hi hp (hs s List.mem_cons_self))
    refine ⟨hi', (extends_meet part.1 w s).trans hext, fun t ht => ?_⟩
    rcases List.mem_cons.1 ht with rfl | ht
    · exact (accounts_meet hh part.1 w t).mono hext.closure
    · exact hall t ht

/-- A round keeps the invariant. -/
theorem inv_round (hh : ClosureCache.Holds r entries) {w : ClosureWalk} {rest : List (Nat × SelectionSet)}
    (hstack : w.stack = part :: rest) (hi : Inv r start [] w) :
    Inv r start [] (part.2.spreads.foldl (meet r entries part.1) { w with stack := rest }) := by
  have hp : r.Part start part := hi.stack part (by rw [hstack]; exact List.mem_cons_self)
  have hbusy : Inv r start [part] { w with stack := rest } := by
    refine ⟨hi.fragments, hi.missing, fun x hx => hi.stack x (by rw [hstack]; exact List.mem_cons_of_mem _ hx),
      fun x hx => ?_⟩
    have hx' := hi.covered x hx
    simp only [hstack, List.mem_cons, List.not_mem_nil, false_or] at hx'
    rcases hx' with (rfl | hx') | hx'
    · exact .inl List.mem_cons_self
    · exact .inr (.inl hx')
    · exact .inr (.inr hx')
  obtain ⟨hi', -, hall⟩ := inv_foldl_meet hh hp part.2.spreads (fun _ h => h) hbusy
  refine ⟨hi'.fragments, hi'.missing, hi'.stack, fun x hx => ?_⟩
  -- the part that was busy is settled now
  rcases hi'.covered x hx with hx' | hx'
  · cases List.mem_singleton.1 hx'
    exact .inr (.inr hall)
  · exact .inr hx'

end Invariant

/-! ### Rounds -/

section Rounds

variable {r : Registry} {entries : OrderedMap Closure}

/-- The registered fragments whose names a computation does not hold yet. -/
def unmet (r : Registry) (w : ClosureWalk) : Nat :=
  unseen (r.fragments.map RegisteredFragment.name) w.closure.fragments.toList

/-- A bound on the rounds that a computation still needs. -/
def work (r : Registry) (w : ClosureWalk) : Nat := w.stack.length + unmet r w

theorem unmet_le {w w' : ClosureWalk} (h : w.closure.Within w'.closure) : unmet r w' ≤ unmet r w :=
  unseen_mono h.fragments

/-- A registered name that comes in new leaves fewer to meet. -/
theorem unmet_lt {w w' : ClosureWalk} (h : w.closure.Within w'.closure) {name : String} {f : RegisteredFragment}
    (hf : r.fragment? name = some f) (hold : name ∉ w.closure.fragments) (hnew : name ∈ w'.closure.fragments) :
    unmet r w' < unmet r w := by
  rw [Registry.fragment?_eq] at hf
  have hmem : f ∈ r.fragments := List.mem_of_find?_eq_some hf
  have hname : f.name = name := by simpa using List.find?_some hf
  have hnames : name ∈ r.fragments.map RegisteredFragment.name := by
    rw [← hname]
    exact List.mem_map_of_mem hmem
  exact unseen_lt h.fragments hnames hold hnew

/-- Taking a spread in makes no work. -/
theorem work_meet_le (source : Nat) (w : ClosureWalk) (s : Spread) :
    work r (meet r entries source w s) ≤ work r w := by
  have hext : w.Extends (meet r entries source w s) := extends_meet source w s
  have hle := unmet_le (r := r) hext.closure
  rcases meet_cases r entries source w s with ⟨known, -, h⟩ | ⟨f, -, -, h⟩ | ⟨f, hf, hm, h⟩ | ⟨-, h⟩
  · rw [h] at hle ⊢
    simp only [work] at hle ⊢
    omega
  · exact Nat.le_of_eq (by rw [h])
  · rw [h] at hext ⊢
    have hlt := unmet_lt hext.closure hf hm (OrderedSet.mem_insert.2 (.inr rfl))
    simp only [work, List.length_cons] at hlt ⊢
    omega
  · rw [h] at hle ⊢
    simp only [work] at hle ⊢
    omega

theorem work_foldl_meet_le (source : Nat) (spreads : List Spread) (w : ClosureWalk) :
    work r (spreads.foldl (meet r entries source) w) ≤ work r w := by
  induction spreads generalizing w with
  | nil => exact Nat.le_refl _
  | cons s rest ih => exact Nat.le_trans (ih _) (work_meet_le source w s)

/-- With rounds enough a computation ends with an empty stack, and keeps the invariant. -/
theorem inv_run (hh : ClosureCache.Holds r entries) {start : Nat × SelectionSet} (rounds : Nat) {w : ClosureWalk}
    (hi : Inv r start [] w) (hr : work r w ≤ rounds) :
    Inv r start [] (run r entries rounds w) ∧ (run r entries rounds w).stack = [] := by
  induction rounds generalizing w with
  | zero =>
    have hs : w.stack = [] := List.length_eq_zero_iff.1 (by simp only [work] at hr; omega)
    exact ⟨hi, hs⟩
  | succ rounds ih =>
    unfold run
    split
    · rename_i hs
      exact ⟨hi, hs⟩
    · rename_i source body rest hs
      refine ih (inv_round hh hs hi) (Nat.le_trans (work_foldl_meet_le source _ _) ?_)
      simp only [work, hs, List.length_cons] at hr ⊢
      have hsame : unmet r { w with stack := rest } = unmet r w := rfl
      omega

/-- A computation that runs to its end yields the closure of its start. -/
theorem run_isClosureOf (hh : ClosureCache.Holds r entries) (source : Nat) (body : SelectionSet) (hits : Nat) :
    (run r entries (r.fragments.length + 1) { stack := [(source, body)], hits }).closure.IsClosureOf r source body := by
  have hinit : Inv r (source, body) [] { stack := [(source, body)], hits } := by
    refine ⟨fun _ h => absurd h (OrderedSet.not_mem_empty _), fun _ h => absurd h (OrderedSet.not_mem_empty _), ?_, ?_⟩
    · intro x hx
      cases List.mem_singleton.1 hx
      exact .start
    · rintro x (rfl | ⟨name, hn, -⟩)
      · exact .inr (.inl List.mem_cons_self)
      · exact absurd hn (OrderedSet.not_mem_empty _)
  have hwork : work r { stack := [(source, body)], hits } ≤ r.fragments.length + 1 := by
    have hle := unseen_le_length (r.fragments.map RegisteredFragment.name) (OrderedSet.empty : OrderedSet String).toList
    rw [List.length_map] at hle
    simp only [work, unmet, List.length_singleton]
    omega
  obtain ⟨hi, hs⟩ := inv_run hh _ hinit hwork
  have hsettled : ∀ part, Found r (source, body) _ part → Closure.Settles _ r part := fun part hp => by
    have hc := hi.covered part hp
    simpa only [hs, List.not_mem_nil, false_or] using hc
  exact Closure.isClosureOf_of_settles hi.fragments hi.missing (hsettled _ (.inl rfl))
    fun name hn f hf => hsettled _ (.inr ⟨name, hn, f, hf, rfl⟩)

end Rounds

end ClosureWalk

/-! ## Asking a cache -/

namespace ClosureCache

/-- A question that a cache is asked. -/
inductive Call where
  | resolve (source : Nat) (body : SelectionSet)
  | closureOf (name : String)

/-- The cache after a question. -/
def ask (r : Registry) (cache : ClosureCache) : Call → ClosureCache
  | .resolve source body => (cache.resolve r source body).2
  | .closureOf name => (cache.closureOf r name).2

/-- The cache after a history of questions to one that was empty. -/
def after (r : Registry) (history : List Call) : ClosureCache := history.foldl (ask r) {}

variable {r : Registry} {cache : ClosureCache}

theorem holds_empty (r : Registry) : Holds r ({} : ClosureCache).entries := fun _ _ h => by cases h

/-- The closure of a fragment, and the closures that are kept then. -/
theorem closureOf_spec (hh : Holds r cache.entries) (name : String) :
    Holds r (cache.closureOf r name).2.entries ∧
      match r.fragment? name with
      | some f => ∃ known, (cache.closureOf r name).1 = some known ∧ known.IsClosureOf r f.source f.definition.body
      | none => (cache.closureOf r name).1 = none := by
  cases hc : cache.entries.find? name with
  | some known =>
    obtain ⟨f, hf, hk⟩ := hh _ _ hc
    simp only [closureOf, get?, hc, hf]
    exact ⟨hh, known, rfl, hk⟩
  | none =>
    cases hf : r.fragment? name with
    | none =>
      simp only [closureOf, get?, hc, hf]
      exact ⟨hh, trivial⟩
    | some f =>
      have hk := ClosureWalk.run_isClosureOf hh f.source f.definition.body cache.hits
      simp only [closureOf, get?, hc, hf]
      refine ⟨fun other known ho => ?_, _, rfl, hk⟩
      rw [OrderedMap.find?_insert] at ho
      split at ho
      · rename_i heq
        cases ho
        exact ⟨f, heq ▸ hf, hk⟩
      · exact hh _ _ ho

/-- What the answer so far has to be after some spreads of a selection set. -/
structure Answers (r : Registry) (start : Nat × SelectionSet) (spreads : List Spread) (state : Closure × ClosureCache) :
    Prop where
  holds : Holds r state.2.entries
  fragments : ∀ name ∈ state.1.fragments, Reaches r.bodyOf start.2 name
  missing : ∀ m ∈ state.1.missing, ∃ part, r.Part start part ∧ r.Lacks part m
  accounts : ∀ s ∈ spreads, state.1.Accounts r start.1 s
  settles : ∀ name ∈ state.1.fragments, ∀ f, r.fragment? name = some f →
    state.1.Settles r (f.source, f.definition.body)

/-- One more spread keeps the answer right. -/
theorem answers_resolveSpread {start : Nat × SelectionSet} {spreads : List Spread} {state : Closure × ClosureCache}
    (ha : Answers r start spreads state) {s : Spread} (hs : s ∈ start.2.spreads) :
    Answers r start (spreads ++ [s]) (resolveSpread r start.1 state s) := by
  obtain ⟨found, cache⟩ := state
  have hspec := closureOf_spec ha.holds s.name.text
  have grow : ∀ next : Closure, found.Within next → next.Accounts r start.1 s →
      ∀ t ∈ spreads ++ [s], next.Accounts r start.1 t := fun next hw hn t ht => by
    rcases List.mem_append.1 ht with ht | ht
    · exact (ha.accounts t ht).mono hw
    · cases List.mem_singleton.1 ht
      exact hn
  cases hf : r.fragment? s.name.text with
  | some f =>
    simp only [hf] at hspec
    obtain ⟨hh, known, hk, hc⟩ := hspec
    have hstep : resolveSpread r start.1 (found, cache) s =
        (found.absorb s.name.text known, (cache.closureOf r s.name.text).2) := by
      simp only [resolveSpread]
      rw [← Prod.eta (cache.closureOf r s.name.text), hk]
    rw [hstep]
    refine ⟨hh, fun name hn => ?_, fun m hm => ?_, ?_, fun name hn g hg => ?_⟩
    · rcases Closure.mem_fragments_absorb.1 hn with hn | hn
      · exact ha.fragments name hn
      · exact Closure.reaches_absorb .start hs hf hc hn
    · rcases Closure.mem_missing_absorb.1 hm with hm | hm
      · exact ha.missing m hm
      · exact Closure.lacks_absorb .start hs hf hc hm
    · exact grow _ (Closure.within_absorb _ _ _) (.of_found hf (Closure.mem_fragments_absorb.2 (.inr (.inl rfl))))
    · rcases Closure.mem_fragments_absorb.1 hn with hn | hn
      · exact (ha.settles name hn g hg).mono (Closure.within_absorb _ _ _)
      · exact Closure.settles_absorb hf hc hn hg
  | none =>
    simp only [hf] at hspec
    obtain ⟨hh, hk⟩ := hspec
    have hstep : resolveSpread r start.1 (found, cache) s =
        ({ found with missing := found.missing.insert ⟨s.name.text, start.1, s.name.span⟩ },
          (cache.closureOf r s.name.text).2) := by
      simp only [resolveSpread]
      rw [← Prod.eta (cache.closureOf r s.name.text), hk]
    have hw : found.Within { found with missing := found.missing.insert ⟨s.name.text, start.1, s.name.span⟩ } :=
      ⟨fun _ hn => hn, fun _ hm => OrderedSet.mem_insert.2 (.inl hm)⟩
    rw [hstep]
    refine ⟨hh, ha.fragments, fun m hm => ?_, ?_, fun name hn g hg => (ha.settles name hn g hg).mono hw⟩
    · rcases OrderedSet.mem_insert.1 hm with hm | rfl
      · exact ha.missing m hm
      · exact ⟨start, .start, s, hs, hf, rfl⟩
    · exact grow _ hw (.of_lacking hf (OrderedSet.mem_insert.2 (.inr rfl)))

theorem answers_foldl {start : Nat × SelectionSet} (more : List Spread) (hm : ∀ s ∈ more, s ∈ start.2.spreads)
    {spreads : List Spread} {state : Closure × ClosureCache} (ha : Answers r start spreads state) :
    Answers r start (spreads ++ more) (more.foldl (resolveSpread r start.1) state) := by
  induction more generalizing spreads state with
  | nil => simpa using ha
  | cons s rest ih =>
    have h := ih (fun t ht => hm t (List.mem_cons_of_mem _ ht)) (answers_resolveSpread ha (hm s List.mem_cons_self))
    simpa using h

/-- A cache that holds closures answers with closures and goes on holding closures. -/
theorem resolve_spec (hh : Holds r cache.entries) (source : Nat) (body : SelectionSet) :
    (cache.resolve r source body).1.IsClosureOf r source body ∧ Holds r (cache.resolve r source body).2.entries := by
  have hinit : Answers r (source, body) [] (({} : Closure), cache) :=
    ⟨hh, fun _ h => absurd h (OrderedSet.not_mem_empty _), fun _ h => absurd h (OrderedSet.not_mem_empty _),
      fun _ h => absurd h List.not_mem_nil, fun _ h => absurd h (OrderedSet.not_mem_empty _)⟩
  have ha := answers_foldl body.spreads (fun _ h => h) hinit
  exact ⟨Closure.isClosureOf_of_settles ha.fragments ha.missing (fun s hs => ha.accounts s hs) ha.settles, ha.holds⟩

/-- A cache holds closures after every history. -/
theorem holds_after (r : Registry) (history : List Call) : Holds r (after r history).entries := by
  have hstep : ∀ cache call, Holds r cache.entries → Holds r (ask r cache call).entries := fun cache call hh => by
    cases call with
    | resolve source body => exact (resolve_spec hh source body).2
    | closureOf name => exact (closureOf_spec hh name).1
  have hrun : ∀ cache, Holds r cache.entries → Holds r (history.foldl (ask r) cache).entries := by
    induction history with
    | nil => exact fun _ hh => hh
    | cons call rest ih => exact fun cache hh => ih _ (hstep cache call hh)
  exact hrun {} (holds_empty r)

/-- After every history of questions to a cache, a selection set resolves to just what it reaches: the names of
fragments, and the spreads that lack one, each once. What the cache keeps are closures of fragments, and an empty cache
would have given the same, up to order. -/
theorem resolve_after (r : Registry) (history : List Call) (source : Nat) (body : SelectionSet) :
    let answer := ((after r history).resolve r source body).1
    let cold := (({} : ClosureCache).resolve r source body).1
    ((∀ name, name ∈ answer.fragments ↔ Reaches r.bodyOf body name) ∧
      answer.missing.toList.Nodup ∧
      ∀ m, m ∈ answer.missing ↔ ∃ part, r.Part (source, body) part ∧ r.Lacks part m) ∧
    (∀ name known, (after r history).get? name = some known →
      ∃ f, r.fragment? name = some f ∧ known.IsClosureOf r f.source f.definition.body) ∧
    answer.fragments.toList.Perm cold.fragments.toList ∧ answer.missing.toList.Perm cold.missing.toList := by
  have hh := holds_after r history
  have hwarm := (resolve_spec hh source body).1
  have hcold := (resolve_spec (holds_empty r) source body).1
  exact ⟨⟨hwarm.mem_fragments, OrderedSet.nodup _, hwarm.mem_missing⟩, hh, hwarm.perm hcold⟩

end ClosureCache

end QueryBatch
