import QueryBatch.Document.Basic

/-!
# Reachable fragments

* `Reaches`: the names of fragments that a selection set spreads, directly or through others. What a name stands for is
  a parameter, so that registries and validation contexts share the relation.
* `Reaches.trans`: reachability composes.
* `Reaches.transport`: only the names spread by what is met matter.
* `LeadsTo`: the same between the names of fragments. `not_leadsTo_of_acc`: names that do not lead to themselves.
* `unseen`: how many names a search has left to meet. It bounds the rounds of every search.
-/

namespace QueryBatch

/-- The names that a selection set spreads, in the order of the text. -/
def SelectionSet.spreadNames (set : SelectionSet) : List String := set.spreads.map fun s => s.name.text

theorem SelectionSet.mem_spreadNames {set : SelectionSet} {name : String} :
    name ∈ set.spreadNames ↔ ∃ s ∈ set.spreads, s.name.text = name := List.mem_map

/-- A name that a selection set spreads, directly or through others. `bodyOf` is the selection set of the fragment that
a name stands for. -/
inductive Reaches (bodyOf : String → Option SelectionSet) : SelectionSet → String → Prop
  | spread {set body : SelectionSet} {s : Spread} : s ∈ set.spreads → bodyOf s.name.text = some body →
      Reaches bodyOf set s.name.text
  | through {set body : SelectionSet} {s : Spread} {name : String} : s ∈ set.spreads →
      bodyOf s.name.text = some body → Reaches bodyOf body name → Reaches bodyOf set name

namespace Reaches

variable {bodyOf : String → Option SelectionSet} {set body : SelectionSet} {name other : String}

/-- What is reached is the name of a fragment. -/
theorem exists_body (h : Reaches bodyOf set name) : ∃ body, bodyOf name = some body := by
  induction h with
  | spread _ hb => exact ⟨_, hb⟩
  | through _ _ _ ih => exact ih

/-- What a reached fragment reaches is reached. -/
theorem trans (h : Reaches bodyOf set name) (hb : bodyOf name = some body) (h' : Reaches bodyOf body other) :
    Reaches bodyOf set other := by
  induction h with
  | spread hs hb' =>
    rw [hb'] at hb
    cases hb
    exact .through hs hb' h'
  | through hs hb' _ ih => exact .through hs hb' (ih hb)

/-- What a reached fragment spreads is reached. -/
theorem snoc (h : Reaches bodyOf set name) (hb : bodyOf name = some body) {s : Spread} (hs : s ∈ body.spreads)
    {inner : SelectionSet} (hi : bodyOf s.name.text = some inner) : Reaches bodyOf set s.name.text :=
  h.trans hb (.spread hs hi)

/-- Reachability carries over to selection sets with the same spreads, if every fragment that is met has a counterpart
of its name with the same spreads. -/
theorem transport {a b : String → Option SelectionSet} {set set' : SelectionSet} {name : String}
    (h : Reaches a set name) (hset : set.spreadNames ⊆ set'.spreadNames)
    (hbody : ∀ known body, Reaches a set known → a known = some body →
      ∃ body', b known = some body' ∧ body.spreadNames ⊆ body'.spreadNames) : Reaches b set' name := by
  induction h generalizing set' with
  | spread hs ha =>
    obtain ⟨s', hs', hname⟩ := SelectionSet.mem_spreadNames.1 (hset (SelectionSet.mem_spreadNames.2 ⟨_, hs, rfl⟩))
    obtain ⟨body', hb, -⟩ := hbody _ _ (.spread hs ha) ha
    rw [← hname] at hb ⊢
    exact .spread hs' hb
  | through hs ha _ ih =>
    obtain ⟨s', hs', hname⟩ := SelectionSet.mem_spreadNames.1 (hset (SelectionSet.mem_spreadNames.2 ⟨_, hs, rfl⟩))
    obtain ⟨body', hb, hinner⟩ := hbody _ _ (.spread hs ha) ha
    rw [← hname] at hb
    exact .through hs' hb (ih hinner fun known body hk => hbody known body (.through hs ha hk))

end Reaches

/-! ## Names that lead to one another -/

/-- The fragment of a name spreads that of another one, directly or through others. -/
def LeadsTo (bodyOf : String → Option SelectionSet) (outer inner : String) : Prop :=
  ∃ body, bodyOf outer = some body ∧ Reaches bodyOf body inner

/-- A fragment's name is spread by the fragment of another name. -/
def SpreadBy (bodyOf : String → Option SelectionSet) (inner outer : String) : Prop :=
  ∃ body, bodyOf outer = some body ∧ inner ∈ body.spreadNames ∧ (bodyOf inner).isSome = true

/-- One of some names is spread by the fragment of another name. -/
def SpreadAmong (bodyOf : String → Option SelectionSet) (names : String → Prop) (inner outer : String) : Prop :=
  names inner ∧ SpreadBy bodyOf inner outer

section LeadsTo

variable {bodyOf : String → Option SelectionSet} {names : String → Prop} {name other last : String}

theorem LeadsTo.trans (h : LeadsTo bodyOf name other) (h' : LeadsTo bodyOf other last) : LeadsTo bodyOf name last := by
  obtain ⟨body, hbody, hreach⟩ := h
  obtain ⟨inner, hinner, hreach'⟩ := h'
  exact ⟨body, hbody, hreach.trans hinner hreach'⟩

theorem SpreadBy.leadsTo (h : SpreadBy bodyOf other name) : LeadsTo bodyOf name other := by
  obtain ⟨body, hbody, hmem, hsome⟩ := h
  obtain ⟨s, hs, rfl⟩ := SelectionSet.mem_spreadNames.1 hmem
  obtain ⟨inner, hinner⟩ := Option.isSome_iff_exists.1 hsome
  exact ⟨body, hbody, .spread hs hinner⟩

/-- A name that leads to itself spreads a name that does, and each of the two leads to the other. -/
theorem LeadsTo.exists_spreadBy (h : LeadsTo bodyOf name name) :
    ∃ other, SpreadBy bodyOf other name ∧ LeadsTo bodyOf other name := by
  obtain ⟨body, hbody, hreach⟩ := h
  have hspread : ∀ s ∈ body.spreads, ∀ inner, bodyOf s.name.text = some inner → SpreadBy bodyOf s.name.text name :=
    fun s hs inner hinner => ⟨body, hbody, SelectionSet.mem_spreadNames.2 ⟨s, hs, rfl⟩, by rw [hinner]; rfl⟩
  cases hreach with
  | spread hs hinner => exact ⟨_, hspread _ hs _ hinner, _, hbody, .spread hs hinner⟩
  | through hs hinner hback => exact ⟨_, hspread _ hs _ hinner, _, hinner, hback⟩

/-- A name below which all spreads of some names come to an end does not lead to itself, if the names that it would
lead to and come back from are among them. -/
theorem not_leadsTo_of_acc (h : Acc (SpreadAmong bodyOf names) name)
    (hnames : ∀ other, LeadsTo bodyOf name other → LeadsTo bodyOf other name → names other) :
    ¬ LeadsTo bodyOf name name := by
  induction h with
  | intro name _ ih =>
    intro hself
    obtain ⟨other, hspread, hback⟩ := hself.exists_spreadBy
    have hthere := hspread.leadsTo
    refine ih other ⟨hnames other hthere hback, hspread⟩ (fun last hlast hreturn => ?_) (hback.trans hthere)
    exact hnames last (hthere.trans hlast) (hreturn.trans hback)

end LeadsTo

/-! ## Names left to meet -/

/-- How many of the names were not seen yet. -/
def unseen (names seen : List String) : Nat := names.countP fun name => name ∉ seen

section Unseen

variable {names seen seen' : List String}

theorem unseen_le_length (names seen : List String) : unseen names seen ≤ names.length := List.countP_le_length

theorem unseen_mono (h : seen ⊆ seen') : unseen names seen' ≤ unseen names seen := by
  refine List.countP_mono_left fun name _ hn => ?_
  rw [decide_eq_true_eq] at hn ⊢
  exact fun hmem => hn (h hmem)

/-- A name that is seen for the first time leaves fewer to meet. -/
theorem unseen_lt (h : seen ⊆ seen') {name : String} (hname : name ∈ names) (hold : name ∉ seen)
    (hnew : name ∈ seen') : unseen names seen' < unseen names seen := by
  obtain ⟨before, after, rfl⟩ := List.append_of_mem hname
  have hbefore : unseen before seen' ≤ unseen before seen := unseen_mono h
  have hafter : unseen after seen' ≤ unseen after seen := unseen_mono h
  unfold unseen at *
  simp only [List.countP_append, List.countP_cons, hold, hnew, not_true_eq_false, not_false_eq_true, decide_true,
    decide_false, if_true, Bool.false_eq_true, if_false]
  omega

end Unseen

end QueryBatch
