import Mathlib.Data.List.Perm.Subperm
import QueryBatch.Proofs.Rules.Reachable
import QueryBatch.Rules.Expansion

/-!
# Contexts inside contexts

A context may hold some of the definitions of another one under other owners. If its spreads stay inside it, and stand
for the same fragments as in the larger context, then both contexts say the same about its definitions.

* `Context.Embeds`: the relation, with the map of owners.
* `Embeds.reachable`: the same fragments are reached.
* `embeds_of`: an operation of a batch and fragments that are closed under spreads.
-/

namespace QueryBatch.Rules

/-! ## Renaming owners -/

/-- A definition under another owner. -/
def Subject.renamed (rename : Owner → Owner) (s : Subject) : Subject := { s with owner := rename s.owner }

section Renamed

variable (rename : Owner → Owner) (s : Subject)

@[simp] theorem Subject.owner_renamed : (s.renamed rename).owner = rename s.owner := rfl

@[simp] theorem Subject.definition_renamed : (s.renamed rename).definition = s.definition := rfl

/-- What is met in a definition does not depend on its owner. -/
@[simp] theorem Subject.visits_renamed (schema : Schema) : (s.renamed rename).visits schema = s.visits schema := rfl

end Renamed

namespace Context

/-- A context knows the fragments that spreads stand for. -/
def Covers (cx : Context) (spreads : List Spread) : Prop := ∀ s ∈ spreads, s.name.text ∈ cx.names

/-- The definitions of a context stand in another one under other owners. A name of the small context stands for one
and the same fragment in both, and its definitions spread no other names. -/
structure Embeds (part whole : Context) (rename : Owner → Owner) : Prop where
  schema : part.schema = whole.schema
  injective : ∀ {a b}, rename a = rename b → a = b
  subperm : (part.subjects.map (Subject.renamed rename)).Subperm whole.subjects
  canonical : ∀ {s frag}, (s, frag) ∈ part.fragments → whole.fragment? frag.name.text = some (s.renamed rename, frag)
  closed : ∀ {s}, s ∈ part.subjects → part.Covers s.definition.body.spreads

namespace Embeds

variable {part whole : Context} {rename : Owner → Owner}

theorem mem_subjects (h : part.Embeds whole rename) {s : Subject} (hs : s ∈ part.subjects) :
    s.renamed rename ∈ whole.subjects := h.subperm.subset (List.mem_map_of_mem hs)

theorem mem_operations (h : part.Embeds whole rename) {s : Subject} {op : Operation} (hs : (s, op) ∈ part.operations) :
    (s.renamed rename, op) ∈ whole.operations := by
  obtain ⟨hsubject, hop⟩ := Context.mem_operations.1 hs
  exact Context.mem_operations.2 ⟨h.mem_subjects hsubject, hop⟩

theorem fragments_length_le (h : part.Embeds whole rename) : part.fragments.length ≤ whole.fragments.length := by
  unfold fragments
  rw [List.length_filterMap_eq_countP, List.length_filterMap_eq_countP]
  refine Nat.le_trans (Nat.le_of_eq ?_) (h.subperm.countP_le _)
  rw [List.countP_map]
  exact List.countP_congr fun s _ => by simp

/-- A name of the small context stands for one fragment in both. -/
theorem fragment? (h : part.Embeds whole rename) {name : String} (hname : name ∈ part.names) :
    ∃ s frag, part.fragment? name = some (s, frag) ∧ whole.fragment? name = some (s.renamed rename, frag) ∧
      part.Covers frag.body.spreads := by
  obtain ⟨s, frag, hfound⟩ := exists_of_mem_names hname
  have hmem := mem_of_fragment? hfound
  have hwhole := h.canonical hmem
  rw [name_of_fragment? hfound] at hwhole
  obtain ⟨hsubject, hfrag⟩ := mem_fragments.1 hmem
  have hcovers := h.closed hsubject
  rw [Definition.body_of_fragment? hfrag] at hcovers
  exact ⟨s, frag, hfound, hwhole, hcovers⟩

end Embeds

end Context

/-! ## Reachability -/

namespace Context.Embeds

variable {part whole : Context} {rename : Owner → Owner}

/-- With rounds enough, both contexts reach the same fragments from a stack. -/
theorem reachFrom (h : part.Embeds whole rename) {rounds rounds' : Nat} {seen : List String} {stack : List SelectionSet}
    (hstack : ∀ set ∈ stack, part.Covers set.spreads) (hr : stack.length + unseen part.names seen ≤ rounds)
    (hle : rounds ≤ rounds') :
    whole.reachFrom rounds' seen stack =
      (part.reachFrom rounds seen stack).map (Prod.map (Subject.renamed rename) id) := by
  induction rounds generalizing rounds' seen stack with
  | zero =>
    obtain rfl : stack = [] := List.length_eq_zero_iff.1 (by omega)
    rw [reachFrom_nil, reachFrom_nil, List.map_nil]
  | succ rounds ih =>
    obtain ⟨rounds', rfl⟩ : ∃ n, rounds' = n + 1 := ⟨rounds' - 1, by omega⟩
    cases stack with
    | nil => rfl
    | cons set stack =>
      have hspread : set.spreadNames ⊆ part.names := by
        intro name hname
        obtain ⟨s, hs, rfl⟩ := SelectionSet.mem_spreadNames.1 hname
        exact hstack set List.mem_cons_self s hs
      have hfound : whole.foundIn seen set =
          (part.foundIn seen set).map (Prod.map (Subject.renamed rename) id) := by
        unfold foundIn
        rw [List.map_filterMap]
        refine List.filterMap_congr fun name hname => ?_
        obtain ⟨s, frag, hpart, hwhole, -⟩ := h.fragment? (hspread (mem_newNames.1 hname).1)
        rw [hpart, hwhole]
        rfl
      have hcovers : ∀ x ∈ part.foundIn seen set, part.Covers x.2.body.spreads := by
        intro x hx
        obtain ⟨name, hname, -, hx⟩ := mem_foundIn.1 hx
        obtain ⟨s, frag, hpart, -, hc⟩ := h.fragment? (hspread hname)
        rw [hpart] at hx
        cases hx
        exact hc
      rw [reachFrom_cons, reachFrom_cons, List.map_append, hfound]
      congr 1
      rw [List.map_map]
      refine ih ?_ ?_ (by omega)
      · intro set' hset'
        rcases List.mem_append.1 hset' with hset' | hset'
        · obtain ⟨x, hx, rfl⟩ := List.mem_map.1 (List.mem_reverse.1 hset')
          exact hcovers x hx
        · exact hstack set' (List.mem_cons_of_mem _ hset')
      · have hless := part.unseen_found seen set.spreadNames
        simp only [List.length_append, List.length_reverse, List.length_map, List.length_cons, foundIn] at hr ⊢
        omega

theorem reachable (h : part.Embeds whole rename) {set : SelectionSet} (hset : part.Covers set.spreads) :
    whole.reachable set = (part.reachable set).map (Prod.map (Subject.renamed rename) id) := by
  refine h.reachFrom ?_ ?_ (Nat.succ_le_succ h.fragments_length_le)
  · intro set' hset'
    cases List.mem_singleton.1 hset'
    exact hset
  · have hle := part.unseen_names_le []
    rw [List.length_singleton]
    omega

end Context.Embeds

/-! ## One operation and its fragments -/

/-- The owners, in the context of all definitions, of the operation of an index and of some fragments. -/
def ownerAmong (index : Nat) (frags all : List (Nat × Fragment)) : Owner → Owner
  | .operation n => .operation (index + n)
  | .fragment n => .fragment (match frags[n]? with
    | some x => all.findIdx fun y => y.2.name.text == x.2.name.text
    | none => all.length + n)

section Lists

variable {schema : Schema} {ops : List (Nat × Operation)} {frags all : List (Nat × Fragment)} {op : Nat × Operation}
  {index : Nat}

/-- The fragment that a name stands for is where the first of that name is. -/
theorem getElem?_findIdx (hcanonical : ∀ x ∈ frags, all.find? (fun y => y.2.name.text == x.2.name.text) = some x)
    {n : Nat} {x : Nat × Fragment} (hx : frags[n]? = some x) :
    all[all.findIdx fun y => y.2.name.text == x.2.name.text]? = some x := by
  rw [← List.find?_eq_getElem?_findIdx]
  exact hcanonical x (List.mem_of_getElem? hx)

/-- Two definitions have one owner among all definitions only if they are the same. -/
theorem ownerAmong_injective (hcanonical : ∀ x ∈ frags, all.find? (fun y => y.2.name.text == x.2.name.text) = some x)
    (hnodup : frags.Nodup) {a b : Owner} (h : ownerAmong index frags all a = ownerAmong index frags all b) : a = b := by
  have hlt : ∀ {n : Nat} {x : Nat × Fragment}, frags[n]? = some x →
      all.findIdx (fun y => y.2.name.text == x.2.name.text) < all.length := fun hx =>
    (List.getElem?_eq_some_iff.1 (getElem?_findIdx hcanonical hx)).1
  cases a with
  | operation n =>
    cases b with
    | operation m =>
      have he : index + n = index + m := Owner.operation.inj h
      rw [Nat.add_left_cancel he]
    | fragment m => cases h
  | fragment n =>
    cases b with
    | operation m => cases h
    | fragment m =>
      have he := Owner.fragment.inj h
      cases hn : frags[n]? with
      | none =>
        cases hm : frags[m]? with
        | none =>
          simp only [hn, hm] at he
          rw [Nat.add_left_cancel he]
        | some y =>
          have hy := hlt hm
          simp only [hn, hm] at he
          omega
      | some x =>
        cases hm : frags[m]? with
        | none =>
          have hx := hlt hn
          simp only [hn, hm] at he
          omega
        | some y =>
          simp only [hn, hm] at he
          have hx := getElem?_findIdx hcanonical hn
          rw [he, getElem?_findIdx hcanonical hm] at hx
          cases hx
          rw [(List.getElem?_inj (List.getElem?_eq_some_iff.1 hn).1 hnodup).1 (hn.trans hm.symm)]

/-- One operation of a batch and fragments that names stand for in it, closed under spreads, are a context inside that
of the batch. -/
theorem embeds_of (hop : ops[index]? = some op)
    (hcanonical : ∀ x ∈ frags, all.find? (fun y => y.2.name.text == x.2.name.text) = some x)
    (hnodup : (frags.map fun x => x.2.name.text).Nodup)
    (hop_closed : ∀ s ∈ op.2.body.spreads, s.name.text ∈ frags.map fun x => x.2.name.text)
    (hclosed : ∀ x ∈ frags, ∀ s ∈ x.2.body.spreads, s.name.text ∈ frags.map fun x => x.2.name.text) :
    (Context.of schema [op] frags).Embeds (Context.of schema ops all) (ownerAmong index frags all) := by
  have hinjective := @ownerAmong_injective frags all index hcanonical (List.Nodup.of_map _ hnodup)
  constructor
  · rfl
  · exact fun h => hinjective h
  · refine List.subperm_of_subset ?_ ?_
    · refine Context.nodup_subjects_of.map fun s t he => ?_
      obtain ⟨owner, source, definition⟩ := s
      obtain ⟨owner', source', definition'⟩ := t
      simp only [Subject.renamed, Subject.mk.injEq] at he ⊢
      exact ⟨hinjective he.1, he.2⟩
    · intro s' hs'
      obtain ⟨s, hs, rfl⟩ := List.mem_map.1 hs'
      refine Context.mem_subjects_of.2 ?_
      rcases Context.mem_subjects_of.1 hs with ⟨n, x, hx, rfl⟩ | ⟨n, x, hx, rfl⟩
      · cases n with
        | zero =>
          cases hx
          exact .inl ⟨index, op, hop, rfl⟩
        | succ n => cases hx
      · refine .inr ⟨_, x, getElem?_findIdx hcanonical hx, ?_⟩
        simp only [Subject.renamed, ownerAmong, hx]
  · intro s frag hmem
    obtain ⟨hs, hfrag⟩ := Context.mem_fragments.1 hmem
    rcases Context.mem_subjects_of.1 hs with ⟨n, x, -, rfl⟩ | ⟨n, x, hx, rfl⟩
    · cases hfrag
    · cases hfrag
      rw [Context.fragment?_of, hcanonical x (List.mem_of_getElem? hx)]
      simp only [Option.map_some, Subject.renamed, ownerAmong, hx]
  · intro s hs spread hspread
    rw [Context.names_of]
    rcases Context.mem_subjects_of.1 hs with ⟨n, x, hx, rfl⟩ | ⟨n, x, hx, rfl⟩
    · cases List.mem_singleton.1 (List.mem_of_getElem? hx)
      exact hop_closed spread hspread
    · exact hclosed x (List.mem_of_getElem? hx) spread hspread

end Lists

end QueryBatch.Rules
