import QueryBatch.Proofs.Document.Outline

/-!
# What searches through documents find, and in what order

A node has a place, the way down to it. Places are compared number by number, which is the order in which their nodes
stand in the text. A recursion that puts what a node is in front of what is inside it comes to all nodes in the order of
their places, and the searches with a stack find what such a recursion finds.

* `Place`, `nodeAt?`, `nodeAmong?`: places, and the nodes there.
* `Enumerates`: what is looked up at all places, each once and in their order.
* `IsPreorder.exists_enumerates`: a recursion in preorder enumerates what there is to find in a node.
* `searches_preorder`: the searches for spreads and for variables enumerate all of them.
* `SelectionSet.row_spreads`, `Value.row_variableUses`: in the text they stand one behind the other.
-/

namespace QueryBatch

/-! ## Places -/

/-- The way down to a node: which of the nodes inside a node to go on to, level by level. -/
abbrev Place := List Nat

/-- The same way past one more node in front. -/
def Place.next : Place → Place
  | [] => []
  | i :: place => (i + 1) :: place

theorem Place.next_lt_next {p q : Place} (hp : p ≠ []) (h : p < q) : p.next < q.next := by
  obtain ⟨i, p, rfl⟩ := List.exists_cons_of_ne_nil hp
  cases q with
  | nil => exact absurd h (List.not_lt_nil _)
  | cons j q =>
    rcases List.cons_lt_cons_iff.1 h with hij | ⟨rfl, hpq⟩
    · exact List.cons_lt_cons_iff.2 (.inl (Nat.succ_lt_succ hij))
    · exact List.cons_lt_cons_iff.2 (.inr ⟨rfl, hpq⟩)

section Nodes

variable {α : Type} (inside : α → List α)

/-- The node at a place in a node. -/
def nodeAt? (a : α) : Place → Option α
  | [] => some a
  | i :: place => (inside a)[i]?.bind fun b => nodeAt? b place

/-- The node at a place among nodes. -/
def nodeAmong? (nodes : List α) : Place → Option α
  | [] => none
  | i :: place => nodes[i]?.bind fun a => nodeAt? inside a place

end Nodes

/-! ## Enumerations -/

/-- A list of what is looked up at places: each place once, in the order of places, and no place left out. -/
structure Enumerates {β : Type} (lookup : Place → Option β) (places : List Place) (found : List β) : Prop where
  ascending : places.Pairwise (· < ·)
  looked : places.map lookup = found.map some
  complete : ∀ place, (lookup place).isSome → place ∈ places

namespace Enumerates

variable {β : Type} {lookup rest : Place → Option β} {places places' : List Place} {found found' : List β}

theorem isSome (h : Enumerates lookup places found) {place : Place} (hp : place ∈ places) : (lookup place).isSome := by
  have hmem : lookup place ∈ found.map some := h.looked ▸ List.mem_map_of_mem hp
  obtain ⟨b, -, hb⟩ := List.mem_map.1 hmem
  rw [← hb]
  rfl

/-- Where nothing is looked up at the start, no place that is listed is the start. -/
theorem ne_nil (h : Enumerates lookup places found) (hnil : lookup [] = none) : ∀ place ∈ places, place ≠ [] := by
  rintro place hp rfl
  have hsome := h.isSome hp
  rw [hnil] at hsome
  cases hsome

theorem of_none (h : ∀ place, lookup place = none) : Enumerates lookup [] [] :=
  ⟨.nil, rfl, fun place hp => by rw [h place] at hp; cases hp⟩

/-- What is in the first node, and then what is among the nodes behind it. -/
theorem cons (hnone : lookup [] = none) (hfirst : Enumerates (fun place => lookup (0 :: place)) places found)
    (hrest : Enumerates rest places' found') (hnil : rest [] = none)
    (hnext : ∀ i place, lookup ((i + 1) :: place) = rest (i :: place)) :
    Enumerates lookup (places.map (0 :: ·) ++ places'.map Place.next) (found ++ found') := by
  have hne : ∀ place ∈ places', place ≠ [] := hrest.ne_nil hnil
  refine ⟨List.pairwise_append.2 ⟨?_, ?_, ?_⟩, ?_, ?_⟩
  · exact List.pairwise_map.2 (hfirst.ascending.imp fun h => List.cons_lt_cons_iff.2 (.inr ⟨rfl, h⟩))
  · refine List.pairwise_map.2 (hrest.ascending.imp_of_mem fun hp _ h => Place.next_lt_next (hne _ hp) h)
  · intro p hp q hq
    obtain ⟨p, -, rfl⟩ := List.mem_map.1 hp
    obtain ⟨behind, hbehind, rfl⟩ := List.mem_map.1 hq
    obtain ⟨i, behind, rfl⟩ := List.exists_cons_of_ne_nil (hne behind hbehind)
    exact List.cons_lt_cons_iff.2 (.inl (Nat.succ_pos i))
  · have hshift : ∀ place ∈ places', (lookup ∘ Place.next) place = rest place := by
      intro place hp
      obtain ⟨i, place, rfl⟩ := List.exists_cons_of_ne_nil (hne place hp)
      exact hnext i place
    rw [List.map_append, List.map_append, List.map_map, List.map_map, List.map_congr_left hshift, hrest.looked,
      ← hfirst.looked]
    rfl
  · intro place hp
    rcases place with _ | ⟨_ | i, place⟩
    · rw [hnone] at hp
      cases hp
    · exact List.mem_append_left _ (List.mem_map_of_mem (hfirst.complete place hp))
    · rw [hnext] at hp
      exact List.mem_append_right _ (List.mem_map_of_mem (hrest.complete _ hp))

/-- What a node is, in front of what is inside it. -/
theorem root (hrest : Enumerates rest places found) (hnil : rest [] = none)
    (hbelow : ∀ i place, lookup (i :: place) = rest (i :: place)) :
    ∃ places, Enumerates lookup places ((lookup []).toList ++ found) := by
  have hne : ∀ place ∈ places, place ≠ [] := hrest.ne_nil hnil
  have hlooked : places.map lookup = found.map some := by
    rw [← hrest.looked]
    refine List.map_congr_left fun place hp => ?_
    obtain ⟨i, place, rfl⟩ := List.exists_cons_of_ne_nil (hne place hp)
    exact hbelow i place
  cases hroot : lookup [] with
  | none =>
    refine ⟨places, hrest.ascending, hlooked, fun place hp => ?_⟩
    rcases place with _ | ⟨i, place⟩
    · rw [hroot] at hp
      cases hp
    · rw [hbelow] at hp
      exact hrest.complete _ hp
  | some b =>
    refine ⟨[] :: places, List.pairwise_cons.2 ⟨fun place hp => ?_, hrest.ascending⟩, ?_, fun place hp => ?_⟩
    · obtain ⟨i, place, rfl⟩ := List.exists_cons_of_ne_nil (hne place hp)
      exact List.nil_lt_cons i place
    · rw [List.map_cons, hroot, hlooked]
      rfl
    · rcases place with _ | ⟨i, place⟩
      · exact List.mem_cons_self
      · rw [hbelow] at hp
        exact List.mem_cons_of_mem _ (hrest.complete _ hp)

end Enumerates

/-! ## Recursions in preorder -/

section Preorder

variable {α β : Type} {inside : α → List α} {pick : α → Option β} {collect : α → List β}

/-- Nodes whose insides are enumerated are enumerated themselves, one behind the other. -/
theorem exists_enumerates_among (nodes : List α)
    (h : ∀ a ∈ nodes, ∃ places, Enumerates (fun place => (nodeAt? inside a place).bind pick) places (collect a)) :
    ∃ places, Enumerates (fun place => (nodeAmong? inside nodes place).bind pick) places (nodes.flatMap collect) := by
  induction nodes with
  | nil => exact ⟨[], .of_none fun place => by cases place <;> rfl⟩
  | cons a rest ih =>
    obtain ⟨places, hfirst⟩ := h a List.mem_cons_self
    obtain ⟨places', hrest⟩ := ih fun b hb => h b (List.mem_cons_of_mem a hb)
    exact ⟨_, .cons rfl hfirst hrest rfl fun _ _ => rfl⟩

/-- A recursion in preorder enumerates what there is to find in a node, if the nodes inside a node are smaller. -/
theorem IsPreorder.exists_enumerates [SizeOf α] (h : IsPreorder inside pick collect)
    (hsize : ∀ a, ∀ b ∈ inside a, sizeOf b < sizeOf a) (a : α) :
    ∃ places, Enumerates (fun place => (nodeAt? inside a place).bind pick) places (collect a) := by
  have hinside := exists_enumerates_among (inside a) fun b hb =>
    have := hsize a b hb
    h.exists_enumerates hsize b
  obtain ⟨places, hinside⟩ := hinside
  rw [h a]
  exact hinside.root rfl fun _ _ => rfl
termination_by sizeOf a

end Preorder

/-! ## The searches -/

theorem Selection.sizeOf_lt_of_mem_inside (x : Selection) : ∀ y ∈ x.inside, sizeOf y < sizeOf x := by
  intro y hy
  cases x with
  | field _ | spread _ => cases hy
  | group _ selections _ | inline _ selections _ =>
    have hlt := List.sizeOf_lt_of_mem (show y ∈ selections from hy)
    simp only [group.sizeOf_spec, inline.sizeOf_spec]
    omega

theorem Value.sizeOf_lt_of_mem_inside (value : Value) : ∀ v ∈ value.inside, sizeOf v < sizeOf value := by
  intro v hv
  cases value
  case list items _ =>
    have hlt := List.sizeOf_lt_of_mem (show v ∈ items from hv)
    simp only [list.sizeOf_spec]
    omega
  case object fields _ =>
    obtain ⟨⟨name, v⟩, hfield, rfl⟩ := List.mem_map.1 hv
    have hlt := List.sizeOf_lt_of_mem hfield
    simp only [Prod.mk.sizeOf_spec, object.sizeOf_spec] at hlt ⊢
    omega
  all_goals cases hv

/-- The searches with a stack find what recursions in preorder collect: every spread that stands in a selection set, in
fields and inline fragments at any depth, and every variable in a value, each once and in the order of their places. -/
theorem searches_preorder :
    (IsPreorder Selection.inside Selection.spread? Selection.spreads ∧ ∀ set : SelectionSet,
      set.spreads = set.selections.flatMap Selection.spreads ∧ ∃ places, Enumerates
        (fun place => (nodeAmong? Selection.inside set.selections place).bind Selection.spread?) places set.spreads) ∧
    (IsPreorder Value.inside Value.use? Value.variableUsesIn ∧ ∀ value : Value,
      value.variableUses = value.variableUsesIn ∧ ∃ places, Enumerates
        (fun place => (nodeAt? Value.inside value place).bind Value.use?) places value.variableUses) := by
  refine ⟨⟨Selection.isPreorder_spreads, fun set => ?_⟩, Value.isPreorder_variableUsesIn, fun value => ?_⟩
  · have hspreads : set.spreads = set.selections.flatMap Selection.spreads := by
      rw [set.spreads_eq, Selection.spreadsIn_eq_flatMap]
    refine ⟨hspreads, ?_⟩
    rw [hspreads]
    exact exists_enumerates_among _ fun x _ =>
      Selection.isPreorder_spreads.exists_enumerates Selection.sizeOf_lt_of_mem_inside x
  · rw [value.variableUses_eq]
    exact ⟨rfl, Value.isPreorder_variableUsesIn.exists_enumerates Value.sizeOf_lt_of_mem_inside value⟩

/-! ## The order of the text -/

open Outline

variable {text : String}

namespace Selection

mutual

/-- The spreads inside a selection stand one behind the other in the text of the selection. -/
theorem row_spreads : ∀ x : Selection, x.outline.StandsIn text →
    Row text x.outline.span.start (x.spreads.map Spread.outline) x.outline.span.stop
  | .field _, _ => .nil
  | .group _ selections _, h | .inline _ selections _, h =>
    row_spreadsIn selections (h.2.braced (List.mem_append_right _ (List.mem_singleton_self _)))
  | .spread _, h => Row.singleton_iff.2 ⟨Nat.le_refl _, Nat.le_refl _, h⟩

theorem row_spreadsIn {first last : Nat} : ∀ selections : List Selection,
    Row text first (outlinesOfAll selections) last → Row text first ((spreadsIn selections).map Spread.outline) last
  | [], _ => .nil
  | x :: rest, h => by
    rw [spreadsIn, List.map_append]
    exact h.replace (row_spreads x h.2.2.1) (row_spreadsIn rest h.2.2.2)

end

end Selection

/-- The spreads of a selection set stand behind its opening brace, one behind the other. -/
theorem SelectionSet.row_spreads {set : SelectionSet} (h : set.outline.StandsIn text) :
    Row text (set.span.start + 1) (set.spreads.map Spread.outline) set.span.stop := by
  rw [set.spreads_eq]
  exact Selection.row_spreadsIn set.selections h.2.2.2.2

namespace Value

/-- The node of the use of a variable. -/
def useOutline (use : String × Span) : Outline := .node use.2 []

mutual

/-- The variables in a value stand one behind the other in its text. -/
theorem row_variableUsesIn : ∀ v : Value, v.outline.StandsIn text →
    Row text v.outline.span.start (v.variableUsesIn.map useOutline) v.outline.span.stop
  | .variable _ _, h => Row.singleton_iff.2 ⟨Nat.le_refl _, Nat.le_refl _, h⟩
  | .list items _, h => row_variableUsesInList items h.2
  | .object fields _, h => row_variableUsesInFields fields h.2
  | .int _ _, _ | .float _ _, _ | .string _ _, _ | .boolean _ _, _ | .null _, _ | .enum _ _, _ => .nil

theorem row_variableUsesInList {first last : Nat} : ∀ items : List Value,
    Row text first (outlinesOfItems items) last → Row text first ((variableUsesInList items).map useOutline) last
  | [], _ => .nil
  | item :: items, h => by
    rw [variableUsesInList, List.map_append]
    exact h.replace (row_variableUsesIn item h.2.2.1) (row_variableUsesInList items h.2.2.2)

theorem row_variableUsesInFields {first last : Nat} : ∀ fields : List (Name × Value),
    Row text first (outlinesOfFields fields) last → Row text first ((variableUsesInFields fields).map useOutline) last
  | [], _ => .nil
  | (name, value) :: fields, h => by
    obtain ⟨hstart, -, hname, h⟩ := h
    rw [variableUsesInFields, List.map_append]
    exact (h.replace (row_variableUsesIn value h.2.2.1) (row_variableUsesInFields fields h.2.2.2)).mono
      (Nat.le_trans hstart hname.fitsIn.ordered) (Nat.le_refl _)

end

theorem row_variableUses {value : Value} (h : value.outline.StandsIn text) :
    Row text value.span.start (value.variableUses.map useOutline) value.span.stop := by
  rw [value.variableUses_eq, ← value.span_outline]
  exact row_variableUsesIn value h

end Value

end QueryBatch
