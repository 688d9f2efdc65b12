import QueryBatch.Document.Basic

/-!
# Searches through documents

The spreads of a selection set and the variables of a value are searched for with a stack. What the stack holds is found
behind what was found before, so that a search finds what the recursion through the tree collects.

* `IsPreorder`: a recursion that collects what a node is, and then what is inside it.
* `Selection.spreads`, `Value.variableUsesIn`: the recursions for spreads and for variables.
* `SelectionSet.spreads_eq`, `Value.variableUses_eq`: the searches find what they collect.
-/

namespace QueryBatch

/-- A recursion through a tree collects at every node what the node itself is, and then what is inside it. -/
def IsPreorder {α β : Type} (inside : α → List α) (pick : α → Option β) (collect : α → List β) : Prop :=
  ∀ a, collect a = (pick a).toList ++ (inside a).flatMap collect

/-! ## Spreads -/

namespace Selection

/-- The selections in the selection set of a selection. -/
def inside : Selection → List Selection
  | .group _ selections _ | .inline _ selections _ => selections
  | .field _ | .spread _ => []

/-- The spread that a selection is. -/
def spread? : Selection → Option Spread
  | .spread s => some s
  | _ => none

mutual

/-- The spreads inside a selection, in the order of the text. Spreads are not followed. -/
def spreads : Selection → List Spread
  | .field _ => []
  | .group _ selections _ => spreadsIn selections
  | .spread s => [s]
  | .inline _ selections _ => spreadsIn selections

def spreadsIn : List Selection → List Spread
  | [] => []
  | selection :: rest => selection.spreads ++ spreadsIn rest

end

theorem spreadsIn_eq_flatMap (selections : List Selection) : spreadsIn selections = selections.flatMap spreads := by
  induction selections with
  | nil => rfl
  | cons selection rest ih => rw [spreadsIn, ih, List.flatMap_cons]

theorem isPreorder_spreads : IsPreorder inside spread? spreads := by
  intro x
  cases x with
  | field _ | spread _ => rfl
  | group _ selections _ | inline _ selections _ => exact spreadsIn_eq_flatMap selections

/-- A search finds the spreads inside the selections on its stack behind those found before. -/
theorem toList_collectSpreads (stack : List (List Selection)) (found : Array Spread) :
    (collectSpreads stack found).toList = found.toList ++ stack.flatMap spreadsIn := by
  fun_induction collectSpreads stack found with
  | case1 found => simp
  | case2 stack found ih => simp [ih, spreadsIn]
  | case3 field rest stack found ih => simp [ih, spreadsIn, spreads]
  | case4 field selections span rest stack found ih => simp [ih, spreadsIn, spreads]
  | case5 spread rest stack found ih => simp [ih, spreadsIn, spreads]
  | case6 inline selections span rest stack found ih => simp [ih, spreadsIn, spreads]

end Selection

namespace SelectionSet

theorem spreads_eq (set : SelectionSet) : set.spreads = Selection.spreadsIn set.selections := by
  rw [spreads, Selection.toList_collectSpreads, List.flatMap_singleton]
  rfl

theorem spreads_subset (set : SelectionSet) : set.spreads ⊆ Selection.spreadsIn set.selections := by
  rw [spreads_eq]
  exact List.Subset.refl _

theorem spreadsIn_subset (set : SelectionSet) : Selection.spreadsIn set.selections ⊆ set.spreads := by
  rw [spreads_eq]
  exact List.Subset.refl _

end SelectionSet

/-! ## Variables -/

namespace Value

/-- The use of a variable that a value is. -/
def use? : Value → Option (String × Span)
  | .variable name span => some (name, span)
  | _ => none

mutual

/-- The variables in a value with their spans, in the order of the text. -/
def variableUsesIn : Value → List (String × Span)
  | .variable name span => [(name, span)]
  | .list items _ => variableUsesInList items
  | .object fields _ => variableUsesInFields fields
  | _ => []

def variableUsesInList : List Value → List (String × Span)
  | [] => []
  | item :: items => item.variableUsesIn ++ variableUsesInList items

def variableUsesInFields : List (Name × Value) → List (String × Span)
  | [] => []
  | (_, value) :: fields => value.variableUsesIn ++ variableUsesInFields fields

end

theorem variableUsesInList_eq_flatMap (items : List Value) :
    variableUsesInList items = items.flatMap variableUsesIn := by
  induction items with
  | nil => rfl
  | cons item items ih => rw [variableUsesInList, ih, List.flatMap_cons]

theorem variableUsesInFields_eq_flatMap (fields : List (Name × Value)) :
    variableUsesInFields fields = (fields.map Prod.snd).flatMap variableUsesIn := by
  induction fields with
  | nil => rfl
  | cons field fields ih => rw [variableUsesInFields, ih, List.map_cons, List.flatMap_cons]

theorem isPreorder_variableUsesIn : IsPreorder inside use? variableUsesIn := by
  intro value
  cases value
  case list items _ => exact variableUsesInList_eq_flatMap items
  case object fields _ => exact variableUsesInFields_eq_flatMap fields
  all_goals rfl

/-- A search finds the variables in the values on its stack behind those found before. -/
theorem toList_collectVariables (stack : List Value) (found : Array (String × Span)) :
    (collectVariables stack found).toList = found.toList ++ stack.flatMap variableUsesIn := by
  fun_induction collectVariables stack found with
  | case1 found => simp
  | case2 name span stack found ih => simp [ih, variableUsesIn]
  | case3 value stack found hvalue ih =>
    have hnone : value.use? = none := by
      unfold use?
      split
      · exact absurd rfl (hvalue _ _)
      · rfl
    rw [ih, pushAll_reverse, List.flatMap_append, List.flatMap_cons, isPreorder_variableUsesIn value, hnone]
    rfl

theorem variableUses_eq (value : Value) : value.variableUses = value.variableUsesIn := by
  rw [variableUses, toList_collectVariables, List.flatMap_singleton]
  rfl

end Value

end QueryBatch
