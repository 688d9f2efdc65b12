import QueryBatch.Document.Basic

/-!
# Nesting

How deep the nodes of a document lie inside one another. Selection sets, values and types count, those inside a list
too; while such a node is read it is open, so that the nesting is the greatest number of nodes open at once.

* `greatest`: the greatest weight of the members of a list.
* `TypeRef.nesting`, `Value.nesting`, `SelectionSet.nesting`, …, `Document.nesting`: the nesting of every kind of node.
-/

namespace QueryBatch

/-- The greatest weight of the members of a list, zero if it has none. -/
def greatest {α : Type} (weight : α → Nat) : List α → Nat
  | [] => 0
  | a :: rest => max (weight a) (greatest weight rest)

theorem le_greatest {α : Type} {f : α → Nat} {items : List α} {a : α} (h : a ∈ items) :
    f a ≤ greatest f items := by
  induction items with
  | nil => cases h
  | cons b items ih =>
    rw [greatest]
    rcases List.mem_cons.1 h with rfl | h
    · exact Nat.le_max_left _ _
    · exact Nat.le_trans (ih h) (Nat.le_max_right _ _)

/-! ## Types and values -/

/-- A type is one node, and so is the type of its items. A non-null mark is none. -/
def TypeRef.nesting : TypeRef → Nat
  | .named _ => 1
  | .list item => item.nesting + 1
  | .nonNull inner => inner.nesting

@[simp] theorem TypeRef.nesting_required (t : TypeRef) : t.required.nesting = t.nesting := by
  cases t <;> rfl

namespace Value

mutual

def nesting : Value → Nat
  | .list items _ => nestingOfItems items + 1
  | .object fields _ => nestingOfFields fields + 1
  | _ => 1

def nestingOfItems : List Value → Nat
  | [] => 0
  | item :: items => max item.nesting (nestingOfItems items)

def nestingOfFields : List (Name × Value) → Nat
  | [] => 0
  | (_, value) :: fields => max value.nesting (nestingOfFields fields)

end

theorem nestingOfItems_eq (items : List Value) : nestingOfItems items = greatest nesting items := by
  induction items with
  | nil => rfl
  | cons item items ih => rw [nestingOfItems, ih, greatest]

theorem nestingOfFields_eq (fields : List (Name × Value)) :
    nestingOfFields fields = greatest (fun f => f.2.nesting) fields := by
  induction fields with
  | nil => rfl
  | cons f fields ih => rw [nestingOfFields, ih, greatest]

@[simp] theorem nesting_list (items : List Value) (span : Span) :
    (list items span).nesting = greatest nesting items + 1 := by
  rw [nesting, nestingOfItems_eq]

@[simp] theorem nesting_object (fields : List (Name × Value)) (span : Span) :
    (object fields span).nesting = greatest (fun f => f.2.nesting) fields + 1 := by
  rw [nesting, nestingOfFields_eq]

end Value

theorem Value.nesting_pos (v : Value) : 0 < v.nesting := by
  cases v <;> exact Nat.succ_pos _

/-- Arguments and directives are no nodes of their own. -/
def nestingOfArguments (items : List Argument) : Nat := greatest (fun a => a.value.nesting) items

def nestingOfDirectives (marks : List Directive) : Nat := greatest (fun d => nestingOfArguments d.arguments) marks

/-! ## Selections -/

/-- A field without its selection set. -/
def Field.nesting (f : Field) : Nat := max (nestingOfArguments f.arguments) (nestingOfDirectives f.directives)

namespace Selection

mutual

def nesting : Selection → Nat
  | .field f => f.nesting
  | .group f selections _ => max f.nesting (nestingIn selections + 1)
  | .spread s => nestingOfDirectives s.directives
  | .inline i selections _ => max (nestingOfDirectives i.directives) (nestingIn selections + 1)

def nestingIn : List Selection → Nat
  | [] => 0
  | selection :: rest => max selection.nesting (nestingIn rest)

end

theorem nestingIn_eq (selections : List Selection) : nestingIn selections = greatest nesting selections := by
  induction selections with
  | nil => rfl
  | cons selection rest ih => rw [nestingIn, ih, greatest]

end Selection

def SelectionSet.nesting (set : SelectionSet) : Nat := greatest Selection.nesting set.selections + 1

@[simp] theorem Selection.nesting_group (f : Field) (set : SelectionSet) :
    (group f set.selections set.span).nesting = max f.nesting set.nesting := by
  rw [nesting, nestingIn_eq, SelectionSet.nesting]

@[simp] theorem Selection.nesting_inline (i : Inline) (set : SelectionSet) :
    (inline i set.selections set.span).nesting = max (nestingOfDirectives i.directives) set.nesting := by
  rw [nesting, nestingIn_eq, SelectionSet.nesting]

/-! ## Definitions -/

def VariableDefinition.nesting (v : VariableDefinition) : Nat :=
  max v.type.nesting (max (greatest Value.nesting v.defaultValue.toList) (nestingOfDirectives v.directives))

def Operation.nesting (op : Operation) : Nat :=
  max (greatest VariableDefinition.nesting op.variableDefinitions)
    (max (nestingOfDirectives op.directives) op.body.nesting)

def Fragment.nesting (frag : Fragment) : Nat := max (nestingOfDirectives frag.directives) frag.body.nesting

def Definition.nesting : Definition → Nat
  | .operation op => op.nesting
  | .fragment frag => frag.nesting

/-- The greatest number of selection sets, values and types of a document that are open at once. -/
def Document.nesting (document : Document) : Nat := greatest Definition.nesting document.definitions

end QueryBatch
