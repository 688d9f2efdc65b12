import QueryBatch.Proofs.Document.Traversal
import QueryBatch.Token.Basic

/-!
# The names in a definition

All names that stand in a definition, each with its place: those of nodes, enum values, and type names outside lists.
The name of a variable is none of them, for its place is that of the dollar sign as well.

* `Value.names`, `Selection.names`, `Definition.names` and the like: the names in a node, in the order of the text.
* `AreTokens`: names that are name tokens of a list of tokens.
-/

namespace QueryBatch

/-! ## Names of nodes -/

mutual

def Value.names : Value → List Name
  | .enum name span => [⟨name, span⟩]
  | .list items _ => Value.namesInItems items
  | .object fields _ => Value.namesInFields fields
  | _ => []

def Value.namesInItems : List Value → List Name
  | [] => []
  | item :: items => item.names ++ Value.namesInItems items

def Value.namesInFields : List (Name × Value) → List Name
  | [] => []
  | (name, value) :: fields => name :: value.names ++ Value.namesInFields fields

end

def Argument.names (a : Argument) : List Name := a.name :: a.value.names

def Directive.names (d : Directive) : List Name := d.name :: d.arguments.flatMap Argument.names

def Field.names (f : Field) : List Name :=
  f.label.toList ++ f.name :: f.arguments.flatMap Argument.names ++ f.directives.flatMap Directive.names

def Spread.names (s : Spread) : List Name := s.name :: s.directives.flatMap Directive.names

def Inline.names (i : Inline) : List Name := i.condition.toList ++ i.directives.flatMap Directive.names

mutual

def Selection.names : Selection → List Name
  | .field f => f.names
  | .group f selections _ => f.names ++ Selection.namesIn selections
  | .spread s => s.names
  | .inline i selections _ => i.names ++ Selection.namesIn selections

def Selection.namesIn : List Selection → List Name
  | [] => []
  | selection :: rest => selection.names ++ Selection.namesIn rest

end

def SelectionSet.names (set : SelectionSet) : List Name := Selection.namesIn set.selections

/-- The name that a type starts with, outside lists. -/
def TypeRef.leadingNames (t : TypeRef) (s : Span) : List Name :=
  match t.nullable with
  | .named name => [⟨name, ⟨s.start, s.start + name.utf8ByteSize⟩⟩]
  | _ => []

def VariableDefinition.names (v : VariableDefinition) : List Name :=
  v.type.leadingNames v.typeSpan ++ v.defaultValue.toList.flatMap Value.names ++ v.directives.flatMap Directive.names

def Operation.names (op : Operation) : List Name :=
  op.name.toList ++ op.variableDefinitions.flatMap VariableDefinition.names ++ op.directives.flatMap Directive.names ++
    op.body.names

def Fragment.names (frag : Fragment) : List Name :=
  frag.name :: frag.condition :: frag.directives.flatMap Directive.names ++ frag.body.names

def Definition.names : Definition → List Name
  | .operation op => op.names
  | .fragment frag => frag.names

theorem Value.namesInItems_eq (items : List Value) : namesInItems items = items.flatMap names := by
  induction items with
  | nil => rfl
  | cons item items ih => rw [namesInItems, ih, List.flatMap_cons]

theorem Value.namesInFields_eq (fields : List (Name × Value)) :
    namesInFields fields = fields.flatMap fun f => f.1 :: f.2.names := by
  induction fields with
  | nil => rfl
  | cons f fields ih => rw [namesInFields, ih, List.flatMap_cons]

theorem Selection.namesIn_eq (selections : List Selection) : namesIn selections = selections.flatMap names := by
  induction selections with
  | nil => rfl
  | cons selection rest ih => rw [namesIn, ih, List.flatMap_cons]

@[simp] theorem TypeRef.leadingNames_required (t : TypeRef) (s : Span) :
    t.required.leadingNames s = t.leadingNames s := by
  cases t <;> rfl

/-- A type that is no list starts with its name. -/
theorem TypeRef.leadingNames_of_nullable {t : TypeRef} {base : String} (h : t.nullable = .named base) (s : Span) :
    t.leadingNames s = [⟨t.baseName, ⟨s.start, s.start + t.baseName.utf8ByteSize⟩⟩] := by
  have hbase : t.baseName = base := by
    have hnullable : t.nullable.baseName = t.baseName := by cases t <;> rfl
    rw [← hnullable, h]
    rfl
  rw [leadingNames, h, hbase]

/-- The names of the default of a variable are names of its definition. -/
theorem VariableDefinition.default_subset_names {v : VariableDefinition} {value : Value}
    (h : v.defaultValue = some value) : value.names ⊆ v.names := fun n hn => by
  simp only [names, h, Option.toList_some, List.flatMap_singleton, List.mem_append, hn, true_or, or_true]

mutual

theorem Selection.names_of_spread : ∀ (x : Selection) {s : Spread}, s ∈ x.spreads → s.names ⊆ x.names
  | .field _, _, h => absurd h List.not_mem_nil
  | .group _ selections _, _, h => List.subset_append_of_subset_right _ (Selection.names_of_spreadIn selections h)
  | .spread _, _, h => List.mem_singleton.1 h ▸ List.Subset.refl _
  | .inline _ selections _, _, h => List.subset_append_of_subset_right _ (Selection.names_of_spreadIn selections h)

theorem Selection.names_of_spreadIn : ∀ (selections : List Selection) {s : Spread}, s ∈ spreadsIn selections →
    s.names ⊆ namesIn selections
  | [], _, h => absurd h List.not_mem_nil
  | x :: rest, _, h => (List.mem_append.1 h).elim
      (fun h => List.subset_append_of_subset_left _ (Selection.names_of_spread x h))
      (fun h => List.subset_append_of_subset_right _ (Selection.names_of_spreadIn rest h))

end

/-- The names of the spreads of a definition are names of it. -/
theorem Definition.spread_subset_names {d : Definition} {s : Spread} (h : s ∈ d.body.spreads) : s.names ⊆ d.names := by
  rw [SelectionSet.spreads_eq] at h
  refine List.Subset.trans (Selection.names_of_spreadIn _ h) ?_
  cases d with
  | operation op => exact List.subset_append_right _ _
  | fragment frag => exact List.subset_append_right _ _

/-! ## Tokens -/

/-- The token of a name. -/
def Name.token (n : Name) : Token := ⟨.name, n.text, n.span⟩

/-- Names that are name tokens of a list. -/
def AreTokens (tokens : List Token) (names : List Name) : Prop := ∀ n ∈ names, n.token ∈ tokens

section AreTokens

variable {tokens : List Token} {n : Name} {names more : List Name}

@[simp] theorem areTokens_nil : AreTokens tokens [] := nofun

@[simp] theorem areTokens_cons : AreTokens tokens (n :: names) ↔ n.token ∈ tokens ∧ AreTokens tokens names :=
  List.forall_mem_cons

@[simp] theorem areTokens_append : AreTokens tokens (names ++ more) ↔ AreTokens tokens names ∧ AreTokens tokens more :=
  List.forall_mem_append

@[simp] theorem areTokens_flatMap {α : Type} {as : List α} {f : α → List Name} :
    AreTokens tokens (as.flatMap f) ↔ ∀ a ∈ as, AreTokens tokens (f a) :=
  List.forall_mem_flatMap

end AreTokens

end QueryBatch
