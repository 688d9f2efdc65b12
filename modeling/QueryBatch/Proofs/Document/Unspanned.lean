import QueryBatch.Document.Print
import QueryBatch.Proofs.Document.Traversal

/-!
# Documents up to spans

* `Value.unspanned`, `Selection.unspanned`, `Definition.unspanned`, `Document.unspanned`: nodes whose spans are
  forgotten. Two nodes are equal up to spans if these are equal.
* `Fragment.text_unspanned`, `Definition.text_unspanned`: the printed text does not depend on spans.
* `SelectionSet.spreads_unspanned`: neither do the names spread.
-/

namespace QueryBatch

/-- The span that stands for no place. -/
def Span.blank : Span := .emptyAt 0

def Name.unspanned (n : Name) : Name := { n with span := .blank }

@[simp] theorem Name.text_unspanned (n : Name) : n.unspanned.text = n.text := rfl

/-- Two names of one text are equal up to spans. -/
theorem Name.unspanned_eq {a b : Name} (h : a.text = b.text) : a.unspanned = b.unspanned := by
  simp [unspanned, h]

/-! ## Values, arguments, directives -/

mutual

def Value.unspanned : Value → Value
  | .variable name _ => .variable name .blank
  | .int digits _ => .int digits .blank
  | .float digits _ => .float digits .blank
  | .string content _ => .string content .blank
  | .boolean holds _ => .boolean holds .blank
  | .null _ => .null .blank
  | .enum name _ => .enum name .blank
  | .list items _ => .list (Value.unspannedItems items) .blank
  | .object fields _ => .object (Value.unspannedFields fields) .blank

def Value.unspannedItems : List Value → List Value
  | [] => []
  | item :: items => item.unspanned :: Value.unspannedItems items

def Value.unspannedFields : List (Name × Value) → List (Name × Value)
  | [] => []
  | (name, value) :: fields => (name.unspanned, value.unspanned) :: Value.unspannedFields fields

end

def Argument.unspanned (a : Argument) : Argument := ⟨a.name.unspanned, a.value.unspanned, .blank⟩

def Directive.unspanned (d : Directive) : Directive := ⟨d.name.unspanned, d.arguments.map Argument.unspanned, .blank⟩

namespace Value

theorem unspannedItems_eq_map (items : List Value) : unspannedItems items = items.map unspanned := by
  induction items with
  | nil => rfl
  | cons item items ih => simp [unspannedItems, ih]

theorem unspannedFields_eq_map (fields : List (Name × Value)) :
    unspannedFields fields = fields.map fun f => (f.1.unspanned, f.2.unspanned) := by
  induction fields with
  | nil => rfl
  | cons f fields ih => simp [unspannedFields, ih]

theorem textsOfList_eq_map (items : List Value) : textsOfList items = items.map text := by
  induction items with
  | nil => rfl
  | cons item items ih => simp [textsOfList, ih]

theorem textsOfFields_eq_map (fields : List (Name × Value)) :
    textsOfFields fields = fields.map fun f => f.1.text ++ ": " ++ f.2.text := by
  induction fields with
  | nil => rfl
  | cons f fields ih => simp [textsOfFields, ih]

mutual

@[simp] theorem text_unspanned : ∀ v : Value, v.unspanned.text = v.text
  | .variable _ _ | .int _ _ | .float _ _ | .string _ _ | .boolean _ _ | .null _ | .enum _ _ => rfl
  | .list items _ => by simp only [unspanned, text, textsOfList_unspanned items]
  | .object fields _ => by simp only [unspanned, text, textsOfFields_unspanned fields]

theorem textsOfList_unspanned : ∀ items : List Value, textsOfList (unspannedItems items) = textsOfList items
  | [] => rfl
  | item :: items => by simp only [unspannedItems, textsOfList, text_unspanned item, textsOfList_unspanned items]

theorem textsOfFields_unspanned : ∀ fields : List (Name × Value),
    textsOfFields (unspannedFields fields) = textsOfFields fields
  | [] => rfl
  | (name, value) :: fields => by
    simp only [unspannedFields, textsOfFields, Name.text_unspanned, text_unspanned value,
      textsOfFields_unspanned fields]

end

end Value

@[simp] theorem Argument.text_unspanned (a : Argument) : a.unspanned.text = a.text := by
  simp [text, unspanned]

@[simp] theorem argumentsText_unspanned (as : List Argument) :
    argumentsText (as.map Argument.unspanned) = argumentsText as := by
  simp [argumentsText, Function.comp_def]

@[simp] theorem directivesText_unspanned (ds : List Directive) :
    directivesText (ds.map Directive.unspanned) = directivesText ds := by
  simp [directivesText, Directive.text, Directive.unspanned, Function.comp_def]

/-! ## Selections -/

def Field.unspanned (f : Field) : Field :=
  ⟨f.label.map Name.unspanned, f.name.unspanned, f.arguments.map Argument.unspanned,
    f.directives.map Directive.unspanned, .blank⟩

def Spread.unspanned (s : Spread) : Spread := ⟨s.name.unspanned, s.directives.map Directive.unspanned, .blank⟩

def Inline.unspanned (i : Inline) : Inline :=
  ⟨i.condition.map Name.unspanned, i.directives.map Directive.unspanned, .blank⟩

mutual

def Selection.unspanned : Selection → Selection
  | .field f => .field f.unspanned
  | .group f selections _ => .group f.unspanned (Selection.unspannedAll selections) .blank
  | .spread s => .spread s.unspanned
  | .inline i selections _ => .inline i.unspanned (Selection.unspannedAll selections) .blank

def Selection.unspannedAll : List Selection → List Selection
  | [] => []
  | selection :: rest => selection.unspanned :: Selection.unspannedAll rest

end

def SelectionSet.unspanned (set : SelectionSet) : SelectionSet := ⟨Selection.unspannedAll set.selections, .blank⟩

theorem Field.text_unspanned (f : Field) : f.unspanned.text = f.text := by
  cases h : f.label <;> simp [text, unspanned, h]

theorem Spread.text_unspanned (s : Spread) : s.unspanned.text = s.text := by
  simp [text, unspanned]

theorem Inline.text_unspanned (i : Inline) : i.unspanned.text = i.text := by
  cases h : i.condition <;> simp [text, unspanned, h]

namespace Selection

theorem unspannedAll_eq_map (selections : List Selection) : unspannedAll selections = selections.map unspanned := by
  induction selections with
  | nil => rfl
  | cons selection rest ih => simp [unspannedAll, ih]

mutual

theorem text_unspanned : ∀ (level : Nat) (s : Selection), s.unspanned.text level = s.text level
  | _, .field f => f.text_unspanned
  | level, .group f selections _ => by
    simp only [unspanned, text, f.text_unspanned, textsIn_unspanned (level + 1) selections]
  | _, .spread s => s.text_unspanned
  | level, .inline i selections _ => by
    simp only [unspanned, text, i.text_unspanned, textsIn_unspanned (level + 1) selections]

theorem textsIn_unspanned : ∀ (level : Nat) (selections : List Selection),
    textsIn level (unspannedAll selections) = textsIn level selections
  | _, [] => rfl
  | level, selection :: rest => by
    simp only [unspannedAll, textsIn, text_unspanned level selection, textsIn_unspanned level rest]

end

mutual

theorem spreads_unspanned : ∀ s : Selection, s.unspanned.spreads = s.spreads.map Spread.unspanned
  | .field _ | .spread _ => rfl
  | .group _ selections _ => by simp only [unspanned, spreads, spreadsIn_unspanned selections]
  | .inline _ selections _ => by simp only [unspanned, spreads, spreadsIn_unspanned selections]

theorem spreadsIn_unspanned : ∀ selections : List Selection,
    spreadsIn (unspannedAll selections) = (spreadsIn selections).map Spread.unspanned
  | [] => rfl
  | selection :: rest => by
    simp only [unspannedAll, spreadsIn, spreads_unspanned selection, spreadsIn_unspanned rest, List.map_append]

end

end Selection

@[simp] theorem SelectionSet.text_unspanned (set : SelectionSet) : set.unspanned.text = set.text := by
  simp only [text, unspanned, Selection.textsIn_unspanned]

theorem SelectionSet.spreads_unspanned (set : SelectionSet) :
    set.unspanned.spreads = set.spreads.map Spread.unspanned := by
  simp only [spreads_eq]
  exact Selection.spreadsIn_unspanned set.selections

/-! ## Definitions -/

def VariableDefinition.unspanned (v : VariableDefinition) : VariableDefinition :=
  ⟨v.name.unspanned, v.type, .blank, v.defaultValue.map Value.unspanned, v.directives.map Directive.unspanned, .blank⟩

def Operation.unspanned (op : Operation) : Operation :=
  ⟨op.kind, op.name.map Name.unspanned, op.variableDefinitions.map VariableDefinition.unspanned,
    op.directives.map Directive.unspanned, op.body.unspanned, .blank⟩

def Fragment.unspanned (frag : Fragment) : Fragment :=
  ⟨frag.name.unspanned, frag.condition.unspanned, frag.directives.map Directive.unspanned, frag.body.unspanned, .blank⟩

def Definition.unspanned : Definition → Definition
  | .operation op => .operation op.unspanned
  | .fragment frag => .fragment frag.unspanned

def Document.unspanned (d : Document) : Document := ⟨d.definitions.map Definition.unspanned⟩

@[simp] theorem VariableDefinition.text_unspanned (v : VariableDefinition) : v.unspanned.text = v.text := by
  cases h : v.defaultValue <;> simp [text, unspanned, h]

theorem Operation.text_unspanned (op : Operation) : op.unspanned.text = op.text := by
  have hs : op.unspanned.isShorthand = op.isShorthand := by
    simp [isShorthand, unspanned]
  have hh : op.unspanned.headText = op.headText := by
    cases h : op.name <;> simp [headText, unspanned, h, Function.comp_def]
  have hb : op.unspanned.body.text = op.body.text := op.body.text_unspanned
  simp only [text, hs, hh, hb]

theorem Fragment.text_unspanned (frag : Fragment) : frag.unspanned.text = frag.text := by
  simp [text, unspanned]

theorem Definition.text_unspanned (d : Definition) : d.unspanned.text = d.text := by
  cases d with
  | operation op => exact op.text_unspanned
  | fragment frag => exact frag.text_unspanned

theorem Document.text_unspanned (d : Document) : d.unspanned.text = d.text := by
  unfold Document.text unspanned
  rw [List.map_map]
  exact congrArg _ (List.map_congr_left fun x _ => x.text_unspanned)

/-- Documents that are equal up to spans have one printed text. -/
theorem Document.text_eq_of_unspanned {a b : Document} (h : a.unspanned = b.unspanned) : a.text = b.text := by
  rw [← a.text_unspanned, h, b.text_unspanned]

/-- Fragments that are equal up to spans have one printed text. -/
theorem Fragment.text_eq_of_unspanned {a b : Fragment} (h : a.unspanned = b.unspanned) : a.text = b.text := by
  rw [← a.text_unspanned, h, b.text_unspanned]

end QueryBatch
