import QueryBatch.Proofs.Document.Traversal

/-!
# The spans of a definition

All places of a definition that a diagnostic can point to: those of its nodes, and a few that are made from them.

* `Value.spans`, `Selection.spans` and the like: the spans of a node and of all nodes inside it.
* `VariableDefinition.baseSpans`: the span of a type name without its marks. `Operation.headSpan` is the other one that
  is made.
* `Definition.spans`: the spans of a definition.
-/

namespace QueryBatch

/-! ## Values -/

mutual

def Value.spans : Value → List Span
  | .variable _ s | .int _ s | .float _ s | .string _ s | .boolean _ s | .null s | .enum _ s => [s]
  | .list items s => s :: Value.spansInItems items
  | .object fields s => s :: Value.spansInFields fields

def Value.spansInItems : List Value → List Span
  | [] => []
  | item :: items => item.spans ++ Value.spansInItems items

def Value.spansInFields : List (Name × Value) → List Span
  | [] => []
  | (name, value) :: fields => name.span :: value.spans ++ Value.spansInFields fields

end

theorem Value.span_mem_spans (v : Value) : v.span ∈ v.spans := by
  cases v <;> simp [Value.spans, Value.span]

theorem Value.mem_spansInFields {fields : List (Name × Value)} {s : Span} :
    s ∈ Value.spansInFields fields ↔ ∃ x ∈ fields, s = x.1.span ∨ s ∈ x.2.spans := by
  induction fields with
  | nil => simp [Value.spansInFields]
  | cons x rest ih => simp [Value.spansInFields, ih, or_assoc]

theorem Value.name_mem_spansInFields {fields : List (Name × Value)} {x : Name × Value} (h : x ∈ fields) :
    x.1.span ∈ Value.spansInFields fields := Value.mem_spansInFields.2 ⟨x, h, .inl rfl⟩

def Argument.spans (a : Argument) : List Span := a.name.span :: a.span :: a.value.spans

def Directive.spans (d : Directive) : List Span := d.name.span :: d.span :: d.arguments.flatMap Argument.spans

/-! ## Selections -/

def Field.spans (f : Field) : List Span :=
  f.span :: f.name.span :: f.label.toList.map Name.span ++ f.arguments.flatMap Argument.spans ++
    f.directives.flatMap Directive.spans

def Spread.spans (s : Spread) : List Span := s.span :: s.name.span :: s.directives.flatMap Directive.spans

def Inline.spans (i : Inline) : List Span :=
  i.span :: i.condition.toList.map Name.span ++ i.directives.flatMap Directive.spans

mutual

def Selection.spans : Selection → List Span
  | .field f => f.spans
  | .group f selections setSpan => f.spans ++ setSpan :: Selection.spansIn selections
  | .spread s => s.spans
  | .inline i selections setSpan => i.spans ++ setSpan :: Selection.spansIn selections

def Selection.spansIn : List Selection → List Span
  | [] => []
  | selection :: rest => selection.spans ++ Selection.spansIn rest

end

def SelectionSet.spans (set : SelectionSet) : List Span := set.span :: Selection.spansIn set.selections

theorem Selection.mem_spansIn {selections : List Selection} {s : Span} :
    s ∈ Selection.spansIn selections ↔ ∃ x ∈ selections, s ∈ x.spans := by
  induction selections with
  | nil => simp [Selection.spansIn]
  | cons x rest ih => simp [Selection.spansIn, ih]

theorem Selection.spans_subset_spansIn {x : Selection} {selections : List Selection} (h : x ∈ selections) :
    x.spans ⊆ Selection.spansIn selections := fun _ hs => Selection.mem_spansIn.2 ⟨x, h, hs⟩

mutual

theorem Selection.spread_mem_spans : ∀ (x : Selection) {s : Spread}, s ∈ x.spreads → s.spans ⊆ x.spans
  | .field _, _, h => absurd h List.not_mem_nil
  | .group _ selections _, _, h => fun _ hspan => List.mem_append_right _
      (List.mem_cons_of_mem _ (Selection.spread_mem_spansIn selections h hspan))
  | .spread _, _, h => List.mem_singleton.1 h ▸ List.Subset.refl _
  | .inline _ selections _, _, h => fun _ hspan => List.mem_append_right _
      (List.mem_cons_of_mem _ (Selection.spread_mem_spansIn selections h hspan))

theorem Selection.spread_mem_spansIn : ∀ (selections : List Selection) {s : Spread},
    s ∈ Selection.spreadsIn selections → s.spans ⊆ Selection.spansIn selections
  | [], _, h => absurd h List.not_mem_nil
  | x :: rest, _, h => (List.mem_append.1 h).elim
      (fun h => List.Subset.trans (Selection.spread_mem_spans x h) (List.subset_append_left _ _))
      (fun h => List.Subset.trans (Selection.spread_mem_spansIn rest h) (List.subset_append_right _ _))

end

/-! ## Definitions -/

/-- The span of the name of a type, where it stands at the start of the span of the type: outside lists. -/
def VariableDefinition.baseSpans (v : VariableDefinition) : List Span :=
  match v.type.nullable with
  | .named _ => [⟨v.typeSpan.start, v.typeSpan.start + v.type.baseName.utf8ByteSize⟩]
  | _ => []

def VariableDefinition.spans (v : VariableDefinition) : List Span :=
  v.name.span :: v.typeSpan :: v.span :: v.baseSpans ++ v.defaultValue.toList.flatMap Value.spans ++
    v.directives.flatMap Directive.spans

def Operation.spans (op : Operation) : List Span :=
  op.headSpan :: op.span :: op.name.toList.map Name.span ++
    op.variableDefinitions.flatMap VariableDefinition.spans ++ op.directives.flatMap Directive.spans ++ op.body.spans

def Fragment.spans (frag : Fragment) : List Span :=
  frag.name.span :: frag.condition.span :: frag.span :: frag.directives.flatMap Directive.spans ++ frag.body.spans

/-- The spans of a definition. -/
def Definition.spans : Definition → List Span
  | .operation op => op.spans
  | .fragment frag => frag.spans

theorem Definition.body_spans_subset (d : Definition) : d.body.spans ⊆ d.spans := by
  cases d with
  | operation op => exact List.subset_append_right _ _
  | fragment frag => exact List.subset_append_right _ _

/-- The spans of the spreads of a definition are spans of it. -/
theorem Definition.spread_subset_spans {d : Definition} {s : Spread} (h : s ∈ d.body.spreads) : s.spans ⊆ d.spans := by
  rw [SelectionSet.spreads_eq] at h
  exact List.Subset.trans (fun _ hspan => List.mem_cons_of_mem _ (Selection.spread_mem_spansIn _ h hspan))
    d.body_spans_subset

theorem Definition.headSpan_mem_spans {d : Definition} {op : Operation} (h : d.operation? = some op) :
    op.headSpan ∈ d.spans := by
  cases d with
  | operation _ =>
    cases h
    exact List.mem_cons_self
  | fragment _ => cases h

end QueryBatch
