import QueryBatch.Proofs.Document.Spans
import QueryBatch.Proofs.Token.Place

/-!
# How the nodes of a document stand in its text

* `Outline`: a node with its span and the nodes inside it, in the order of the text. `Value.outline`,
  `Selection.outline`, `Definition.outline` and the like are the outlines of nodes.
* `Outline.StandsIn`: a node and all nodes inside it are placed soundly in a text. `Outline.Row`: nodes that stand one
  behind the other between two offsets.
* `Outline.Row.append`, `Outline.Row.replace`, `Outline.Row.node`, `Outline.Row.cover`: rows are joined, taken out of a
  node, and put into one.
* `Operation.headSpan_within`: the head of an operation that stands in a text.
* `Definition.fitIn_spans`: all spans of a definition that stands in a text fit into it.
-/

namespace QueryBatch

/-- A node of a document: a word of the text, or a span around the nodes inside it. -/
inductive Outline where
  | word (text : String) (span : Span)
  | node (span : Span) (children : List Outline)

namespace Outline

def span : Outline → Span
  | .word _ s | .node s _ => s

mutual

/-- A node that stands in a text: at the span of a word stands the word; any other span is one of whole characters, and
the nodes inside it stand one behind the other within the span. -/
def StandsIn (text : String) : Outline → Prop
  | .word own s => s.HasText text own
  | .node s children => s.FitsIn text ∧ Row text s.start children s.stop

/-- Nodes of a text that stand one behind the other between two offsets. -/
def Row (text : String) (first : Nat) : List Outline → (last : Nat) → Prop
  | [], _ => True
  | o :: os, last => first ≤ o.span.start ∧ o.span.stop ≤ last ∧ o.StandsIn text ∧ Row text o.span.stop os last

end

variable {text : String} {o o' : Outline} {os os' : List Outline} {first last first' last' : Nat}

theorem StandsIn.fitsIn (h : o.StandsIn text) : o.span.FitsIn text := by
  cases o with
  | word own s => exact Span.HasText.fitsIn h
  | node s children => exact h.1

namespace Row

theorem nil : Row text first [] last := trivial

theorem mono (h : Row text first os last) (hfirst : first' ≤ first) (hlast : last ≤ last') :
    Row text first' os last' := by
  induction os generalizing first first' with
  | nil => exact .nil
  | cons o os ih =>
    obtain ⟨hstart, hstop, ho, hos⟩ := h
    exact ⟨Nat.le_trans hfirst hstart, Nat.le_trans hstop hlast, ho, ih hos (Nat.le_refl _)⟩

/-- A row behind another one. -/
theorem append (h : Row text first os last) (h' : Row text first' os' last') (hfirst : first ≤ first')
    (hnext : last ≤ first') (hlast : last ≤ last') : Row text first (os ++ os') last' := by
  induction os generalizing first with
  | nil => exact h'.mono hfirst (Nat.le_refl _)
  | cons o os ih =>
    obtain ⟨hstart, hstop, ho, hos⟩ := h
    exact ⟨hstart, Nat.le_trans hstop hlast, ho, ih hos (Nat.le_trans hstop hnext)⟩

/-- What stands in the first node of a row and what stands behind this node, in the place of the row. -/
theorem replace {front behind : List Outline} (h : Row text first (o :: os) last)
    (hfront : Row text o.span.start front o.span.stop) (hbehind : Row text o.span.stop behind last) :
    Row text first (front ++ behind) last := by
  obtain ⟨hstart, hstop, ho, -⟩ := h
  exact (hfront.mono hstart (Nat.le_refl _)).append hbehind (Nat.le_trans hstart ho.fitsIn.ordered) (Nat.le_refl _) hstop

theorem singleton_iff : Row text first [o] last ↔ first ≤ o.span.start ∧ o.span.stop ≤ last ∧ o.StandsIn text :=
  ⟨fun h => ⟨h.1, h.2.1, h.2.2.1⟩, fun h => ⟨h.1, h.2.1, h.2.2, .nil⟩⟩

/-- Every node of a row stands between its offsets. -/
theorem bounds (h : Row text first os last) (ho : o ∈ os) :
    first ≤ o.span.start ∧ o.span.stop ≤ last ∧ o.StandsIn text := by
  induction os generalizing first with
  | nil => cases ho
  | cons o' os ih =>
    obtain ⟨hstart, hstop, ho', hos⟩ := h
    rcases List.mem_cons.1 ho with rfl | ho
    · exact ⟨hstart, hstop, ho'⟩
    · obtain ⟨hbehind, hlast, ho⟩ := ih hos ho
      exact ⟨Nat.le_trans hstart (Nat.le_trans ho'.fitsIn.ordered hbehind), hlast, ho⟩

theorem mem (h : Row text first os last) (ho : o ∈ os) : o.StandsIn text := (h.bounds ho).2.2

/-- A row in a node whose span reaches from its first offset to its last one. -/
theorem node (h : Row text first os last) (hfits : Span.FitsIn ⟨first, last⟩ text) :
    Row text first [.node ⟨first, last⟩ os] last :=
  singleton_iff.2 ⟨Nat.le_refl _, Nat.le_refl _, hfits, h⟩

/-- Two nodes in one whose span covers both. -/
theorem cover (h : Row text first [o, o'] last) : Row text first [.node (o.span.cover o'.span) [o, o']] last := by
  obtain ⟨hstart, -, ho, hnext, hstop, ho', -⟩ := h
  have hordered := ho.fitsIn.ordered
  have hordered' := ho'.fitsIn.ordered
  have hspan : o.span.cover o'.span = ⟨o.span.start, o'.span.stop⟩ := by
    rw [Span.cover, Nat.min_eq_left (by omega), Nat.max_eq_right (by omega)]
  rw [hspan]
  have hle := Nat.le_trans hnext hordered'
  exact singleton_iff.2 ⟨hstart, hstop, ho.fitsIn.join ho'.fitsIn (Nat.le_trans hordered hle), Nat.le_refl _, hle, ho,
    hnext, Nat.le_refl _, ho', .nil⟩

end Row

end Outline

/-! ## The outlines of nodes -/

def Name.outline (n : Name) : Outline := .word n.text n.span

mutual

/-- The outline of a value. A variable has its dollar sign in front, and a string its quotes around it. -/
def Value.outline : Value → Outline
  | .variable _ s | .string _ s => .node s []
  | .int digits s | .float digits s => .word digits s
  | .boolean holds s => .word (if holds then "true" else "false") s
  | .null s => .word "null" s
  | .enum name s => .word name s
  | .list items s => .node s (Value.outlinesOfItems items)
  | .object fields s => .node s (Value.outlinesOfFields fields)

def Value.outlinesOfItems : List Value → List Outline
  | [] => []
  | item :: items => item.outline :: Value.outlinesOfItems items

def Value.outlinesOfFields : List (Name × Value) → List Outline
  | [] => []
  | (name, value) :: fields => name.outline :: value.outline :: Value.outlinesOfFields fields

end

def Argument.outline (a : Argument) : Outline := .node a.span [a.name.outline, a.value.outline]

def Directive.outline (d : Directive) : Outline :=
  .node d.span (d.name.outline :: d.arguments.map Argument.outline)

/-- The nodes of a field up to its selection set. -/
def Field.outlines (f : Field) : List Outline :=
  f.label.toList.map Name.outline ++
    f.name.outline :: (f.arguments.map Argument.outline ++ f.directives.map Directive.outline)

def Spread.outline (s : Spread) : Outline := .node s.span (s.name.outline :: s.directives.map Directive.outline)

/-- The nodes of an inline fragment up to its selection set. -/
def Inline.outlines (i : Inline) : List Outline :=
  i.condition.toList.map Name.outline ++ i.directives.map Directive.outline

/-- The outline of a selection set: the brace that opens it, and what it holds. -/
def Outline.braced (s : Span) (inner : List Outline) : Outline :=
  .node s (.word "\x7b" ⟨s.start, s.start + 1⟩ :: inner)

/-- What a selection set holds stands in the row that the selection set is in. -/
theorem Outline.Row.braced {text : String} {first last : Nat} {os inner : List Outline} {s : Span}
    (h : Row text first os last) (hs : braced s inner ∈ os) : Row text first inner last := by
  obtain ⟨hstart, hstop, -, hinner⟩ := h.bounds hs
  exact hinner.2.2.2.mono (Nat.le_succ_of_le hstart) hstop

mutual

def Selection.outline : Selection → Outline
  | .field f => .node f.span f.outlines
  | .group f selections setSpan => .node f.span (f.outlines ++ [.braced setSpan (Selection.outlinesOfAll selections)])
  | .spread s => s.outline
  | .inline i selections setSpan => .node i.span (i.outlines ++ [.braced setSpan (Selection.outlinesOfAll selections)])

def Selection.outlinesOfAll : List Selection → List Outline
  | [] => []
  | selection :: rest => selection.outline :: Selection.outlinesOfAll rest

end

def SelectionSet.outline (set : SelectionSet) : Outline := .braced set.span (Selection.outlinesOfAll set.selections)

/-- The name that a type starts with, outside lists. -/
def TypeRef.nameOutlines (t : TypeRef) (start : Nat) : List Outline :=
  match t.nullable with
  | .named name => [.word name ⟨start, start + name.utf8ByteSize⟩]
  | _ => []

def TypeRef.outline (t : TypeRef) (s : Span) : Outline := .node s (t.nameOutlines s.start)

/-- The outline of the declaration of a variable. The span of its name holds the dollar sign as well. -/
def VariableDefinition.outline (v : VariableDefinition) : Outline :=
  .node v.span (.node v.name.span [] :: v.type.outline v.typeSpan ::
    (v.defaultValue.toList.map Value.outline ++ v.directives.map Directive.outline))

/-- The keyword of an operation that does not start with its selection set. -/
def Operation.keywordOutlines (op : Operation) : List Outline :=
  if op.span.start = op.body.span.start then []
  else [.word op.kind.keyword ⟨op.span.start, op.span.start + op.kind.keyword.utf8ByteSize⟩]

def Operation.outline (op : Operation) : Outline :=
  .node op.span (op.keywordOutlines ++ (op.name.toList.map Name.outline ++
    (op.variableDefinitions.map VariableDefinition.outline ++
      (op.directives.map Directive.outline ++ [op.body.outline]))))

def Fragment.outline (frag : Fragment) : Outline :=
  .node frag.span (frag.name.outline :: frag.condition.outline ::
    (frag.directives.map Directive.outline ++ [frag.body.outline]))

def Definition.outline : Definition → Outline
  | .operation op => op.outline
  | .fragment frag => frag.outline

@[simp] theorem Value.span_outline (v : Value) : v.outline.span = v.span := by cases v <;> rfl

theorem Value.outlinesOfItems_eq_map (items : List Value) : outlinesOfItems items = items.map outline := by
  induction items with
  | nil => rfl
  | cons item items ih => simp [outlinesOfItems, ih]

theorem Value.outlinesOfFields_eq (fields : List (Name × Value)) :
    outlinesOfFields fields = fields.flatMap fun f => [f.1.outline, f.2.outline] := by
  induction fields with
  | nil => rfl
  | cons f fields ih => simp [outlinesOfFields, ih]

@[simp] theorem TypeRef.nameOutlines_required (t : TypeRef) (start : Nat) :
    t.required.nameOutlines start = t.nameOutlines start := by
  cases t <;> rfl

theorem Selection.outlinesOfAll_eq_map (selections : List Selection) :
    outlinesOfAll selections = selections.map outline := by
  induction selections with
  | nil => rfl
  | cons selection rest ih => simp [outlinesOfAll, ih]

/-! ## The spans of nodes that stand in a text -/

/-- Spans that fit into a text. -/
def FitIn (text : String) (spans : List Span) : Prop := ∀ s ∈ spans, s.FitsIn text

section FitIn

variable {text : String} {s : Span} {spans more : List Span} {first last : Nat}

@[simp] theorem fitIn_nil : FitIn text [] := nofun

@[simp] theorem fitIn_cons : FitIn text (s :: spans) ↔ s.FitsIn text ∧ FitIn text spans := List.forall_mem_cons

theorem fitIn_singleton : FitIn text [s] ↔ s.FitsIn text := List.forall_mem_singleton

@[simp] theorem fitIn_append : FitIn text (spans ++ more) ↔ FitIn text spans ∧ FitIn text more :=
  List.forall_mem_append

@[simp] theorem fitIn_flatMap {α : Type} {as : List α} {f : α → List Span} :
    FitIn text (as.flatMap f) ↔ ∀ a ∈ as, FitIn text (f a) :=
  List.forall_mem_flatMap

@[simp] theorem fitIn_names {names : List Name} :
    FitIn text (names.map Name.span) ↔ ∀ name ∈ names, name.span.FitsIn text :=
  List.forall_mem_map

open Outline

theorem Name.fitsIn_of_stands {n : Name} (h : n.outline.StandsIn text) : n.span.FitsIn text := StandsIn.fitsIn h

mutual

theorem Value.fitIn_spans : ∀ v : Value, v.outline.StandsIn text → FitIn text v.spans
  | .variable _ _, h | .string _ _, h | .int _ _, h | .float _ _, h | .boolean _ _, h | .null _, h | .enum _ _, h =>
    fitIn_singleton.2 (StandsIn.fitsIn h)
  | .list items _, h => fitIn_cons.2 ⟨StandsIn.fitsIn h, Value.fitIn_spansInItems items h.2⟩
  | .object fields _, h => fitIn_cons.2 ⟨StandsIn.fitsIn h, Value.fitIn_spansInFields fields h.2⟩

theorem Value.fitIn_spansInItems {first last : Nat} : ∀ items : List Value,
    Row text first (Value.outlinesOfItems items) last → FitIn text (Value.spansInItems items)
  | [], _ => fitIn_nil
  | item :: items, h => fitIn_append.2 ⟨item.fitIn_spans h.2.2.1, Value.fitIn_spansInItems items h.2.2.2⟩

theorem Value.fitIn_spansInFields {first last : Nat} : ∀ fields : List (Name × Value),
    Row text first (Value.outlinesOfFields fields) last → FitIn text (Value.spansInFields fields)
  | [], _ => fitIn_nil
  | (name, value) :: fields, h => fitIn_cons.2 ⟨name.fitsIn_of_stands h.2.2.1, fitIn_append.2
      ⟨value.fitIn_spans h.2.2.2.2.2.1, Value.fitIn_spansInFields fields h.2.2.2.2.2.2⟩⟩

end

theorem Argument.fitIn_spans {a : Argument} (h : a.outline.StandsIn text) : FitIn text a.spans :=
  fitIn_cons.2 ⟨Name.fitsIn_of_stands (h.2.mem (by simp)), fitIn_cons.2 ⟨h.1, Value.fitIn_spans _ (h.2.mem (by simp))⟩⟩

/-- The nodes of a list in a row have the spans inside them fit in. -/
theorem fitIn_of_mem {α : Type} {outline : α → Outline} {spans : α → List Span} {as : List α} {os : List Outline}
    (hspans : ∀ a, (outline a).StandsIn text → FitIn text (spans a)) (hrow : Row text first os last)
    (hsub : as.map outline ⊆ os) : ∀ a ∈ as, FitIn text (spans a) :=
  fun a ha => hspans a (hrow.mem (hsub (List.mem_map_of_mem ha)))

theorem Directive.fitIn_spans {d : Directive} (h : d.outline.StandsIn text) : FitIn text d.spans := by
  refine fitIn_cons.2 ⟨Name.fitsIn_of_stands (h.2.mem (by simp)), fitIn_cons.2 ⟨h.1, fitIn_flatMap.2 ?_⟩⟩
  exact fitIn_of_mem (fun _ => Argument.fitIn_spans) h.2 (List.subset_cons_self _ _)

theorem Field.fitIn_spans {f : Field} {m : List Outline}
    (h : Outline.StandsIn text (.node f.span (f.outlines ++ m))) : FitIn text f.spans := by
  have hlabel : ∀ label ∈ f.label, label.span.FitsIn text := fun label hl =>
    Name.fitsIn_of_stands (h.2.mem (by simp [Field.outlines, Option.mem_def.1 hl]))
  have hname : f.name.span.FitsIn text := Name.fitsIn_of_stands (h.2.mem (by simp [Field.outlines]))
  have hgiven : ∀ a ∈ f.arguments, FitIn text a.spans :=
    fitIn_of_mem (fun _ => Argument.fitIn_spans) h.2 fun o ho => by
      simp only [Field.outlines, List.mem_append, List.mem_cons, ho, true_or, or_true]
  have hmarks : ∀ d ∈ f.directives, FitIn text d.spans :=
    fitIn_of_mem (fun _ => Directive.fitIn_spans) h.2 fun o ho => by
      simp only [Field.outlines, List.mem_append, List.mem_cons, ho, true_or, or_true]
  have hspan : f.span.FitsIn text := h.1
  simpa [Field.spans, hname, hspan] using ⟨hlabel, hgiven, hmarks⟩

theorem Spread.fitIn_spans {s : Spread} (h : s.outline.StandsIn text) : FitIn text s.spans := by
  refine fitIn_cons.2 ⟨h.1, fitIn_cons.2 ⟨Name.fitsIn_of_stands (h.2.mem (by simp)), fitIn_flatMap.2 ?_⟩⟩
  exact fitIn_of_mem (fun _ => Directive.fitIn_spans) h.2 (List.subset_cons_self _ _)

theorem Inline.fitIn_spans {i : Inline} {more : List Outline}
    (h : Outline.StandsIn text (.node i.span (i.outlines ++ more))) : FitIn text i.spans := by
  have hcondition : ∀ type ∈ i.condition, type.span.FitsIn text := fun type ht =>
    Name.fitsIn_of_stands (h.2.mem (by simp [Inline.outlines, Option.mem_def.1 ht]))
  have hmarks : ∀ d ∈ i.directives, FitIn text d.spans :=
    fitIn_of_mem (fun _ => Directive.fitIn_spans) h.2 fun o ho => by
      simp only [Inline.outlines, List.mem_append, ho, true_or, or_true]
  have hspan : i.span.FitsIn text := h.1
  simpa [Inline.spans, hspan] using ⟨hcondition, hmarks⟩

mutual

theorem Selection.fitIn_spans : ∀ s : Selection, s.outline.StandsIn text → FitIn text s.spans
  | .field f, h => f.fitIn_spans (m := []) (by rw [List.append_nil]; exact h)
  | .group f selections setSpan, h => by
    have hset : (Outline.braced setSpan (Selection.outlinesOfAll selections)).StandsIn text := h.2.mem (by simp)
    exact fitIn_append.2 ⟨f.fitIn_spans h, fitIn_cons.2 ⟨hset.1, Selection.fitIn_spansIn selections hset.2.2.2.2⟩⟩
  | .spread s, h => s.fitIn_spans h
  | .inline i selections setSpan, h => by
    have hset : (Outline.braced setSpan (Selection.outlinesOfAll selections)).StandsIn text := h.2.mem (by simp)
    exact fitIn_append.2 ⟨i.fitIn_spans h, fitIn_cons.2 ⟨hset.1, Selection.fitIn_spansIn selections hset.2.2.2.2⟩⟩

theorem Selection.fitIn_spansIn {first last : Nat} : ∀ selections : List Selection,
    Row text first (Selection.outlinesOfAll selections) last → FitIn text (Selection.spansIn selections)
  | [], _ => fitIn_nil
  | s :: rest, h => fitIn_append.2 ⟨s.fitIn_spans h.2.2.1, Selection.fitIn_spansIn rest h.2.2.2⟩

end

theorem SelectionSet.fitIn_spans {set : SelectionSet} (h : set.outline.StandsIn text) : FitIn text set.spans :=
  fitIn_cons.2 ⟨h.1, Selection.fitIn_spansIn _ h.2.2.2.2⟩

theorem VariableDefinition.fitIn_baseSpans {v : VariableDefinition} (h : (v.type.outline v.typeSpan).StandsIn text) :
    FitIn text v.baseSpans := by
  obtain ⟨-, hrow⟩ := h
  unfold VariableDefinition.baseSpans
  unfold TypeRef.nameOutlines at hrow
  have hbase : v.type.baseName = v.type.nullable.baseName := by cases v.type <;> rfl
  rw [hbase]
  generalize v.type.nullable = type at hrow ⊢
  cases type with
  | named name => exact fitIn_singleton.2 (StandsIn.fitsIn (hrow.mem List.mem_cons_self))
  | list _ => exact fitIn_nil
  | nonNull _ => exact fitIn_nil

theorem VariableDefinition.fitIn_spans {v : VariableDefinition} (h : v.outline.StandsIn text) :
    FitIn text v.spans := by
  have hname : v.name.span.FitsIn text := StandsIn.fitsIn (h.2.mem List.mem_cons_self)
  have htype : (v.type.outline v.typeSpan).StandsIn text := h.2.mem (List.mem_cons_of_mem _ List.mem_cons_self)
  have htypeSpan : v.typeSpan.FitsIn text := htype.1
  have hspan : v.span.FitsIn text := h.1
  have hinitial : ∀ value ∈ v.defaultValue, FitIn text value.spans := fun value hv =>
    Value.fitIn_spans _ (h.2.mem (by simp [Option.mem_def.1 hv]))
  have hmarks : ∀ d ∈ v.directives, FitIn text d.spans :=
    fitIn_of_mem (fun _ => Directive.fitIn_spans) h.2 fun o ho => by
      simp only [List.mem_cons, List.mem_append, ho, or_true]
  simpa [VariableDefinition.spans, hname, htypeSpan, hspan, fitIn_baseSpans htype] using ⟨hinitial, hmarks⟩

/-- The head of an operation lies inside the operation and starts where it starts. -/
theorem Operation.headSpan_within {op : Operation} (h : op.outline.StandsIn text) :
    op.headSpan.FitsIn text ∧ op.headSpan.start = op.span.start ∧ op.headSpan.stop ≤ op.span.stop := by
  obtain ⟨hfits, hrow⟩ := h
  unfold Operation.headSpan
  cases hn : op.name with
  | some name =>
    obtain ⟨hstart, hstop, hname⟩ := hrow.bounds (o := name.outline) (by simp [hn])
    have hname := Name.fitsIn_of_stands hname
    exact ⟨hfits.join hname (Nat.le_trans hstart hname.ordered), rfl, hstop⟩
  | none =>
    dsimp only
    split
    · rename_i heq
      -- the opening brace of the selection set
      obtain ⟨-, hstop, hbody⟩ := hrow.bounds (o := op.body.outline) (by simp)
      obtain ⟨-, hbrace, hword⟩ := hbody.2.bounds List.mem_cons_self
      rw [heq]
      exact ⟨StandsIn.fitsIn hword, rfl, Nat.le_trans hbrace hstop⟩
    · rename_i hne
      obtain ⟨-, hstop, hword⟩ := hrow.bounds (o := .word op.kind.keyword
        ⟨op.span.start, op.span.start + op.kind.keyword.utf8ByteSize⟩) (by simp [Operation.keywordOutlines, hne])
      exact ⟨StandsIn.fitsIn hword, rfl, hstop⟩

theorem Operation.fitIn_spans {op : Operation} (h : op.outline.StandsIn text) : FitIn text op.spans := by
  have hhead : op.headSpan.FitsIn text := (Operation.headSpan_within h).1
  have hspan : op.span.FitsIn text := h.1
  have hname : ∀ name ∈ op.name, name.span.FitsIn text := fun name hn =>
    Name.fitsIn_of_stands (h.2.mem (by simp [Option.mem_def.1 hn]))
  have hdeclared : ∀ v ∈ op.variableDefinitions, FitIn text v.spans :=
    fitIn_of_mem (fun _ => VariableDefinition.fitIn_spans) h.2 fun o ho => by
      simp only [List.mem_append, ho, true_or, or_true]
  have hmarks : ∀ d ∈ op.directives, FitIn text d.spans :=
    fitIn_of_mem (fun _ => Directive.fitIn_spans) h.2 fun o ho => by simp only [List.mem_append, ho, true_or, or_true]
  have hbody : FitIn text op.body.spans := SelectionSet.fitIn_spans (h.2.mem (by simp))
  simpa [Operation.spans, hhead, hspan, hbody] using ⟨hname, hdeclared, hmarks⟩

theorem Fragment.fitIn_spans {frag : Fragment} (h : frag.outline.StandsIn text) : FitIn text frag.spans := by
  have hspan : frag.span.FitsIn text := h.1
  have hname : frag.name.span.FitsIn text := Name.fitsIn_of_stands (h.2.mem (by simp))
  have hcondition : frag.condition.span.FitsIn text := Name.fitsIn_of_stands (h.2.mem (by simp))
  have hmarks : ∀ d ∈ frag.directives, FitIn text d.spans :=
    fitIn_of_mem (fun _ => Directive.fitIn_spans) h.2 fun o ho => by
      simp only [List.mem_cons, List.mem_append, ho, true_or, or_true]
  have hbody : FitIn text frag.body.spans := SelectionSet.fitIn_spans (h.2.mem (by simp))
  simpa [Fragment.spans, hspan, hname, hcondition, hbody] using hmarks

/-- The spans of a definition that stands in a text fit into it. -/
theorem Definition.fitIn_spans {d : Definition} (h : d.outline.StandsIn text) : FitIn text d.spans := by
  cases d with
  | operation op => exact Operation.fitIn_spans h
  | fragment frag => exact Fragment.fitIn_spans h

end FitIn

end QueryBatch
