import QueryBatch.Document.Basic
import QueryBatch.Proofs.Token.Lexeme

/-!
# Well-formed documents

The documents that the grammar of query documents has: names are names, numbers are numbers, selection sets are not
empty, constants hold no variables, and no spread or fragment is named `on`.

* `Value.WellFormed`, `TypeRef.WellFormed`, `Selection.WellFormed`, …: the condition on each kind of node.
* `Document.WellFormed`: the condition on a document, which has at least one definition.
-/

namespace QueryBatch

open Token

/-- A type of the grammar: no type is marked non-null twice. -/
inductive TypeRef.WellFormed : TypeRef → Prop
  | named {name : String} : IsName name → WellFormed (.named name)
  | list {item : TypeRef} : WellFormed item → WellFormed (.list item)
  | nonNull {inner : TypeRef} : inner.isNonNull = false → WellFormed inner → WellFormed (.nonNull inner)

/-- A value of the grammar, a constant one or not. -/
inductive Value.WellFormed : (isConst : Bool) → Value → Prop
  | variable {name : String} {span : Span} : IsName name → WellFormed false (.variable name span)
  | int {isConst : Bool} {digits : String} {span : Span} : IsNumber true digits → WellFormed isConst (.int digits span)
  | float {isConst : Bool} {digits : String} {span : Span} : IsNumber false digits →
      WellFormed isConst (.float digits span)
  | string {isConst : Bool} (content : String) (span : Span) : WellFormed isConst (.string content span)
  | boolean {isConst : Bool} (holds : Bool) (span : Span) : WellFormed isConst (.boolean holds span)
  | null {isConst : Bool} (span : Span) : WellFormed isConst (.null span)
  | enum {isConst : Bool} {name : String} {span : Span} : IsName name → name ≠ "true" → name ≠ "false" →
      name ≠ "null" → WellFormed isConst (.enum name span)
  | list {isConst : Bool} {items : List Value} {span : Span} : (∀ v ∈ items, WellFormed isConst v) →
      WellFormed isConst (.list items span)
  | object {isConst : Bool} {fields : List (Name × Value)} {span : Span} : (∀ f ∈ fields, IsName f.1.text) →
      (∀ f ∈ fields, WellFormed isConst f.2) → WellFormed isConst (.object fields span)

structure Argument.WellFormed (isConst : Bool) (a : Argument) : Prop where
  name : IsName a.name.text
  value : a.value.WellFormed isConst

structure Directive.WellFormed (isConst : Bool) (d : Directive) : Prop where
  name : IsName d.name.text
  arguments : ∀ a ∈ d.arguments, a.WellFormed isConst

structure Field.WellFormed (f : Field) : Prop where
  label : ∀ label, f.label = some label → IsName label.text
  name : IsName f.name.text
  arguments : ∀ a ∈ f.arguments, a.WellFormed false
  directives : ∀ d ∈ f.directives, d.WellFormed false

structure Spread.WellFormed (s : Spread) : Prop where
  name : IsName s.name.text
  ne_on : s.name.text ≠ "on"
  directives : ∀ d ∈ s.directives, d.WellFormed false

structure Inline.WellFormed (i : Inline) : Prop where
  condition : ∀ type, i.condition = some type → IsName type.text
  directives : ∀ d ∈ i.directives, d.WellFormed false

inductive Selection.WellFormed : Selection → Prop
  | field {f : Field} : f.WellFormed → WellFormed (.field f)
  | group {f : Field} {selections : List Selection} {span : Span} : f.WellFormed → selections ≠ [] →
      (∀ s ∈ selections, WellFormed s) → WellFormed (.group f selections span)
  | spread {s : Spread} : s.WellFormed → WellFormed (.spread s)
  | inline {i : Inline} {selections : List Selection} {span : Span} : i.WellFormed → selections ≠ [] →
      (∀ s ∈ selections, WellFormed s) → WellFormed (.inline i selections span)

structure SelectionSet.WellFormed (set : SelectionSet) : Prop where
  ne_nil : set.selections ≠ []
  selections : ∀ s ∈ set.selections, s.WellFormed

structure VariableDefinition.WellFormed (v : VariableDefinition) : Prop where
  name : IsName v.name.text
  type : v.type.WellFormed
  defaultValue : ∀ value, v.defaultValue = some value → value.WellFormed true
  directives : ∀ d ∈ v.directives, d.WellFormed true

structure Operation.WellFormed (op : Operation) : Prop where
  name : ∀ name, op.name = some name → IsName name.text
  variableDefinitions : ∀ v ∈ op.variableDefinitions, v.WellFormed
  directives : ∀ d ∈ op.directives, d.WellFormed false
  body : op.body.WellFormed

structure Fragment.WellFormed (frag : Fragment) : Prop where
  name : IsName frag.name.text
  ne_on : frag.name.text ≠ "on"
  condition : IsName frag.condition.text
  directives : ∀ d ∈ frag.directives, d.WellFormed false
  body : frag.body.WellFormed

inductive Definition.WellFormed : Definition → Prop
  | operation {op : Operation} : op.WellFormed → WellFormed (.operation op)
  | fragment {frag : Fragment} : frag.WellFormed → WellFormed (.fragment frag)

structure Document.WellFormed (d : Document) : Prop where
  ne_nil : d.definitions ≠ []
  definitions : ∀ x ∈ d.definitions, x.WellFormed

end QueryBatch
