import QueryBatch.Source
import QueryBatch.TypeRef

/-!
# Query documents

The operations and fragments of a document as trees. Every node keeps the span of the text it was read from.

* `Document`, `Operation`, `Fragment`: a document and its definitions.
* `Selection`, `SelectionSet`: what an operation or fragment asks for. Fields with and without a selection set are two
  constructors.
* `Value`: argument values and default values.
* `SelectionSet.spreads`, `Value.variableUses`: the spreads and variables inside a node, searched for with a stack.
-/

namespace QueryBatch

/-- A name and where it stands. -/
structure Name where
  text : String
  span : Span
  deriving DecidableEq, Repr, Inhabited

/-- What an operation does. -/
inductive OperationKind where
  | query
  | mutation
  | subscription
  deriving DecidableEq, Repr, Inhabited

/-- The keyword of an operation. -/
def OperationKind.keyword : OperationKind → String
  | .query => "query"
  | .mutation => "mutation"
  | .subscription => "subscription"

/-- A stack with more on top of it, one put on after the other. -/
def pushAll {α : Type} (stack more : List α) : List α := more.foldl (fun stack a => a :: stack) stack

@[simp] theorem pushAll_reverse {α : Type} (stack more : List α) : pushAll stack more.reverse = more ++ stack := by
  simp [pushAll]

/-! ## Values -/

/-- A literal or variable. Numbers keep their text; strings are decoded. -/
inductive Value where
  | variable (name : String) (span : Span)
  | int (digits : String) (span : Span)
  | float (digits : String) (span : Span)
  | string (content : String) (span : Span)
  | boolean (holds : Bool) (span : Span)
  | null (span : Span)
  | enum (name : String) (span : Span)
  | list (items : List Value) (span : Span)
  | object (fields : List (Name × Value)) (span : Span)
  deriving Inhabited

namespace Value

def span : Value → Span
  | .variable _ s | .int _ s | .float _ s | .string _ s | .boolean _ s | .null s | .enum _ s | .list _ s
  | .object _ s => s

def isNull : Value → Bool
  | .null _ => true
  | _ => false

/-- The items of a list and the values of an object. -/
def inside : Value → List Value
  | .list items _ => items
  | .object fields _ => fields.map Prod.snd
  | _ => []

mutual

/-- The number of values in a value, itself among them. -/
def count : Value → Nat
  | .list items _ => countInList items + 1
  | .object fields _ => countInFields fields + 1
  | _ => 1

def countInList : List Value → Nat
  | [] => 0
  | item :: items => item.count + countInList items

def countInFields : List (Name × Value) → Nat
  | [] => 0
  | (_, value) :: fields => value.count + countInFields fields

end

theorem countInList_append (items more : List Value) :
    countInList (items ++ more) = countInList items + countInList more := by
  induction items with
  | nil => simp [countInList]
  | cons item items ih => simp [countInList, ih, Nat.add_assoc]

theorem countInList_map (fields : List (Name × Value)) : countInList (fields.map Prod.snd) = countInFields fields := by
  induction fields with
  | nil => rfl
  | cons field fields ih => simp [countInList, countInFields, ih]

theorem countInList_inside (value : Value) : countInList value.inside < value.count := by
  cases value <;> simp [inside, count, countInList, countInList_map]

/-- The variables of the values on a stack, behind those found so far. What is inside a value is put on the stack from
its end, so that the first of it is looked at next. -/
def collectVariables : (stack : List Value) → (found : Array (String × Span)) → Array (String × Span)
  | [], found => found
  | .variable name span :: stack, found => collectVariables stack (found.push (name, span))
  | value :: stack, found => collectVariables (pushAll stack value.inside.reverse) found
termination_by stack => countInList stack
decreasing_by
  · simp only [countInList, count]
    omega
  · have hinside := countInList_inside value
    rw [pushAll_reverse, countInList_append, countInList]
    omega

/-- The variables in a value with their spans, in the order of the text. -/
def variableUses (value : Value) : List (String × Span) := (collectVariables [value] #[]).toList

end Value

/-- An argument of a field or directive. -/
structure Argument where
  name : Name
  value : Value
  span : Span
  deriving Inhabited

/-- A directive put on a definition or selection. -/
structure Directive where
  name : Name
  arguments : List Argument
  span : Span
  deriving Inhabited

/-! ## Selections -/

/-- A field without its selection set. The label is the alias it is asked for under. -/
structure Field where
  label : Option Name
  name : Name
  arguments : List Argument
  directives : List Directive
  span : Span
  deriving Inhabited

/-- The key of the field in a response. -/
def Field.responseKey (f : Field) : String := (f.label.getD f.name).text

/-- A named fragment put in place. -/
structure Spread where
  name : Name
  directives : List Directive
  span : Span
  deriving Inhabited

/-- An inline fragment without its selection set. -/
structure Inline where
  condition : Option Name
  directives : List Directive
  span : Span
  deriving Inhabited

/-- One entry of a selection set. `group` is a field with a selection set, whose span follows it. -/
inductive Selection where
  | field (field : Field)
  | group (field : Field) (selections : List Selection) (setSpan : Span)
  | spread (spread : Spread)
  | inline (inline : Inline) (selections : List Selection) (setSpan : Span)
  deriving Inhabited

/-- The selections between two braces. -/
structure SelectionSet where
  selections : List Selection
  span : Span
  deriving Inhabited

namespace Selection

def span : Selection → Span
  | .field f | .group f _ _ => f.span
  | .spread s => s.span
  | .inline i _ _ => i.span

def directives : Selection → List Directive
  | .field f | .group f _ _ => f.directives
  | .spread s => s.directives
  | .inline i _ _ => i.directives

mutual

/-- The number of rounds that a search spends on a selection and what is inside it. -/
def rounds : Selection → Nat
  | .field _ | .spread _ => 1
  | .group _ selections _ | .inline _ selections _ => roundsIn selections + 1

/-- The same for selections, the round at their end among them. -/
def roundsIn : List Selection → Nat
  | [] => 1
  | selection :: rest => selection.rounds + roundsIn rest

end

/-- The rounds that are left to a search with a stack. -/
def roundsOn : (stack : List (List Selection)) → Nat
  | [] => 0
  | selections :: stack => roundsIn selections + roundsOn stack

/-- The spreads inside selections, behind those found so far. The stack holds what is left to look at of every selection
set that is open, the innermost one first. -/
def collectSpreads : (stack : List (List Selection)) → (found : Array Spread) → Array Spread
  | [], found => found
  | [] :: stack, found => collectSpreads stack found
  | (.field _ :: rest) :: stack, found => collectSpreads (rest :: stack) found
  | (.group _ selections _ :: rest) :: stack, found => collectSpreads (selections :: rest :: stack) found
  | (.spread s :: rest) :: stack, found => collectSpreads (rest :: stack) (found.push s)
  | (.inline _ selections _ :: rest) :: stack, found => collectSpreads (selections :: rest :: stack) found
termination_by stack => roundsOn stack
decreasing_by
  all_goals
    simp only [roundsOn, roundsIn, rounds]
    omega

end Selection

/-- The spreads inside a selection set, in the order of the text. Spreads are not followed. -/
def SelectionSet.spreads (set : SelectionSet) : List Spread := (Selection.collectSpreads [set.selections] #[]).toList

/-! ## Definitions -/

/-- The declaration of a variable. The span of its name covers the dollar sign. -/
structure VariableDefinition where
  name : Name
  type : TypeRef
  typeSpan : Span
  defaultValue : Option Value
  directives : List Directive
  span : Span
  deriving Inhabited

structure Operation where
  kind : OperationKind
  name : Option Name
  variableDefinitions : List VariableDefinition
  directives : List Directive
  body : SelectionSet
  span : Span
  deriving Inhabited

structure Fragment where
  name : Name
  condition : Name
  directives : List Directive
  body : SelectionSet
  span : Span
  deriving Inhabited

/-- The name of an operation as messages and outputs show it. -/
def Operation.displayName (op : Operation) : String :=
  match op.name with
  | some name => name.text
  | none => "<anonymous>"

/-- The span of the keyword and name of an operation, or of the opening brace of one without a keyword. -/
def Operation.headSpan (op : Operation) : Span :=
  match op.name with
  | some name => ⟨op.span.start, name.span.stop⟩
  | none =>
    if op.span.start = op.body.span.start then ⟨op.span.start, op.span.start + 1⟩
    else ⟨op.span.start, op.span.start + op.kind.keyword.utf8ByteSize⟩

inductive Definition where
  | operation (op : Operation)
  | fragment (frag : Fragment)
  deriving Inhabited

namespace Definition

def name? : Definition → Option Name
  | .operation op => op.name
  | .fragment frag => some frag.name

def span : Definition → Span
  | .operation op => op.span
  | .fragment frag => frag.span

def body : Definition → SelectionSet
  | .operation op => op.body
  | .fragment frag => frag.body

def operation? : Definition → Option Operation
  | .operation op => some op
  | .fragment _ => none

def fragment? : Definition → Option Fragment
  | .operation _ => none
  | .fragment frag => some frag

end Definition

structure Document where
  definitions : List Definition
  deriving Inhabited

namespace Document

def operations (d : Document) : List Operation := d.definitions.filterMap Definition.operation?

def fragments (d : Document) : List Fragment := d.definitions.filterMap Definition.fragment?

end Document

end QueryBatch
