import QueryBatch.Diagnostic.Basic
import QueryBatch.OrderedMap
import QueryBatch.OrderedSet
import QueryBatch.Schema.Basic
import QueryBatch.Text.EditDistance

/-!
# What the rules look at

A rule sees operations and fragments together with their sources and a schema, and yields findings.

* `Subject`: one definition under validation. `Context`: all of them.
* `Context.fragment?`: the fragment that a spread of a name stands for, the first of that name.
* `Context.reachable`: the fragments that a selection set spreads, directly or through others.
* `Finding`: a diagnostic, if there is something to say, and the definitions that are rejected for it.
-/

namespace QueryBatch.Rules

/-! ## Subjects -/

/-- Which of the validated definitions: an operation or a fragment by its index. -/
inductive Owner where
  | operation (index : Nat)
  | fragment (index : Nat)
  deriving DecidableEq, Repr, Inhabited

/-- A definition under validation. -/
structure Subject where
  owner : Owner
  source : Nat
  definition : Definition
  deriving Inhabited

/-- The definitions of a validation run, operations first. -/
structure Context where
  schema : Schema
  subjects : List Subject

namespace Context

/-- Numbers definitions from zero. -/
def numbered {α : Type} (owner : Nat → Owner) (definition : α → Definition) (all : List (Nat × α)) : List Subject :=
  all.zipIdx.map fun ((source, a), index) => ⟨owner index, source, definition a⟩

/-- The context of operations and fragments, each with its source. -/
def of (schema : Schema) (operations : List (Nat × Operation)) (fragments : List (Nat × Fragment)) : Context :=
  ⟨schema, numbered .operation .operation operations ++ numbered .fragment .fragment fragments⟩

/-- The context of a document alone. -/
def ofDocument (schema : Schema) (source : Nat) (document : Document) : Context :=
  .of schema (document.operations.map fun op => (source, op)) (document.fragments.map fun frag => (source, frag))

def operations (cx : Context) : List (Subject × Operation) :=
  cx.subjects.filterMap fun s => s.definition.operation?.map fun op => (s, op)

def fragments (cx : Context) : List (Subject × Fragment) :=
  cx.subjects.filterMap fun s => s.definition.fragment?.map fun frag => (s, frag)

/-- The index of fragments by name. A name that is taken keeps its fragment. -/
def index (cx : Context) : OrderedMap (Subject × Fragment) := .firstOf (fun (_, frag) => frag.name.text) cx.fragments

/-- The fragment that a name stands for: the first of that name. -/
def fragment? (cx : Context) (name : String) : Option (Subject × Fragment) := cx.index.find? name

/-- The names of fragments, each once, in order of first appearance. -/
def fragmentNames (cx : Context) : List String := cx.index.keys

/-- The index leads to the first fragment of a name. -/
theorem fragment?_eq (cx : Context) (name : String) :
    cx.fragment? name = cx.fragments.find? fun (_, frag) => frag.name.text == name := OrderedMap.find?_firstOf _ _ _

def type? (cx : Context) (name : String) : Option TypeDef := cx.schema.type? name

/-! ## Reachability -/

/-- The names that are not in `seen`, each once. -/
def newNames (seen : List String) : List String → List String
  | [] => []
  | name :: rest => if name ∈ seen then newNames seen rest else name :: newNames (name :: seen) rest

/-- The fragments reached from a stack of selection sets, in order of discovery, the names in `seen` being done. Every
round takes one selection set off the stack. -/
def reachFrom (cx : Context) : (rounds : Nat) → (seen : List String) → (stack : List SelectionSet) →
    List (Subject × Fragment)
  | 0, _, _ => []
  | _, _, [] => []
  | rounds + 1, seen, set :: stack =>
    let names := newNames seen (set.spreads.map fun s => s.name.text)
    let found := names.filterMap cx.fragment?
    found ++ reachFrom cx rounds (seen ++ names) ((found.map fun (_, frag) => frag.body).reverse ++ stack)

/-- The fragments that a selection set spreads, directly or through others, each once. No more selection sets are looked
at than there are fragments, and the first. -/
def reachable (cx : Context) (set : SelectionSet) : List (Subject × Fragment) :=
  cx.reachFrom (cx.fragments.length + 1) [] [set]

end Context

/-! ## Findings -/

/-- What a rule found. Without a diagnostic the fault is one that was reported already. -/
structure Finding where
  diagnostic : Option Diagnostic
  rejected : List Owner

/-- A rule. -/
abbrev Rule := Context → List Finding

namespace Subject

/-- A diagnostic in the source of the subject. -/
def diagnostic (s : Subject) (kind : Diagnostic.Kind) (span : Span) : Diagnostic := .of s.source kind span

/-- The finding that rejects the subject for a diagnostic. -/
def rejectedFor (s : Subject) (d : Diagnostic) : Finding := ⟨some d, [s.owner]⟩

end Subject

/-- Candidates at this distance or further away are not proposed. -/
def suggestionThreshold : Nat := 10

/-- The words that propose a name. -/
def suggestion (name : String) : String := "did you mean `" ++ name ++ "`?"

/-- Proposes the candidate closest to a name. -/
def suggest (d : Diagnostic) (name : String) (candidates : List String) : Diagnostic :=
  match Text.closestMatch name candidates suggestionThreshold with
  | some candidate => d.withFix (suggestion candidate) candidate
  | none => d

/-! ## Repetitions -/

/-- The members of a list whose key came before, each with the first member of that key; `firsts` are the first members
so far. -/
def repeatsAfter {α : Type} (key : α → String) (firsts : List α) : List α → List (α × α)
  | [] => []
  | a :: rest =>
    match firsts.find? fun first => key first == key a with
    | some first => (first, a) :: repeatsAfter key firsts rest
    | none => repeatsAfter key (firsts ++ [a]) rest

/-- The members of a list whose key came before, each with the first member of that key. -/
def repeats {α : Type} (key : α → String) (all : List α) : List (α × α) := repeatsAfter key [] all

end QueryBatch.Rules
