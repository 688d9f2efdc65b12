import QueryBatch.Document.Print
import QueryBatch.OrderedMap
import QueryBatch.OrderedSet
import QueryBatch.QueryFile

/-!
# The definitions of a batch

Files are merged one after the other. A fragment whose name is taken by a fragment of the same text is dropped; one of
another text is kept beside the first, for the rules to find.

* `IsIndexOf`: an index that leads from names to the first fragments of these names.
* `Registry.fragment?`: the fragment that a name stands for, found in the index. `Registry.fragment?_eq`: it is the
  first of that name.
* `Registry.canonical`: these fragments in order of registration.
* `Registry.merge`: adds the definitions of a file.
-/

namespace QueryBatch

/-- A fragment of a batch. -/
structure RegisteredFragment where
  source : Nat
  definition : Fragment
  deriving Inhabited

namespace RegisteredFragment

def name (f : RegisteredFragment) : String := f.definition.name.text

/-- The written form, by which fragments of one name are told apart. -/
def text (f : RegisteredFragment) : String := f.definition.text

end RegisteredFragment

/-- An operation of a batch. -/
structure RegisteredOperation where
  source : Nat
  file : QueryFile
  definition : Operation
  deriving Inhabited

/-! ## The index of names -/

/-- An index of the names of fragments: it leads from every name to the first fragment of that name, and lists the names
in order of first appearance. -/
structure IsIndexOf (index : OrderedMap Nat) (fragments : List RegisteredFragment) : Prop where
  find?_eq : ∀ name, index.find? name = fragments.findIdx? fun f => f.name == name
  keys_eq : index.keys = (OrderedSet.ofList (fragments.map RegisteredFragment.name)).toList

namespace IsIndexOf

theorem empty : IsIndexOf .empty [] := ⟨fun _ => rfl, rfl⟩

/-- A fragment that is added gets its name, unless that is taken. -/
theorem push {index : OrderedMap Nat} {fragments : List RegisteredFragment} (h : IsIndexOf index fragments)
    (f : RegisteredFragment) : IsIndexOf (index.insertNew f.name fragments.length) (fragments ++ [f]) := by
  constructor
  · intro name
    rw [OrderedMap.find?_insertNew, h.find?_eq, List.findIdx?_append, List.findIdx?_singleton]
    simp only [beq_iff_eq, apply_ite (Option.map _), Option.map_some, Option.map_none, Nat.zero_add]
  · rw [OrderedMap.keys_insertNew, h.keys_eq, List.map_append, List.map_singleton, OrderedSet.ofList_concat,
      OrderedSet.toList_insert]

end IsIndexOf

/-! ## Registries -/

/-- The definitions of a batch in the order of merging. -/
structure Registry where
  /-- The fragments that were kept. -/
  fragments : List RegisteredFragment := []
  /-- Where the first fragment of a name stands among them. -/
  firstAt : OrderedMap Nat := .empty
  operations : List RegisteredOperation := []
  /-- The source that first defined a name. -/
  definedIn : OrderedMap Nat := .empty
  /-- How many fragments were dropped. -/
  dropped : Nat := 0
  indexed : IsIndexOf firstAt fragments := by exact IsIndexOf.empty

namespace Registry

instance : Inhabited Registry := ⟨{}⟩

/-! ## Views -/

/-- The fragment that a name stands for. -/
def fragment? (r : Registry) (name : String) : Option RegisteredFragment :=
  (r.firstAt.find? name).bind fun first => r.fragments[first]?

/-- It is the first fragment of that name. -/
theorem fragment?_eq (r : Registry) (name : String) : r.fragment? name = r.fragments.find? fun f => f.name == name := by
  rw [fragment?, r.indexed.find?_eq, List.find?_eq_bind_findIdx?_getElem?]

/-- The names of fragments in order of registration. -/
def names (r : Registry) : List String := r.firstAt.keys

/-- The fragments that names stand for, in order of registration. -/
def canonical (r : Registry) : List RegisteredFragment := r.firstAt.values.filterMap fun first => r.fragments[first]?

def contains (r : Registry) (name : String) : Bool := r.firstAt.contains name

/-- The source that first defined an operation or fragment of a name. -/
def definedIn? (r : Registry) (name : String) : Option Nat := r.definedIn.find? name

/-! ## Merging -/

/-- Adds a fragment at the end. Its name stands for it unless it is taken. -/
def keep (r : Registry) (f : RegisteredFragment) : Registry :=
  { r with
    fragments := r.fragments ++ [f]
    firstAt := r.firstAt.insertNew f.name r.fragments.length
    definedIn := r.definedIn.insertNew f.name f.source
    indexed := r.indexed.push f }

@[simp] theorem fragments_keep (r : Registry) (f : RegisteredFragment) : (r.keep f).fragments = r.fragments ++ [f] :=
  rfl

theorem fragment?_keep (r : Registry) (f : RegisteredFragment) (name : String) :
    (r.keep f).fragment? name = (r.fragment? name).or (if f.name = name then some f else none) := by
  rw [fragment?_eq, fragment?_eq, fragments_keep, List.find?_append, List.find?_singleton]
  simp only [beq_iff_eq]

/-- Adds a fragment unless the fragment of its name has the same text. -/
def mergeFragment (r : Registry) (source : Nat) (frag : Fragment) : Registry :=
  let added : RegisteredFragment := ⟨source, frag⟩
  if (r.fragment? added.name).any fun known => known.text == added.text then { r with dropped := r.dropped + 1 }
  else r.keep added

/-- Adds an operation. -/
def mergeOperation (r : Registry) (source : Nat) (file : QueryFile) (op : Operation) : Registry :=
  { r with
    operations := r.operations ++ [⟨source, file, op⟩]
    definedIn := match op.name with
      | some name => r.definedIn.insertNew name.text source
      | none => r.definedIn }

def mergeDefinition (source : Nat) (file : QueryFile) (r : Registry) : Definition → Registry
  | .operation op => r.mergeOperation source file op
  | .fragment frag => r.mergeFragment source frag

/-- Adds the definitions of a file. -/
def merge (r : Registry) (source : Nat) (file : QueryFile) : Registry :=
  file.document.definitions.foldl (mergeDefinition source file) r

end Registry

end QueryBatch
