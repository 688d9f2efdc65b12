import QueryBatch.Registry

/-!
# Fragment closures

What a selection set depends on: the fragments it spreads, directly or through others, and the spreads among them that
name no fragment. The closures of fragments are kept, so that each is computed once.

* `Closure`: the fragments and the missing spreads of a selection set.
* `ClosureCache.closureOf`: the closure of a fragment, from the cache or computed.
* `ClosureCache.resolve`: the closure of an operation's selection set.
-/

namespace QueryBatch

/-- A spread that names no fragment. The source is the one that the spread is written in. -/
structure MissingSpread where
  name : String
  source : Nat
  span : Span
  deriving DecidableEq, Repr, Inhabited

/-- What a selection set depends on. -/
structure Closure where
  fragments : OrderedSet String := .empty
  missing : OrderedSet MissingSpread := .empty
  deriving Inhabited

/-- Adds a fragment and all that it depends on. -/
def Closure.absorb (c : Closure) (name : String) (known : Closure) : Closure :=
  { fragments := (c.fragments.insert name).union known.fragments
    missing := c.missing.union known.missing }

/-- The closures of fragments by name, and how often one of them was used. -/
structure ClosureCache where
  entries : OrderedMap Closure := .empty
  hits : Nat := 0
  deriving Inhabited

/-! ## Computing a closure -/

/-- A computation of a closure: what was found, the selection sets left to look at, the last found first, and the uses of
the cache. -/
structure ClosureWalk where
  closure : Closure := {}
  stack : List (Nat × SelectionSet)
  hits : Nat

namespace ClosureWalk

variable (registry : Registry) (entries : OrderedMap Closure)

/-- Takes one spread of a source in. -/
def meet (source : Nat) (w : ClosureWalk) (spread : Spread) : ClosureWalk :=
  let name := spread.name.text
  match entries.find? name, registry.fragment? name with
  | some known, _ => { w with closure := w.closure.absorb name known, hits := w.hits + 1 }
  | none, some f =>
    if name ∈ w.closure.fragments then w
    else
      { w with
        closure := { w.closure with fragments := w.closure.fragments.insert name }
        stack := (f.source, f.definition.body) :: w.stack }
  | none, none =>
    { w with closure := { w.closure with missing := w.closure.missing.insert ⟨name, source, spread.name.span⟩ } }

/-- Looks at selection sets until none is left. Every round takes one off the stack. -/
def run : (rounds : Nat) → ClosureWalk → ClosureWalk
  | 0, w => w
  | rounds + 1, w =>
    match w.stack with
    | [] => w
    | (source, body) :: rest => run rounds (body.spreads.foldl (meet registry entries source) { w with stack := rest })

end ClosureWalk

namespace ClosureCache

/-- The closure of a selection set. No more selection sets are looked at than there are fragments, and the first. -/
def walk (cache : ClosureCache) (registry : Registry) (source : Nat) (body : SelectionSet) : ClosureWalk :=
  ClosureWalk.run registry cache.entries (registry.fragments.length + 1) { stack := [(source, body)], hits := cache.hits }

/-! ## Using the cache -/

def get? (cache : ClosureCache) (name : String) : Option Closure := cache.entries.find? name

def size (cache : ClosureCache) : Nat := cache.entries.size

def isEmpty (cache : ClosureCache) : Bool := cache.entries.isEmpty

/-- The closure of a fragment. There is none for a name that no fragment has. -/
def closureOf (cache : ClosureCache) (registry : Registry) (name : String) : Option Closure × ClosureCache :=
  match cache.get? name, registry.fragment? name with
  | some known, _ => (some known, { cache with hits := cache.hits + 1 })
  | none, some f =>
    let done := cache.walk registry f.source f.definition.body
    (some done.closure, { entries := cache.entries.insert name done.closure, hits := done.hits })
  | none, none => (none, cache)

/-- Adds what one spread stands for. -/
def resolveSpread (registry : Registry) (source : Nat) (state : Closure × ClosureCache) (spread : Spread) :
    Closure × ClosureCache :=
  let (found, cache) := state
  let name := spread.name.text
  match cache.closureOf registry name with
  | (some known, cache) => (found.absorb name known, cache)
  | (none, cache) => ({ found with missing := found.missing.insert ⟨name, source, spread.name.span⟩ }, cache)

/-- The closure of a selection set of a source, by way of the closures of the fragments it spreads. -/
def resolve (cache : ClosureCache) (registry : Registry) (source : Nat) (body : SelectionSet) :
    Closure × ClosureCache :=
  body.spreads.foldl (resolveSpread registry source) ({}, cache)

end ClosureCache

end QueryBatch
