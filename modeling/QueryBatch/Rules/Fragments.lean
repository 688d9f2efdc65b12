import QueryBatch.Rules.Context

/-!
# Rules for fragment definitions

* `uniqueFragmentNames`: names of fragments differ.
* `acyclicFragments`: no fragment spreads itself, directly or through others.
* `cycles`: the cycles that a depth-first search over spreads closes. Every fragment is entered once.
-/

namespace QueryBatch.Rules

/-- Of the fragments with one name all but the first are reported. The first is rejected too, for it is not clear any
more which one a spread stands for. -/
def uniqueFragmentNames : Rule := fun cx =>
  (repeats (fun (_, frag) => frag.name.text) cx.fragments).map fun ((first, firstFrag), (s, frag)) =>
    { diagnostic := some (((s.diagnostic .duplicateFragmentName frag.name.span).withDetail frag.name.text).relatedTo
        first.source firstFrag.name.span "first defined here")
      rejected := [s.owner, first.owner] }

/-! ## Cycles -/

/-- A spread in the body of a fragment. -/
structure Step where
  inside : String
  subject : Subject
  spread : Spread

/-- The name that a step leads to. -/
def Step.target (step : Step) : String := step.spread.name.text

/-- The steps out of a fragment. -/
def stepsOf (s : Subject) (frag : Fragment) : List Step :=
  frag.body.spreads.map fun spread => ⟨frag.name.text, s, spread⟩

/-- The part of a way from the fragment that its last step leads to. It is empty unless the way comes back to itself.
The way is looked through from its start. As no fragment is entered twice, a table of the names on the way, with the
position of each, would tell the same position. -/
def closedPart (way : List Step) (target : String) : List Step := way.dropWhile fun step => step.inside != target

/-- The cycles that a search from a fragment closes, and the names of the fragments entered so far. `path` holds the
steps that led to the fragment. -/
def cyclesFrom (cx : Context) : (room : Nat) → (path : List Step) → (seen : List String) → Subject → Fragment →
    List (List Step) × List String
  | 0, _, seen, _, _ => ([], seen)
  | room + 1, path, seen, s, frag =>
    if frag.name.text ∈ seen then ([], seen)
    else
      (stepsOf s frag).foldl
        (fun (found, seen) step =>
          let way := path ++ [step]
          match closedPart way step.target, cx.fragment? step.target with
          | [], some (next, nextFrag) =>
            let (more, seen) := cyclesFrom cx room way seen next nextFrag
            (found ++ more, seen)
          | [], none => (found, seen)
          | cycle, _ => (found ++ [cycle], seen))
        ([], frag.name.text :: seen)

/-- The cycles of a search from every fragment in turn. -/
def cycles (cx : Context) : List (List Step) :=
  let starts := cx.fragmentNames.filterMap cx.fragment?
  let search := fun (found, seen) ((s, frag) : Subject × Fragment) =>
    let (more, seen) := cyclesFrom cx (cx.fragments.length + 1) [] seen s frag
    (found ++ more, seen)
  (starts.foldl search (([], []) : List (List Step) × List String)).1

/-- The finding for a cycle: it points to the first step and rejects every fragment on the way. -/
def cycleFinding (first : Step) (rest : List Step) : Finding :=
  let closing := rest.getLast?.getD first
  let d := (first.subject.diagnostic .fragmentCycle first.spread.span).withDetail closing.target
  { diagnostic := some (rest.foldl (fun d step =>
      d.relatedTo step.subject.source step.spread.span ("spreads `" ++ step.target ++ "`")) d)
    rejected := (first :: rest).map fun step => step.subject.owner }

/-- No fragment spreads itself. -/
def acyclicFragments : Rule := fun cx =>
  (cycles cx).filterMap fun
    | [] => none
    | first :: rest => some (cycleFinding first rest)

end QueryBatch.Rules
