/-!
# Edit distance and the closest name

* `editDistance a b`: the number of single-character insertions, deletions and substitutions between two words,
  computed row by row. A row holds the distances of one prefix of `a` to every prefix of `b`.
* `closestMatch name candidates threshold`: the first candidate at the least distance from `name`, if that distance
  is below the threshold.
-/

namespace QueryBatch.Text

/-! ## Distance -/

/-- The cells of a row after its first. `diagonal` and `left` are the neighbours above left and to the left of the
next cell, and the last argument holds the cells above. -/
def rowTail (c : Char) : List Char → (diagonal left : Nat) → List Nat → List Nat
  | t :: ts, diagonal, left, above :: row =>
    let cell := min (min (above + 1) (left + 1)) (diagonal + if c = t then 0 else 1)
    cell :: rowTail c ts above cell row
  | _, _, _, _ => []

/-- The row of a prefix with one more character `c`. -/
def nextRow (target : List Char) (row : List Nat) (c : Char) : List Nat :=
  match row with
  | [] => []
  | first :: rest => (first + 1) :: rowTail c target first (first + 1) rest

/-- The distances of the empty word to every prefix of `target`. -/
def firstRow (target : List Char) : List Nat := List.range (target.length + 1)

/-- The edit distance of two words, counted in characters. -/
def editDistance (a b : String) : Nat :=
  (a.toList.foldl (nextRow b.toList) (firstRow b.toList)).getLastD 0

/-! ## Closest candidate -/

/-- Keeps the nearer of the best candidate so far and a new one. The earlier one wins a tie. -/
def nearer (name : String) (best : Option (String × Nat)) (candidate : String) : Option (String × Nat) :=
  let distance := editDistance name candidate
  match best with
  | none => some (candidate, distance)
  | some (_, least) => if distance < least then some (candidate, distance) else best

/-- The nearest candidate whose distance from `name` is below `threshold`. -/
def closestMatch (name : String) (candidates : List String) (threshold : Nat) : Option String :=
  match candidates.foldl (nearer name) none with
  | some (candidate, distance) => if distance < threshold then some candidate else none
  | none => none

end QueryBatch.Text
