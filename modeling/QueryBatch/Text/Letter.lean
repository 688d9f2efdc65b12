import QueryBatch.Text.LetterRanges

/-!
# Letters

Character classes and lower case by the Unicode properties in `LetterRanges`.

* `isAlphabetic`, `isUppercase`, `isCased`, `isCaseIgnorable`: membership in a property.
* `lowercase`: the full lower case of a text. One capital has two characters (`İ`), and a capital sigma at the end
  of a word becomes the final sigma.
-/

namespace QueryBatch.Text

/-- Whether a character lies in one of the closed ranges. -/
def inRanges (ranges : List (Nat × Nat)) (c : Char) : Bool :=
  ranges.any fun (first, last) => first ≤ c.toNat && c.toNat ≤ last

/-- Whether a code point belongs to the run from `first` to `last` with the given step. -/
def inRun (first last step n : Nat) : Bool := first ≤ n && n ≤ last && (n - first) % step == 0

def isAlphabetic (c : Char) : Bool := inRanges alphabeticRanges c

def isUppercase (c : Char) : Bool :=
  uppercaseRuns.any fun (first, last, step) => inRun first last step c.toNat

def isCased (c : Char) : Bool := inRanges casedRanges c

def isCaseIgnorable (c : Char) : Bool := inRanges caseIgnorableRanges c

/-- The lower case of a character on its own. -/
def lowerChar (c : Char) : List Char :=
  if c = 'İ' then ['i', '\u0307'] else
  match lowercaseRuns.find? fun (first, last, step, _) => inRun first last step c.toNat with
  | some (_, _, _, distance) => [Char.ofNat (c.toNat + distance).toNat]
  | none => [c]

/-- Whether the first character that is not case-ignorable is cased. -/
def meetsCased (cs : List Char) : Bool :=
  match cs.dropWhile isCaseIgnorable with
  | c :: _ => isCased c
  | [] => false

/-- The lower case of the rest of a text, whose characters before it are `before`, nearest first. -/
def lowerFrom (before : List Char) : List Char → List Char
  | [] => []
  | c :: rest =>
    let lower := if c = 'Σ' then [if meetsCased before && !meetsCased rest then 'ς' else 'σ'] else lowerChar c
    lower ++ lowerFrom (c :: before) rest

/-- The lower case of a text. -/
def lowercase (cs : List Char) : List Char := lowerFrom [] cs

end QueryBatch.Text
