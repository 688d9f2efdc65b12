/-!
# Drawing on lines of text

A drawing is a list of strokes. Later strokes cover earlier ones, and what no stroke covers to the left of one is blank.

* `draw`: the rows of a drawing.
* `blanks`, `barRow`, `numberedRow`: single rows with the margin for line numbers.
-/

namespace QueryBatch.Diagnostic

/-- A step of a drawing. Rows and columns are counted from zero. -/
inductive Stroke where
  /-- A text put at a row and column. -/
  | put (row column : Nat) (text : String)
  /-- Dots in place of what a row holds from one column up to another. A row that ends before is left as it is. -/
  | fold (row first last : Nat)

namespace Stroke

def row : Stroke → Nat
  | .put row _ _ => row
  | .fold row _ _ => row

end Stroke

/-- A line with a text put over it at a column. No text leaves the line as it is. -/
def overlay (line : List Char) (column : Nat) (text : List Char) : List Char :=
  if text.isEmpty then line
  else
    let padded := line ++ List.replicate (column - line.length) ' '
    padded.take column ++ text ++ padded.drop (column + text.length)

/-- What stands for text that is left out. -/
def dots : List Char := ['.', '.', '.']

/-- A line with dots in place of the columns from `first` up to `last`. -/
def foldColumns (line : List Char) (first last : Nat) : List Char :=
  if first = last || line.length < first || line.length < last then line
  else line.take first ++ dots ++ line.drop last

/-- The line that a stroke leaves. -/
def Stroke.on (line : List Char) : Stroke → List Char
  | .put _ column text => overlay line column text.toList
  | .fold _ first last => foldColumns line first last

/-- The line that the strokes of one row make. -/
def drawRow (strokes : List Stroke) (row : Nat) : String :=
  String.ofList ((strokes.filter fun s => s.row == row).foldl Stroke.on [])

/-- The first `rows` lines of a drawing. -/
def draw (rows : Nat) (strokes : List Stroke) : List String := (List.range rows).map (drawRow strokes)

/-- A character repeated from one column up to another. -/
def bar (row first last : Nat) (c : Char) : Stroke :=
  .put row first (String.ofList (List.replicate (last - first) c))

/-! ## Rows beside line numbers -/

/-- Blanks in a row. -/
def blanks (count : Nat) : String := String.ofList (List.replicate count ' ')

/-- A row with nothing but the bar beside line numbers of the given width. -/
def barRow (numbers : Nat) : String := blanks numbers ++ " |"

/-- A row with a line number, a sign beside it and a text. -/
def numberedRow (numbers number : Nat) (sign : Char) (text : String) : String :=
  let digits := toString number
  blanks (numbers - digits.length) ++ digits ++ " " ++ sign.toString ++ " " ++ text

end QueryBatch.Diagnostic
