import QueryBatch.Diagnostic.Window

/-!
# Snippets of source text

The lines of a text that have marks, with the marks drawn under them.

* `placedMarks`: which row below its line the label of a mark stands on. The rightmost label ends the row of the
  markers; a label that would run into a mark to its right moves further down.
* `blockOf`: a source line with its marks.
* `snippet`: all blocks of a text, with dots for the lines left out between them.
-/

namespace QueryBatch.Diagnostic

/-- The columns of a snippet: the width of line numbers, the number of margin bars, and the part of lines that is
shown. -/
structure Layout where
  numbers : Nat
  depth : Nat
  window : Window

namespace Layout

/-- The column of the bar beside the line numbers. -/
def separator (l : Layout) : Nat := l.numbers + 1

/-- The column left of the first margin bar. -/
def margin (l : Layout) : Nat := l.numbers + 3

/-- The column where source text starts, for a width of line numbers and a number of margin bars. -/
def codeColumn (numbers depth : Nat) : Nat := if depth = 0 then numbers + 3 else numbers + depth + 4

/-- The column where source text starts. -/
def code (l : Layout) : Nat := codeColumn l.numbers l.depth

/-- The column of the margin bar of a depth. -/
def barColumn (l : Layout) (depth : Nat) : Nat := l.margin + depth - 1

/-- The columns of a drawing. -/
def lineWidth : Nat := 140

/-- The layout for marked lines. -/
def fitting (numbers depth : Nat) (lines : List SourceLine) (marked : List (Nat × List LineMark)) : Layout :=
  ⟨numbers, depth, .around (lineWidth - codeColumn numbers depth) (.of lines marked)⟩

end Layout

/-! ## Rows of labels -/

/-- Whether a mark, with room for a label behind it, runs into another. -/
def runsInto (m other : LineMark) (room : Nat) : Bool :=
  (other.first ≤ m.first && m.first < other.last) || (m.first ≤ other.first && other.first < m.last + room)

/-- The room for the label of a mark. -/
def labelRoom (m : LineMark) : Nat := if m.hasLabel then m.label.utf8ByteSize + 2 else 0

/-- Whether a mark on the first row has to give way to one on its left. -/
def givesWay (m left : LineMark) : Bool :=
  runsInto left m 0 && !(left.first == m.first && left.last == m.last && !left.hasLabel)

/-- Whether the label of `left` needs a row below that of `m`, which stands on `row`. -/
def crowds (row : Nat) (m left : LineMark) : Bool :=
  let meets := runsInto left m (labelRoom left)
  (meets && m.hasLabel && left.hasLabel) || (m.reachesMargin && left.hasLabel) ||
    (m.hasLabel && left.reachesMargin) || (m.reachesMargin && left.reachesMargin) ||
    (meets && left.last ≤ m.last && left.hasLabel && row == 0)

/-- A mark on its row. -/
structure Placed where
  row : Nat
  mark : LineMark
  /-- For each mark further left, whether it was found to run into this one. -/
  meets : List Bool := []

/-- Which of the marks to its left run into a mark. A mark that `stops` is not compared further once it gives way. -/
def meetings (m : LineMark) (stops : Bool) : List LineMark → List Bool
  | [] => []
  | left :: rest =>
    if stops && givesWay m left then true :: rest.map fun _ => false
    else runsInto left m 0 :: meetings m stops rest

/-- The rows of marks that come from right to left, the first free row being `row`, and the greatest row used. -/
def rowsFrom (row deepest : Nat) : List LineMark → List Placed × Nat
  | [] => ([], deepest)
  | m :: later =>
    let stops := row == 0 && m.hasLabel
    let own := if stops && later.any (givesWay m) then 1 else row
    let next := if later.any (crowds own m) then own + 1 else own
    let (rest, deepest) := rowsFrom next (max deepest next) later
    (⟨own, m, meetings m stops later⟩ :: rest, deepest)

/-- The marks of a line with their rows from right to left, and the number of rows below the one of the markers. Where
only spans over several lines open, the leftmost comes first and no row is needed for a label. -/
def placedMarks (marks : List LineMark) : List Placed × Nat :=
  let (placed, deepest) := rowsFrom 0 0 (marks.mergeSort fun a b => b.first ≤ a.first)
  let rows := if deepest = 0 then 0 else deepest + 1
  let onlyOpens := placed.all fun p => match p.mark.shape with
    | .opens _ => true
    | _ => false
  if onlyOpens then
    let last := (placed.map Placed.row).max?.getD 0
    (placed.map fun p => { p with row := last - p.row }, rows - 1)
  else (placed, rows)

/-- For each mark whether it runs into another. -/
def crossings : List Placed → List Bool
  | [] => []
  | p :: left => p.meets.any id :: List.zipWith or p.meets (crossings left)

/-! ## Strokes of a mark -/

/-- Where the text of a line is drawn: the column of its first character, and the columns left out before it. -/
structure Origin where
  code : Nat
  cut : Nat

/-- Where a column of the text is drawn. -/
def Origin.at (o : Origin) (column : Nat) : Nat := o.code + column - o.cut

/-- The line from the margin to a mark that opens or closes a span over several lines. -/
def marginLine (l : Layout) (o : Origin) (p : Placed) : List Stroke :=
  match p.mark.shape with
  | .opens depth | .closes depth => [bar (p.row + 1) (l.margin + depth) (o.at p.mark.first) '_']
  | _ => []

/-- The bars that lead from the markers down to a mark's row, and those in the margin. -/
def uprights (l : Layout) (o : Origin) (rows : Nat) (p : Placed) : List Stroke :=
  let down :=
    if 0 < p.row && (p.mark.hasLabel || p.mark.reachesMargin) then
      (List.range (p.row + 1)).map fun r => .put (r + 1) (o.at p.mark.first) "|"
    else []
  let inMargin := match p.mark.shape with
    | .opens depth => .put (p.row + 1) (l.barColumn depth) " " ::
      (List.range (rows - p.row)).map fun r => .put (p.row + 2 + r) (l.barColumn depth) "|"
    | .closes depth => (List.range (p.row + 2)).map fun r => .put r (l.barColumn depth) "|"
    | _ => []
  down ++ inMargin

/-- The label: behind the mark on the first row, below its start on others. -/
def labelStroke (o : Origin) (p : Placed) : List Stroke :=
  let m := p.mark
  if m.hasLabel then
    if p.row = 0 then [.put 1 (o.code + (m.last + (if m.last = 0 then 2 else 1) - o.cut)) m.label]
    else [.put (p.row + 2) (o.code + (m.first - o.cut)) m.label]
  else []

/-- The signs under the marked text. -/
def underline (o : Origin) (p : Placed) : List Stroke :=
  let m := p.mark
  let start := if m.reachesMargin || (p.row != 0 && m.hasLabel) then [.put 1 (o.at m.first) m.sign.toString] else []
  bar 1 (o.at m.first) (o.at m.last) m.sign :: start

/-- Marks in the order in which they are underlined: long ones first, so that short ones stay visible. -/
def underlineOrder (placed : List Placed) : List Placed :=
  placed.mergeSort fun a b =>
    let lengthA := a.mark.last - a.mark.first
    let lengthB := b.mark.last - b.mark.first
    lengthB < lengthA || (lengthA == lengthB && (!a.mark.isPrimary || b.mark.isPrimary))

/-- Folds the middle of a mark that is more than twice as long as there is room for. -/
def foldLong (room : Nat) (o : Origin) (p : Placed) : List Stroke :=
  let length := p.mark.last - p.mark.first
  if p.mark.shape = .whole && 2 * room < length && 10 < length then
    let kept := max (room / 3) 5
    [0, 1].map fun row => .fold row (o.at (p.mark.first + kept)) (o.at (p.mark.last - kept))
  else []

/-! ## Blocks -/

/-- The strokes of a source line with its number, and where its text is drawn. -/
def lineStrokes (l : Layout) (number : Nat) (text : List Char) : List Stroke × Origin :=
  let (strokes, cut) := l.window.lineStrokes 0 l.code text
  let digits := toString number
  (strokes ++ [.put 0 (l.numbers - digits.length) digits, .put 0 l.separator "|"], ⟨l.code, cut⟩)

/-- Whether the marks of a line need no row of their own: only spans that open on the first letter of the line, or
pass by. -/
def opensAtStart (text : List Char) (marks : List LineMark) : Bool :=
  marks.all fun m => match m.shape with
    | .opens _ => (text.take m.first).all Text.isBlank
    | .passes _ => true
    | _ => false

/-- The depths at which spans open. -/
def openDepths (marks : List LineMark) : List Nat :=
  marks.filterMap fun m => match m.shape with
    | .opens depth => some depth
    | _ => none

/-- The depths at which spans open or close. -/
def changedDepths (marks : List LineMark) : List Nat :=
  marks.filterMap fun m => match m.shape with
    | .opens depth | .closes depth => some depth
    | _ => none

/-- The number of rows of a line with its marks, and their strokes. -/
def blockOf (l : Layout) (number : Nat) (text : List Char) (marks : List LineMark) : Nat × List Stroke :=
  let (line, origin) := lineStrokes l number text
  if opensAtStart text marks then
    (1, line ++ (openDepths marks).map fun depth => .put 0 (l.barColumn depth) "/")
  else
    let (placed, rows) := placedMarks marks
    let ordered := underlineOrder placed
    let separators := (List.range (rows + 1)).map fun r => .put (r + 1) l.separator "|"
    (rows + 2,
      line ++ separators ++ placed.flatMap (marginLine l origin) ++ placed.flatMap (uprights l origin rows) ++
        placed.flatMap (labelStroke origin) ++ ordered.flatMap (underline origin) ++
        (ordered.zip (crossings placed)).flatMap fun (p, crosses) =>
          if crosses then [] else foldLong l.window.room origin p)

/-- Margin bars on the first rows. -/
def marginBars (l : Layout) (rows : Nat) (depths : List Nat) : List Stroke :=
  depths.flatMap fun depth => (List.range rows).map fun r => .put r (l.barColumn depth) "|"

/-! ## Snippets -/

/-- A line of a text as it is shown. -/
def shownLine (lines : List SourceLine) (line : Nat) : List Char := shownText (lines.getD line default).text

/-- What stands between two lines with marks: the only line between them, or dots for several. -/
def gap (l : Layout) (number : Nat → Nat) (lines : List SourceLine) (line next : Nat) (depths : List Nat) :
    List String :=
  if line + 2 < next then draw 1 (.put 0 0 "..." :: marginBars l 1 depths)
  else if line + 2 = next then
    draw 1 ((lineStrokes l (number (line + 1)) (shownLine lines (line + 1))).1 ++ marginBars l 1 depths)
  else []

/-- The blocks of lines with marks, in order, `inside` being the depths of the spans that are open before them. -/
def blocks (l : Layout) (number : Nat → Nat) (lines : List SourceLine) (inside : List Nat) :
    List (Nat × List LineMark) → List String
  | [] => []
  | (line, marks) :: rest =>
    let (rows, strokes) := blockOf l (number line) (shownLine lines line) marks
    let changed := changedDepths marks
    let through := inside.filter fun depth => !changed.contains depth
    let opened := changed.filter fun depth => !inside.contains depth
    let between := match rest with
      | (next, _) :: _ => gap l number lines line next (through ++ openDepths marks)
      | [] => []
    draw rows (strokes ++ marginBars l rows through) ++ between ++ blocks l number lines (through ++ opened) rest

/-- The marked lines of a text whose first line has the number `firstLine`, with line numbers of the given width and
margin bars up to the given depth. -/
def snippet (numbers depth firstLine : Nat) (text : String) (marks : List Mark) : List String :=
  let lines := sourceLines text
  let marked := markedLines lines marks
  blocks (.fitting numbers depth lines marked) (firstLine + ·) lines [] marked

end QueryBatch.Diagnostic
