import QueryBatch.Diagnostic.Canvas
import QueryBatch.Diagnostic.Marks

/-!
# The visible part of long lines

A line is drawn in 140 columns. Where the lines of a snippet are longer, or indented far, only the columns around the
marks are shown, with dots where something is left out.

* `Extent.of`: how far the marks of a snippet, their labels and its lines reach.
* `Window.around`: the columns to show for an extent.
* `Window.lineStrokes`: a line seen through a window, and how many columns are left out before it.
-/

namespace QueryBatch.Diagnostic

/-! ## Extents -/

/-- How far the parts of a snippet reach, in columns of its text. -/
structure Extent where
  /-- The least indentation of a line. -/
  indent : Nat
  /-- The leftmost column of a mark. -/
  first : Nat
  /-- The rightmost column of a mark. -/
  last : Nat
  /-- The rightmost column of a mark with its label behind it. -/
  lastLabel : Nat
  /-- The size of the longest line. -/
  longest : Nat

/-- The columns of the white space that a line starts with, a tab counting as four and all else as one. -/
def indentOf (line : List Char) : Nat :=
  let space := line.takeWhile Text.isBlank
  space.length + 3 * space.count '\t'

/-- The column after the label of a mark if it stands behind the mark. -/
def LineMark.labelEnd (m : LineMark) : Nat := m.last + if m.hasLabel then m.label.utf8ByteSize + 1 else 0

/-- The extent of marked lines. Lines of white space have no indentation. -/
def Extent.of (lines : List SourceLine) (marked : List (Nat × List LineMark)) : Extent :=
  let texts := marked.map fun (line, _) => (lines.getD line default).text
  let marks := marked.flatMap Prod.snd
  { indent := (((texts.filter fun line => !line.all Text.isBlank).map indentOf).min?).getD 0
    first := ((marks.map fun m => min m.first m.last).min?).getD 0
    last := ((marks.map fun m => max m.first m.last).max?).getD 0
    lastLabel := ((marks.map LineMark.labelEnd).max?).getD 0
    longest := ((texts.map Text.byteLength).max?).getD 0 }

/-! ## Windows -/

/-- The columns that are shown of each line of a snippet: from `left` up to `right` where there is not room for all that
comes after `left`. -/
structure Window where
  left : Nat
  right : Nat
  room : Nat

namespace Window

/-- The columns kept free beside what has to be seen. -/
def border : Nat := 6

/-- The window for an extent. Indentation of more than 20 columns is shortened first. If that does not do, the window
starts where the first of these fits: all from the indentation to the last label, all from the first mark to the last
label, or all marks; and if nothing fits it shows no more than the marks. -/
def around (room : Nat) (e : Extent) : Window :=
  let indent := e.indent - border
  let first := e.first - border
  let last := e.last + border
  let lastLabel := e.lastLabel + border
  let left := if 20 < indent then indent - 16 else 0
  let right := max e.longest left
  let startingAt (left : Nat) : Window := ⟨left, left + room, room⟩
  if right - left ≤ room then ⟨left, right, room⟩
  else if indent ≤ lastLabel ∧ lastLabel - indent ≤ room then startingAt indent
  else if lastLabel - first ≤ room then startingAt (first - (room - (lastLabel - first)) / 2)
  else if last - first ≤ room then startingAt (first - (room - (last - first)) / 5 * 2)
  else ⟨first, last, room⟩

end Window

/-! ## Columns of a text -/

/-- A text without its first columns. A character that is cut goes as a whole. -/
def dropColumns : (count : Nat) → List Char → List Char
  | 0, cs => cs
  | _ + 1, [] => []
  | count + 1, c :: rest => dropColumns (count + 1 - Text.columns c) rest

/-- The longest start of a text that takes no more than the given columns. -/
def takeColumns (count : Nat) : List Char → List Char
  | [] => []
  | c :: rest => if Text.columns c ≤ count then c :: takeColumns (count - Text.columns c) rest else []

/-- The shortest start of a text that takes at least the given columns, or all of it. -/
def coverColumns : (count : Nat) → List Char → List Char
  | 0, _ => []
  | _ + 1, [] => []
  | count + 1, c :: rest => c :: coverColumns (count + 1 - Text.columns c) rest

theorem dropColumns_suffix (count : Nat) (cs : List Char) : dropColumns count cs <:+ cs := by
  induction cs generalizing count with
  | nil => cases count <;> simp [dropColumns]
  | cons c rest ih =>
    cases count with
    | zero => simp [dropColumns]
    | succ count => exact (ih _).trans (List.suffix_cons c rest)

theorem takeColumns_prefix (count : Nat) (cs : List Char) : takeColumns count cs <+: cs := by
  induction cs generalizing count with
  | nil => simp [takeColumns]
  | cons c rest ih =>
    rw [takeColumns]
    split
    · exact (List.prefix_cons_inj c).2 (ih _)
    · exact List.nil_prefix

theorem totalColumns_takeColumns_le (count : Nat) (cs : List Char) :
    Text.totalColumns (takeColumns count cs) ≤ count := by
  induction cs generalizing count with
  | nil => simp [takeColumns, Text.totalColumns]
  | cons c rest ih =>
    rw [takeColumns]
    split
    · have := ih (count - Text.columns c)
      simp only [Text.totalColumns]
      omega
    · simp [Text.totalColumns]

/-! ## Lines through a window -/

namespace Window

/-- The strokes of a line on a row, with source text starting at the column `code`, and the number of columns left out
before what is shown. Dots cover the first and last characters of what is shown. -/
def lineStrokes (w : Window) (row code : Nat) (line : List Char) : List Stroke × Nat :=
  let length := Text.totalColumns line
  let left := min w.left length
  let right := if length - w.left ≤ w.room then length else min length w.right
  let rest := dropColumns left line
  let shown := takeColumns (right - left) rest
  let skipped := max left (length - Text.totalColumns rest)
  let isCut := 0 < w.left
  let covered := if isCut then coverColumns dots.length shown else []
  let width := Text.totalColumns covered
  let uncovered := shown.drop covered.length
  let tail := coverColumns dots.length shown.reverse
  let put (column : Nat) (text : List Char) : Stroke := .put row column (String.ofList text)
  ((if isCut then [put code dots] else []) ++ [put (code + width) uncovered] ++
      (if right < length then [put (code + width + uncovered.length - tail.length) dots] else []),
    skipped - (width - dots.length))

end Window

end QueryBatch.Diagnostic
