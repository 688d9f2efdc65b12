import QueryBatch.Source
import QueryBatch.Text.Blank
import QueryBatch.Text.Size
import QueryBatch.Text.Width

/-!
# Marks on source lines

Where the marked spans of a snippet lie on the lines of its text.

* `SourceLine`, `sourceLines`: the lines of a text.
* `locate`: the line and column of an offset.
* `markedLines`: the marks of each line. A span over several lines has a mark where it opens, one where it closes, and
  one on each line between that is shown; such spans that share lines are drawn side by side, at different depths.
-/

namespace QueryBatch.Diagnostic

/-! ## Lines -/

/-- A line of a text without its end, and the offsets of its first byte and of the first byte after its end. -/
structure SourceLine where
  text : List Char
  start : Nat
  stop : Nat
  deriving Inhabited

/-- The lines of a text that starts at an offset. A line ends in a line feed, or a carriage return and a line feed. -/
def linesFrom (offset : Nat) (current : List Char) : List Char → List SourceLine
  | [] => if current.isEmpty then [] else [⟨current.reverse, offset, offset + Text.byteLength current⟩]
  | '\n' :: rest =>
    let line := if current.head? = some '\r' then current.tail else current
    let stop := offset + Text.byteLength current + 1
    ⟨line.reverse, offset, stop⟩ :: linesFrom stop [] rest
  | c :: rest => linesFrom offset (c :: current) rest

/-- The lines of a text. An empty text has one empty line, and a line feed at the end starts no further line. -/
def sourceLines (text : String) : List SourceLine :=
  match linesFrom 0 [] text.toList with
  | [] => [⟨[], 0, 0⟩]
  | lines => lines

/-- What a character is shown as. A tab is four blanks and other control characters are their pictures; characters that
change the direction of a line are shown as unknown, and the one that joins others is left out. -/
def shownChar (c : Char) : List Char :=
  if c = '\t' then [' ', ' ', ' ', ' ']
  else if c.toNat < 0x20 then [Char.ofNat (0x2400 + c.toNat)]
  else if c = '\x7f' then ['\u2421']
  else if c = '\u200d' then []
  else if ('\u202a' ≤ c && c ≤ '\u202e') || ('\u2066' ≤ c && c ≤ '\u2069') then ['\ufffd']
  else [c]

/-- Characters as they are shown. -/
def shownText (cs : List Char) : List Char := cs.flatMap shownChar

/-- The number of columns that characters take on a line. -/
def textWidth (cs : List Char) : Nat := Text.totalColumns (shownText cs)

/-- The characters of a line before a byte offset in it. -/
def charsBefore (bytes : Nat) : List Char → List Char
  | [] => []
  | c :: rest => if c.utf8Size ≤ bytes then c :: charsBefore (bytes - c.utf8Size) rest else []

/-! ## Points -/

/-- A place among the lines of a text: the line, the number of characters before it, the column, and the offset in the
text. -/
structure Point where
  line : Nat
  chars : Nat
  column : Nat
  offset : Nat
  deriving DecidableEq, Inhabited

namespace Point

/-- The order of points: by line, then by characters, column and offset. -/
def upTo (p q : Point) : Bool :=
  p.line < q.line || (p.line == q.line && (p.chars < q.chars || (p.chars == q.chars &&
    (p.column < q.column || (p.column == q.column && p.offset ≤ q.offset)))))

/-- The point one character before, or the first of the line. -/
def previous (p : Point) : Point := ⟨p.line, p.chars - 1, p.column - 1, p.offset - 1⟩

end Point

/-- The index of the line that holds an offset, the last one for the end of the text. -/
def lineOf (lines : List SourceLine) (offset : Nat) : Nat :=
  (lines.findIdx? fun l => l.start ≤ offset && offset < l.stop).getD (lines.length - 1)

/-- Whether an offset in a line is past its text, inside or behind the end of the line. -/
def SourceLine.isPast (l : SourceLine) (offset : Nat) : Bool := Text.byteLength l.text < offset - l.start

/-- The point of an offset. An offset past the text of its line counts as one character more. -/
def locate (lines : List SourceLine) (offset : Nat) : Point :=
  let line := lineOf lines offset
  let l := lines.getD line default
  let before := charsBefore (offset - l.start) l.text
  ⟨line, before.length + if l.isPast offset then 1 else 0, textWidth before, offset⟩

/-! ## Marks -/

/-- A span of a text to be marked, with its label. -/
structure Mark where
  isPrimary : Bool
  span : Span
  label : String

/-- What a mark is to its line. The number is the depth of a span over several lines. -/
inductive Shape where
  | whole
  | opens (depth : Nat)
  | passes (depth : Nat)
  | closes (depth : Nat)
  deriving DecidableEq, Inhabited

/-- A mark on one line, from a point up to a column. -/
structure LineMark where
  shape : Shape
  start : Point
  last : Nat
  isPrimary : Bool
  label : String := ""
  deriving DecidableEq, Inhabited

namespace LineMark

/-- The first column of the mark. -/
def first (m : LineMark) : Nat := m.start.column

def hasLabel (m : LineMark) : Bool := !m.label.isEmpty

/-- Whether the mark draws a line to the left margin. -/
def reachesMargin (m : LineMark) : Bool :=
  match m.shape with
  | .opens _ | .closes _ => true
  | _ => false

/-- The sign that underlines the mark. -/
def sign (m : LineMark) : Char := if m.isPrimary then '^' else '-'

end LineMark

/-- A span between two points. -/
structure Stretch where
  mark : Mark
  first : Point
  last : Point
  depth : Nat := 1
  /-- Whether an earlier span has the same ends. -/
  isCopy : Bool := false

/-- The points of a mark. A span without characters gets one column, and one over several lines that takes in the end of
its last line gets a column for it. -/
def stretchOf (lines : List SourceLine) (mark : Mark) : Stretch :=
  let first := locate lines mark.span.start
  let last := locate lines mark.span.stop
  let isWider :=
    if first.line = last.line then first.column == last.column
    else (lines.getD last.line default).isPast mark.span.stop
  { mark, first, last := if isWider then { last with column := last.column + 1 } else last }

def Stretch.isOnOneLine (s : Stretch) : Bool := s.first.line == s.last.line

def Stretch.sameEnds (s t : Stretch) : Bool := s.first == t.first && s.last == t.last

/-- Whether two spans have a line in common. -/
def Stretch.sharesLine (s t : Stretch) : Bool := s.first.line ≤ t.last.line && t.first.line ≤ s.last.line

/-- Moves the spans of a list that share a line with `s` one step inward, up to the first that does not. That one is
marked like a primary span if one of those given has the same ends. -/
def shiftShared (primaries : List Stretch) (s : Stretch) (index : Nat) : Nat → List Stretch → List Stretch
  | _, [] => []
  | i, t :: rest =>
    if !s.sameEnds t && s.sharesLine t then
      { t with depth := t.depth + 1 } :: shiftShared primaries s index (i + 1) rest
    else if s.sameEnds t && i != index then { t with isCopy := true } :: shiftShared primaries s index (i + 1) rest
    else if primaries.any t.sameEnds then { t with mark := { t.mark with isPrimary := true } } :: rest
    else t :: rest

/-- The spans over several lines, first line first, at their depths. The innermost drawn has the greatest depth. -/
def stacked (stretches : List Stretch) : List Stretch :=
  let sorted := stretches.mergeSort fun s t =>
    s.first.line < t.first.line || (s.first.line == t.first.line && t.last.line ≤ s.last.line)
  let primaries (index : Nat) := (sorted.take (index + 1)).filter fun s => s.mark.isPrimary
  let shifted := sorted.zipIdx.foldl (fun all (s, index) => shiftShared (primaries index) s index 0 all) sorted
  let deepest := (shifted.map Stretch.depth).max?.getD 0
  shifted.map fun s => { s with depth := deepest - s.depth + 1 }

/-- Whether a line is a remark in the style of many host languages: two slashes, without a third or a bang. -/
def isRemark : List Char → Bool
  | '/' :: '/' :: '/' :: _ => false
  | '/' :: '/' :: '!' :: _ => false
  | '/' :: '/' :: _ => true
  | _ => false

/-- Whether a line is worth being shown at the edge of a longer span: no remark, not blank and no single bracket. -/
def isTelling (line : List Char) : Bool :=
  let trimmed := Text.trimBlank line
  !isRemark trimmed && !([[], ['{'], ['}'], ['('], [')'], ['['], [']']].contains trimmed)

/-- The lines between the first and last of a span that are shown: the next four at most, without those at their end
that tell nothing, and the one before the last. -/
def linesBetween (lines : List SourceLine) (s : Stretch) : List Nat :=
  let telling (line : Nat) := isTelling (lines.getD line default).text
  let middle := min (s.first.line + 4) s.last.line
  let leading := (List.range (middle - s.first.line)).map (s.first.line + ·)
  let bound := match leading.reverse.find? telling with
    | some line => line + 1
    | none => s.first.line
  let near := (leading.map (· + 1)).filter (· < bound)
  let beforeLast := s.last.line - 1
  if middle < beforeLast && telling beforeLast then near ++ [beforeLast] else near

/-- The marks of a span over several lines, each with its line. -/
def marksOfStacked (lines : List SourceLine) (s : Stretch) : List (Nat × LineMark) :=
  let closing (shape : Shape) : Nat × LineMark :=
    (s.last.line, ⟨shape, s.last.previous, s.last.column, s.mark.isPrimary, s.mark.label⟩)
  if s.isCopy then [closing .whole]
  else
    let opening := (s.first.line, ⟨.opens s.depth, s.first, s.first.column + 1, s.mark.isPrimary, ""⟩)
    let passing : LineMark := ⟨.passes s.depth, default, 0, s.mark.isPrimary, ""⟩
    let between := (linesBetween lines s).map fun line => (line, passing)
    opening :: between ++ [closing (.closes s.depth)]

/-- The spans over several lines among marks. -/
def severalLines (lines : List SourceLine) (marks : List Mark) : List Stretch :=
  stacked ((marks.map (stretchOf lines)).filter fun s => !s.isOnOneLine)

/-- The greatest depth of spans over several lines, zero if there are none. -/
def greatestDepth (lines : List SourceLine) (marks : List Mark) : Nat :=
  ((severalLines lines marks).map Stretch.depth).max?.getD 0

/-- All marks with their lines. -/
def lineMarks (lines : List SourceLine) (marks : List Mark) : List (Nat × LineMark) :=
  let single := ((marks.map (stretchOf lines)).filter Stretch.isOnOneLine).map fun s =>
    (s.first.line, ⟨.whole, s.first, s.last.column, s.mark.isPrimary, s.mark.label⟩)
  single ++ (severalLines lines marks).flatMap (marksOfStacked lines)

/-- The lines that have marks, from the first to the last, each with its marks from left to right. -/
def markedLines (lines : List SourceLine) (marks : List Mark) : List (Nat × List LineMark) :=
  let all := lineMarks lines marks
  (List.range lines.length).filterMap fun line =>
    match (all.filter fun m => m.1 == line).map Prod.snd with
    | [] => none
    | own => some (line, own.mergeSort fun a b => a.start.upTo b.start)

end QueryBatch.Diagnostic
