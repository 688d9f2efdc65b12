import QueryBatch.Diagnostic.Basic
import QueryBatch.Diagnostic.Edit
import QueryBatch.Diagnostic.Snippet

/-!
# Diagnostics with their source text

* `Diagnostic.render`: a diagnostic with the lines it speaks of, those of other sources after its own, and the fix it
  proposes. Line numbers are those of the file, columns those of the text.
* `renderAll`: diagnostics one after the other.
-/

namespace QueryBatch.Diagnostic

/-- The span to mark for a span of a text: within the text, and one byte long at least if the text goes on. -/
def markedSpan (text : String) (span : Span) : Span :=
  let size := text.utf8ByteSize
  let start := min span.start size
  let stop := min span.stop size
  if start = stop then ⟨start, min (start + 1) size⟩ else ⟨start, stop⟩

/-! ## Parts -/

/-- A title on as many lines as it has, all of them beside what leads it in. -/
def title (lead : String) (text : List Char) : List String :=
  match (text.splitOn '\n').map String.ofList with
  | [] => [lead]
  | first :: others => (lead ++ first) :: others.map (blanks lead.length ++ ·)

/-- The title of a fault, its characters shown like those of source text. -/
def faultTitle (message : String) : List String :=
  let lines := (message.toList.splitOn '\n').map shownText
  title "error: " (['\n'].intercalate lines)

/-- A source with the marks to draw in it. -/
structure View where
  source : Source
  marks : List Mark

namespace View

/-- The greatest line number of a view: that of the last character of a mark. -/
def lastLine (v : View) : Nat :=
  let lines := sourceLines v.source.text
  v.source.offset.line + ((v.marks.map fun m => lineOf lines (m.span.stop - 1)).max?.getD 0)

/-- The number of margin bars that a view needs. -/
def depth (v : View) : Nat := greatestDepth (sourceLines v.source.text) v.marks

/-- The path, line and column of the first mark. -/
def place (v : View) : String :=
  let point := match v.marks with
    | m :: _ => locate (sourceLines v.source.text) m.span.start
    | [] => default
  v.source.path ++ ":" ++ toString (v.source.offset.line + point.line) ++ ":" ++ toString (point.chars + 1)

/-- The marked lines, with room for margin bars up to a depth. -/
def body (v : View) (numbers depth : Nat) : List String :=
  snippet numbers depth v.source.offset.line v.source.text v.marks

end View

/-- The view of the diagnostic's own source. -/
def ownView (d : Diagnostic) (source : Source) : View :=
  { source
    marks := ⟨true, markedSpan source.text d.span, d.message⟩ ::
      (d.related.filter fun r => r.source == d.source).map fun r =>
        ⟨false, markedSpan source.text r.span, r.message⟩ }

/-- The views of related places in other sources. -/
def otherViews (d : Diagnostic) (sources : Sources) : List View :=
  (d.related.filter fun r => r.source != d.source).filterMap fun r =>
    (sources[r.source]?).map fun source => ⟨source, [⟨false, markedSpan source.text r.span, r.message⟩]⟩

/-- The edit that a diagnostic proposes, if it changes anything. -/
def edit? (d : Diagnostic) (source : Source) : Option Edit :=
  (d.fix.map fun fix => Edit.of source.text (markedSpan source.text d.span) fix.replacement).filter Edit.isProper

/-! ## Whole diagnostics -/

/-- The lines that propose a fix. -/
def fixLines (numbers : Nat) (source : Source) (fix : Fix) (edit : Option Edit) : List String :=
  let change := match edit with
    | some e => barRow numbers :: e.rows numbers source.offset.line
    | none => []
  barRow numbers :: title "help: " fix.description.toList ++ change

/-- The lines of a diagnostic with its source. All its views have the same columns. -/
def linesWith (d : Diagnostic) (sources : Sources) (source : Source) : List String :=
  let own := d.ownView source
  let others := d.otherViews sources
  let edit := d.edit? source
  let shown := (own :: others).map View.lastLine ++ edit.toList.map fun e => source.offset.line + e.lastShown
  let numbers := (toString (shown.max?.getD 0)).length
  let depth := ((own :: others).map View.depth).max?.getD 0
  faultTitle d.message ++ [blanks numbers ++ "--> " ++ own.place, barRow numbers] ++ own.body numbers depth ++
    others.flatMap (fun v =>
      [barRow numbers, blanks numbers ++ "::: " ++ v.place, barRow numbers] ++ v.body numbers depth) ++
    match d.fix with
    | some fix => fixLines numbers source fix edit
    | none => []

/-- A diagnostic with its source text, or on one line if its source is unknown. -/
def render (d : Diagnostic) (sources : Sources) : String :=
  match sources[d.source]? with
  | some source => "\n".intercalate (d.linesWith sources source)
  | none => d.line

end QueryBatch.Diagnostic

namespace QueryBatch

/-- Diagnostics with their source texts, one after the other. -/
def renderAll (ds : List Diagnostic) (sources : Sources) : String :=
  "\n".intercalate (ds.map fun d => d.render sources)

end QueryBatch
