import QueryBatch.Diagnostic.Canvas
import QueryBatch.Diagnostic.Marks

/-!
# Proposed edits of a text

An edit puts a text in place of a span. It is shown on the lines that come out of it: text that is added is underlined,
and where something is lost the lines before and after stand below each other.

* `inserted?`: where one text becomes another by an insertion. It keeps all of the old text (`append_of_inserted?`).
* `Edit.of`: the edit of a span, reduced to what is inserted if nothing is lost.
* `Edit.rows`: the rows that show an edit.
-/

namespace QueryBatch.Diagnostic

/-! ## Insertions -/

/-- The length of the common start of two texts. -/
def commonLength : (old new : List Char) → Nat
  | a :: old, b :: new => if a = b then commonLength old new + 1 else 0
  | _, _ => 0

/-- What is inserted into one text to make another, with the part of the old text before it. An insertion at the end is
looked for first, then one at the start, then one behind the common start. -/
def inserted? (old new : List Char) : Option (List Char × List Char) :=
  if old.isPrefixOf new then some (old, new.drop old.length)
  else if old.isSuffixOf new then some ([], new.take (new.length - old.length))
  else
    let common := commonLength old new
    let oldRest := old.drop common
    let newRest := new.drop common
    if oldRest.isSuffixOf newRest then some (old.take common, newRest.take (newRest.length - oldRest.length)) else none

theorem take_commonLength (old new : List Char) :
    old.take (commonLength old new) = new.take (commonLength old new) := by
  induction old generalizing new with
  | nil => cases new <;> simp [commonLength]
  | cons a old ih =>
    cases new with
    | nil => simp [commonLength]
    | cons b new =>
      rw [commonLength]
      split
      · next same => simp [same, ih]
      · simp

/-- An insertion keeps all of the old text. -/
theorem append_of_inserted? {old new kept added : List Char} (h : inserted? old new = some (kept, added)) :
    ∃ rest, old = kept ++ rest ∧ new = kept ++ added ++ rest := by
  unfold inserted? at h
  split at h
  · next before =>
    obtain ⟨rest, rfl⟩ := List.isPrefixOf_iff_prefix.1 before
    simp only [Option.some.injEq, Prod.mk.injEq, List.drop_left] at h
    exact ⟨[], by simp [h.1], by simp [h]⟩
  · split at h
    · next behind =>
      obtain ⟨front, rfl⟩ := List.isSuffixOf_iff_suffix.1 behind
      simp at h
      exact ⟨old, by simp [h.1], by simp [h]⟩
    · dsimp only at h
      split at h
      · next behind =>
        obtain ⟨front, split⟩ := List.isSuffixOf_iff_suffix.1 behind
        simp only [Option.some.injEq, Prod.mk.injEq] at h
        refine ⟨old.drop (commonLength old new), by rw [← h.1, List.take_append_drop], ?_⟩
        rw [← h.1, ← h.2, take_commonLength, ← split]
        simp only [List.length_append, Nat.add_sub_cancel, List.take_left, List.append_assoc]
        rw [split, List.take_append_drop]
      · simp at h

/-! ## Edits -/

/-- A text `new` in place of `old`, and the lines around it. -/
structure Edit where
  /-- The lines that `old` lies on. -/
  lines : List (List Char)
  /-- The number of the first of them, counted from zero. -/
  first : Nat
  /-- What stands before `old` on its first line. -/
  before : List Char
  old : List Char
  new : List Char
  /-- What stands after `old` on its last line. -/
  after : List Char

namespace Edit

/-- The edit that leaves what the old and the new text have in common alone, if it is an insertion. -/
def reduced (e : Edit) : Edit :=
  if e.new.isEmpty then e
  else
    match inserted? e.old e.new with
    | some (kept, added) =>
      { e with before := e.before ++ kept, old := [], new := added, after := e.old.drop kept.length ++ e.after }
    | none => e

/-- The edit that puts a text in place of a span. -/
def of (text : String) (span : Span) (replacement : String) : Edit :=
  let lines := sourceLines text
  let first := lineOf lines span.start
  let last := lineOf lines span.stop
  let start := (lines.getD first default).start
  let lastLine := lines.getD last default
  let upToStart := charsBefore span.start text.toList
  let upToStop := charsBefore span.stop text.toList
  let touched := (lines.drop first).take (last + 1 - first)
  reduced
    { lines := touched.map SourceLine.text
      first
      before := upToStart.drop (charsBefore start text.toList).length
      old := upToStop.drop upToStart.length
      new := replacement.toList
      after := lastLine.text.drop (charsBefore (span.stop - lastLine.start) lastLine.text).length }

/-- Whether the edit changes anything. -/
def isProper (e : Edit) : Bool := e.old != e.new

/-- What comes out of the edit. A new text that ends a line stands alone, and empty lines at the end are left out. -/
def outcome (e : Edit) : List Char :=
  let front := e.before ++ e.new
  let whole := if front.getLast? = some '\n' then front else front ++ e.after
  (whole.reverse.dropWhile fun c => c == '\n').reverse

/-- The lines of the outcome. -/
def result (e : Edit) : List (List Char) := (linesFrom 0 [] e.outcome).map SourceLine.text

/-! ## Forms -/

/-- Whether something but white space is replaced. -/
def isReplacing (e : Edit) : Bool := !e.old.all Text.isBlank

/-- Whether the edit takes text away: it leaves white space in its place, or a text that is not the old one with an
insertion. -/
def losesText (e : Edit) : Bool :=
  e.isReplacing && (e.new.all Text.isBlank || (inserted? (Text.trimBlank e.old) (Text.trimBlank e.new)).isNone)

/-- How an edit is shown. -/
inductive Form where
  /-- The lines before the edit above those after it. -/
  | difference
  /-- A new line. -/
  | newLine
  /-- The line with the new text underlined. -/
  | underlined
  /-- The lines after the edit. -/
  | plain
  deriving DecidableEq

/-- Whether the new text is all there is on the lines, white space apart. -/
def fillsLines (e : Edit) : Bool :=
  Text.trimBlank e.new == Text.trimBlank e.outcome

/-- The form of an edit. -/
def form (e : Edit) : Form :=
  let isOneLine := e.result.length ≤ 1
  if e.losesText && isOneLine then .difference
  else if e.new.getLast? = some '\n' && e.fillsLines then .newLine
  else if !e.fillsLines && isOneLine then .underlined
  else .plain

/-- The greatest line that is shown, counted from zero. -/
def lastShown (e : Edit) : Nat :=
  match e.form with
  | .difference => e.first + (e.lines.length - 1)
  | _ => e.first + (e.result.length - 1)

/-! ## Rows -/

/-- The rows of lines that are taken away, the last one unless it stays as it is. -/
def removedRows (e : Edit) (row : Nat → Char → List Char → String) : List String :=
  let lost := if e.lines.getLast? = e.result.head? then e.lines.dropLast else e.lines
  lost.zipIdx.map fun (line, index) => row (e.first + index) '-' line

/-- The rows of the lines before and after the edit. A line that stays as it is is not shown, and neither is a new line of
white space. -/
def differenceRows (e : Edit) (row : Nat → Char → List Char → String) : List String :=
  let isNew (line : List Char) : Bool := !line.all Text.isBlank && e.lines.getLast? != some line
  e.removedRows row ++ (e.result.filter isNew).map (row e.first '+')

/-- The columns that a text takes on an outcome that is measured in characters. -/
def cells (cs : List Char) : Nat := cs.length + 3 * cs.count '\t'

/-- The sign of a line of the outcome that holds the new text from the column `start` up to `stop`: whether all of the line
is new, none of it, or a part. -/
def lineSign (line : List Char) (start stop : Nat) : Char :=
  if start = 0 && stop = Text.byteLength line then '+'
  else if start = 0 && stop = 0 then '|'
  else '~'

/-- The rows of an outcome of several lines. -/
def lineRows (e : Edit) (row : Nat → Char → List Char → String) : List String :=
  (e.result.zip (e.new.splitOn '\n')).zipIdx.map fun ((line, part), index) =>
    let start := if index = 0 then e.before.length else 0
    row (e.first + index) (lineSign line start (start + cells part)) line

/-- The row that underlines the new text, without the white space around it unless there is nothing else. -/
def underlineRow (numbers : Nat) (e : Edit) : String :=
  let space := if e.new.all Text.isBlank then [] else e.new.takeWhile Text.isBlank
  let seen := if e.new.all Text.isBlank then e.new else Text.trimBlank e.new
  let column := numbers + 3 + textWidth e.before + Text.byteLength space
  drawRow [.put 0 (numbers + 1) "|", bar 0 column (column + textWidth seen) (if e.isReplacing then '~' else '+')] 0

/-- The rows that show the edit in a text whose first line has the number `firstLine`. -/
def rows (numbers firstLine : Nat) (e : Edit) : List String :=
  let row (line : Nat) (sign : Char) (text : List Char) : String :=
    numberedRow numbers (firstLine + line) sign (String.ofList (shownText text))
  let isOneLine := e.result.length ≤ 1
  match e.form with
  | .difference => e.differenceRows row ++ [barRow numbers]
  | .underlined => e.result.map (row e.first '|') ++ [underlineRow numbers e]
  | .newLine => (if isOneLine then e.result.map (row e.first '+') else e.lineRows row) ++ [barRow numbers]
  | .plain => (if isOneLine then e.result.map (row e.first '|') else e.lineRows row) ++ [barRow numbers]

end Edit

end QueryBatch.Diagnostic
