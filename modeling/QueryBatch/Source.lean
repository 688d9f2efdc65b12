import QueryBatch.Text.Checksum

/-!
# Sources and places

The texts of a batch, spans in them, and places in the files they were taken from.

* `Span`: a half-open range of byte offsets.
* `Source`: a text, the path of its file and where the text starts in that file.
* `lineColumn`: the line and column of a byte offset in a text. The line is found by halving the starts of lines, the
  column by cutting out what stands in front of the offset on its line.
* `Source.location`: the same in file coordinates.
-/

namespace QueryBatch

/-! ## Spans -/

/-- The byte offsets from `start` up to, but not including, `stop`. They are natural numbers of any size; in a text of
less than 2^32 bytes, words of 32 bits hold the same offsets. -/
structure Span where
  start : Nat
  stop : Nat
  deriving DecidableEq, Repr, Inhabited

namespace Span

/-- The span of no characters at an offset. -/
def emptyAt (offset : Nat) : Span := ⟨offset, offset⟩

/-- The least span that holds both. -/
def cover (a b : Span) : Span := ⟨min a.start b.start, max a.stop b.stop⟩

end Span

/-! ## Sources -/

/-- Where an embedded text starts in its file: the line counts from one, the column from zero. -/
structure Position where
  line : Nat := 1
  column : Nat := 0
  deriving DecidableEq, Repr, Inhabited

/-- A point in a file; line and column count from one. -/
structure Location where
  file : String
  line : Nat
  column : Nat
  deriving DecidableEq, Repr, Inhabited

/-- A text of a batch. -/
structure Source where
  path : String
  text : String
  offset : Position := {}
  deriving DecidableEq, Repr, Inhabited

/-- The sources of a batch. A source is named by its index. -/
abbrev Sources := List Source

/-! ## Lines -/

/-- The offsets behind the line feeds among characters of which the first one starts at `offset`. -/
def lineStartsFrom (offset : Nat) : List Char → List Nat
  | [] => []
  | c :: rest =>
    let next := offset + c.utf8Size
    if c = '\n' then next :: lineStartsFrom next rest else lineStartsFrom next rest

/-- The offsets at which the lines of a text start, in order. -/
def lineStarts (text : String) : Array Nat := (0 :: lineStartsFrom 0 text.toList).toArray

/-- Halves `size` members of an array from `base` on until one is left: the upper half is kept if `p` holds of its first
member, and the lower one if not. -/
def bisect {α : Type} (p : α → Bool) (as : Array α) (base size : Nat) : Nat :=
  if size ≤ 1 then base
  else
    let half := size / 2
    bisect p as (if as[base + half]?.any p then base + half else base) (size - half)
termination_by size
decreasing_by omega

/-- The number of members for which `p` holds, in an array where all of these stand in front of the others. -/
def partitionPoint {α : Type} (p : α → Bool) (as : Array α) : Nat :=
  if as.isEmpty then 0
  else
    let last := bisect p as 0 as.size
    if as[last]?.any p then last + 1 else last

/-- The part of a text between two offsets, if both are boundaries of characters and the first is not behind the
second. -/
def sliceText? (text : String) (start stop : Nat) : Option String := do
  let first ← text.pos? ⟨start⟩
  let last ← text.pos? ⟨stop⟩
  let slice ← text.slice? first last
  return slice.copy

/-- The line and column of a byte offset in a text, both counting from one. An offset beyond the text counts as its end,
and one inside a character as the start of its line. -/
def lineColumn (text : String) (offset : Nat) : Nat × Nat :=
  let starts := lineStarts text
  let line := partitionPoint (fun start => start ≤ offset) starts - 1
  let column := (sliceText? text (starts[line]?.getD 0) (min offset text.utf8ByteSize)).elim 0 String.length
  (line + 1, column + 1)

/-! ## Places -/

/-- Line and column numbers are words of 32 bits. -/
def word32 (n : Nat) : Nat := n % UInt32.size

/-- The place of a byte offset in the file of a source. The column of the text's start counts on its first line only. -/
def Source.location (s : Source) (offset : Nat) : Location :=
  let (line, column) := lineColumn s.text offset
  { file := s.path
    line := word32 (line + s.offset.line - 1)
    column := word32 (if line = 1 then column + s.offset.column else column) }

end QueryBatch
