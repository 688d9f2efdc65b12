import Mathlib.Data.List.DropRight
import Mathlib.Data.Prod.Lex
import QueryBatch.Source
import QueryBatch.Text.Size

/-!
# Lines and columns

* `partitionPoint_append`: halving finds where the members of a sort end.
* `lineStarts_append`: the starts of lines up to a place, and behind it.
* `feedsBefore`, `lineBefore`: the line feeds before a position of a text, and the characters of its line before it.
* `lineColumn_pos`: the line counts line feeds and the column characters. `lineColumn_lt`: they grow with the position.
* `Source.location_exact`: the same in the file that a text was taken from.
-/

namespace QueryBatch

open Text

/-! ## Halving -/

section Halving

variable {α : Type} {p : α → Bool} {as : Array α} {k : Nat}

/-- Halving keeps where the members for which `p` holds end in the range that is left. -/
theorem bisect_bounds (hp : ∀ i, as[i]?.any p = true ↔ i < k) {base size : Nat} (hsize : 1 ≤ size)
    (hlow : base ≤ k) (hhigh : k ≤ base + size) : bisect p as base size ≤ k ∧ k ≤ bisect p as base size + 1 := by
  induction size using Nat.strong_induction_on generalizing base with
  | _ size ih =>
    rw [bisect]
    split
    · omega
    · refine ih (size - size / 2) (by omega) (by omega) ?_ ?_ <;> split <;> rename_i hmid <;> rw [hp] at hmid <;> omega

/-- The members for which `p` holds are counted if they stand in front of the others. -/
theorem partitionPoint_append {front behind : List α} (hfront : ∀ a ∈ front, p a = true)
    (hbehind : ∀ a ∈ behind, p a = false) : partitionPoint p (front ++ behind).toArray = front.length := by
  have hp : ∀ i, (front ++ behind).toArray[i]?.any p = true ↔ i < front.length := by
    intro i
    rw [List.getElem?_toArray]
    by_cases hi : i < front.length
    · rw [List.getElem?_append_left hi, List.getElem?_eq_getElem hi]
      exact iff_of_true (hfront _ (List.getElem_mem hi)) hi
    · rw [List.getElem?_append_right (Nat.not_lt.1 hi)]
      refine iff_of_false (fun hany => ?_) hi
      obtain ⟨a, ha, hpa⟩ := (Option.any_eq_true _ _).1 hany
      rw [hbehind a (List.mem_of_getElem? ha)] at hpa
      cases hpa
  have hlength : front.length ≤ (front ++ behind).toArray.size := by simp
  unfold partitionPoint
  split
  · rename_i hempty
    rw [Array.isEmpty_iff_size_eq_zero] at hempty
    omega
  · rename_i hmore
    rw [Array.isEmpty_iff_size_eq_zero] at hmore
    have hsize : 1 ≤ (front ++ behind).toArray.size := by omega
    have hbounds := bisect_bounds hp hsize (Nat.zero_le _) (by omega)
    dsimp only
    split <;> rename_i hlast <;> rw [hp] at hlast <;> omega

end Halving

/-! ## Starts of lines -/

theorem lineStartsFrom_append (offset : Nat) (cs rest : List Char) : lineStartsFrom offset (cs ++ rest) =
    lineStartsFrom offset cs ++ lineStartsFrom (offset + byteLength cs) rest := by
  induction cs generalizing offset with
  | nil => rfl
  | cons c cs ih =>
    rw [List.cons_append, lineStartsFrom, lineStartsFrom, byteLength, ← Nat.add_assoc, ih]
    split <;> rfl

theorem length_lineStartsFrom (offset : Nat) (cs : List Char) :
    (lineStartsFrom offset cs).length = cs.count '\n' := by
  induction cs generalizing offset with
  | nil => rfl
  | cons c cs ih =>
    rw [lineStartsFrom, List.count_cons]
    by_cases h : c = '\n'
    · simp [h, ih]
    · simp [h, ih]

/-- A line starts behind a character and not beyond the last one. -/
theorem bounds_of_mem_lineStartsFrom {offset start : Nat} {cs : List Char} (h : start ∈ lineStartsFrom offset cs) :
    (∀ c ∈ cs.head?, offset + c.utf8Size ≤ start) ∧ start ≤ offset + byteLength cs := by
  induction cs generalizing offset with
  | nil => cases h
  | cons c cs ih =>
    have hmem : start = offset + c.utf8Size ∨ start ∈ lineStartsFrom (offset + c.utf8Size) cs := by
      rw [lineStartsFrom] at h
      split at h
      · exact List.mem_cons.1 h
      · exact .inr h
    rw [byteLength, ← Nat.add_assoc]
    simp only [List.head?_cons, Option.mem_some_iff, forall_eq']
    rcases hmem with rfl | hmem
    · exact ⟨Nat.le_refl _, Nat.le_add_right _ _⟩
    · refine ⟨?_, (ih hmem).2⟩
      cases cs with
      | nil => cases hmem
      | cons d cs => exact Nat.le_trans (Nat.le_add_right _ _) ((ih hmem).1 d rfl)

/-- The last line that starts among characters, or the first line, starts in front of what follows their last line
feed. -/
theorem getLast?_lineStarts (cs : List Char) : (0 :: lineStartsFrom 0 cs).getLast? =
    some (byteLength (cs.rdropWhile (· ≠ '\n'))) := by
  induction cs using List.reverseRecOn with
  | nil => rfl
  | append_singleton cs c ih =>
    rw [lineStartsFrom_append, ← List.cons_append, List.rdropWhile_concat]
    by_cases h : c = '\n'
    · simp [h, lineStartsFrom, byteLength_append, byteLength, List.getLast?_cons]
    · simpa [h, lineStartsFrom] using ih

/-- Of the lines of a text as many start up to an offset as there are line feeds in front of it, and the first. The last
of these starts behind the last line feed. -/
theorem lineStarts_append {text : String} {before rest : List Char} (htext : text.toList = before ++ rest)
    {offset : Nat} (hle : byteLength before ≤ offset)
    (hlt : ∀ c ∈ rest.head?, offset < byteLength before + c.utf8Size) :
    partitionPoint (fun start => start ≤ offset) (lineStarts text) - 1 = before.count '\n' ∧
      (lineStarts text)[before.count '\n']? = some (byteLength (before.rdropWhile (· ≠ '\n'))) := by
  have hstarts : lineStarts text =
      ((0 :: lineStartsFrom 0 before) ++ lineStartsFrom (byteLength before) rest).toArray := by
    rw [lineStarts, htext, lineStartsFrom_append, Nat.zero_add, List.cons_append]
  have hlength : (0 :: lineStartsFrom 0 before).length = before.count '\n' + 1 :=
    congrArg Nat.succ (length_lineStartsFrom 0 before)
  rw [hstarts]
  constructor
  · rw [partitionPoint_append, hlength, Nat.add_sub_cancel]
    · intro start hstart
      rcases List.mem_cons.1 hstart with rfl | hstart
      · exact decide_eq_true (Nat.zero_le _)
      · have hbound := (bounds_of_mem_lineStartsFrom hstart).2
        exact decide_eq_true (by omega)
    · intro start hstart
      cases rest with
      | nil => cases hstart
      | cons c rest =>
        have hbound := (bounds_of_mem_lineStartsFrom hstart).1 c rfl
        have hbeyond := hlt c rfl
        exact decide_eq_false (by omega)
  · rw [List.getElem?_toArray, List.getElem?_append_left (by omega), ← getLast?_lineStarts, List.getLast?_eq_getElem?,
      hlength, Nat.add_sub_cancel]

/-! ## Positions -/

section Positions

variable {text : String}

/-- The characters before a position. -/
def charsBefore (p : text.Pos) : List Char := (text.sliceTo p).copy.toList

/-- How many line feeds stand before a position. -/
def feedsBefore (p : text.Pos) : Nat := (charsBefore p).count '\n'

/-- The characters between the last line feed before a position, or the start of the text, and the position. -/
def lineBefore (p : text.Pos) : List Char := (charsBefore p).rtakeWhile (· ≠ '\n')

theorem charsBefore_of_splits {p : text.Pos} {before after : String} (h : p.Splits before after) :
    charsBefore p = before.toList := by
  rw [charsBefore, (p.splits.eq h).1]

theorem charsBefore_leads (p : text.Pos) : charsBefore p <+: text.toList := by
  refine ⟨(text.sliceFrom p).copy.toList, ?_⟩
  rw [charsBefore, ← String.toList_append, ← p.splits.eq_append]

theorem byteLength_charsBefore (p : text.Pos) : byteLength (charsBefore p) = p.offset.byteIdx := by
  rw [charsBefore, byteLength_toList, p.splits.offset_eq_rawEndPos]
  rfl

/-- Of two positions the later one has more characters before it. -/
theorem exists_charsBefore_eq {p q : text.Pos} (h : p < q) :
    ∃ between, between ≠ [] ∧ charsBefore q = charsBefore p ++ between := by
  have hlt : byteLength (charsBefore p) < byteLength (charsBefore q) := by
    rw [byteLength_charsBefore, byteLength_charsBefore]
    exact h
  rcases List.prefix_or_prefix_of_prefix (charsBefore_leads p) (charsBefore_leads q) with ⟨between, heq⟩ | ⟨more, heq⟩
  · refine ⟨between, ?_, heq.symm⟩
    rintro rfl
    rw [← heq, List.append_nil] at hlt
    exact absurd hlt (Nat.lt_irrefl _)
  · rw [← heq, byteLength_append] at hlt
    omega

end Positions

/-! ## Parts of a text -/

theorem pos?_offset {text : String} (p : text.Pos) : text.pos? p.offset = some p := by
  have hvalid : p.offset.isValidForSlice text.toSlice = true :=
    String.Pos.Raw.isValidForSlice_eq_true_iff.2 p.toSlice.isValidForSlice
  rw [String.pos?, String.Slice.pos?, dif_pos hvalid]
  rfl

/-- What stands between two offsets of a text is cut out of it. -/
theorem sliceText?_eq {text before part after : String} (h : text = before ++ part ++ after) :
    sliceText? text before.utf8ByteSize (before ++ part).utf8ByteSize = some part := by
  have hstart := String.Pos.splits_ofEqAppend (h.trans (String.append_assoc ..))
  have hstop := String.Pos.splits_ofEqAppend h
  obtain ⟨hle, hcopy⟩ := String.copy_slice_eq_iff_splits.2 ⟨before, after, hstart, hstop⟩
  have hfirst : text.pos? ⟨before.utf8ByteSize⟩ = some _ := hstart.offset_eq_rawEndPos ▸ pos?_offset _
  have hlast : text.pos? ⟨(before ++ part).utf8ByteSize⟩ = some _ := hstop.offset_eq_rawEndPos ▸ pos?_offset _
  rw [sliceText?, hfirst, hlast, Option.bind_eq_bind, Option.bind_some, Option.bind_eq_bind, Option.bind_some,
    String.slice?, dif_pos hle, Option.bind_some, hcopy]
  rfl

/-! ## Advancing -/

/-- The line and column behind a character, from those in front of it. -/
def advance (place : Nat × Nat) (c : Char) : Nat × Nat :=
  if c = '\n' then (place.1 + 1, 1) else (place.1, place.2 + 1)

theorem foldl_advance (cs : List Char) :
    cs.foldl advance (1, 1) = (1 + cs.count '\n', 1 + (cs.rtakeWhile (· ≠ '\n')).length) := by
  induction cs using List.reverseRecOn with
  | nil => rfl
  | append_singleton cs c ih =>
    rw [List.foldl_append, ih, List.foldl_cons, List.foldl_nil, advance, List.count_append, List.rtakeWhile_concat]
    by_cases h : c = '\n'
    · simp [h, Nat.add_assoc]
    · simp [h, Nat.add_assoc]

theorem lt_advance (place : Nat × Nat) (c : Char) : toLex place < toLex (advance place c) := by
  rw [advance, Prod.Lex.toLex_lt_toLex]
  split
  · exact .inl (Nat.lt_succ_self _)
  · exact .inr ⟨rfl, Nat.lt_succ_self _⟩

theorem lt_foldl_advance (place : Nat × Nat) {cs : List Char} (h : cs ≠ []) :
    toLex place < toLex (cs.foldl advance place) := by
  induction cs generalizing place with
  | nil => exact absurd rfl h
  | cons c cs ih =>
    rw [List.foldl_cons]
    cases cs with
    | nil => exact lt_advance place c
    | cons d cs => exact (lt_advance place c).trans (ih _ (List.cons_ne_nil d cs))

/-! ## Places in a text -/

section Places

variable {text : String}

/-- The line is the number of line feeds before a position, and the column that of the characters of its line. -/
theorem lineColumn_pos (p : text.Pos) :
    lineColumn text p.offset.byteIdx = (1 + feedsBefore p, 1 + (lineBefore p).length) := by
  obtain ⟨rest, htext⟩ := charsBefore_leads p
  have hoffset := byteLength_charsBefore p
  have hbehind : ∀ c ∈ rest.head?, p.offset.byteIdx < byteLength (charsBefore p) + c.utf8Size := fun c _ => by
    have hsize := c.utf8Size_pos
    omega
  obtain ⟨hline, hstart⟩ := lineStarts_append htext.symm (Nat.le_of_eq hoffset) hbehind
  have hinside : p.offset.byteIdx ≤ text.utf8ByteSize := by
    rw [← hoffset, ← byteLength_toList, ← htext, byteLength_append]
    exact Nat.le_add_right _ _
  -- the line of the position stands behind what its line feeds end, and in front of the rest of the text
  have hsplit : charsBefore p = (charsBefore p).rdropWhile (· ≠ '\n') ++ lineBefore p :=
    List.rdropWhile_append_rtakeWhile.symm
  have hparts : text = String.ofList ((charsBefore p).rdropWhile (· ≠ '\n')) ++ String.ofList (lineBefore p) ++
      String.ofList rest := by
    rw [← String.ofList_append, ← hsplit, ← String.ofList_append, htext, String.ofList_toList]
  have hslice := sliceText?_eq hparts
  rw [← String.ofList_append, ← hsplit, utf8ByteSize_ofList, utf8ByteSize_ofList, hoffset] at hslice
  simp only [lineColumn, hline, hstart, Option.getD_some, Nat.min_eq_left hinside, hslice, Option.elim_some,
    String.length_ofList]
  rw [feedsBefore, Nat.add_comm 1, Nat.add_comm 1]

theorem lineColumn_eq_foldl (p : text.Pos) :
    lineColumn text p.offset.byteIdx = (charsBefore p).foldl advance (1, 1) := by
  rw [lineColumn_pos, foldl_advance, feedsBefore, lineBefore]

/-- Later positions have later places. -/
theorem lineColumn_lt {p q : text.Pos} (h : p < q) :
    toLex (lineColumn text p.offset.byteIdx) < toLex (lineColumn text q.offset.byteIdx) := by
  obtain ⟨between, hne, heq⟩ := exists_charsBefore_eq h
  rw [lineColumn_eq_foldl, lineColumn_eq_foldl, heq, List.foldl_append]
  exact lt_foldl_advance _ hne

/-- All offsets beyond a text have the place of its end. -/
theorem lineColumn_of_le {offset : Nat} (h : text.utf8ByteSize ≤ offset) :
    lineColumn text offset = lineColumn text text.utf8ByteSize := by
  have hline : ∀ offset, text.utf8ByteSize ≤ offset →
      partitionPoint (fun start => start ≤ offset) (lineStarts text) - 1 = text.toList.count '\n' := by
    intro offset hoffset
    rw [← byteLength_toList] at hoffset
    exact (lineStarts_append (List.append_nil _).symm hoffset fun c hc => absurd hc (Option.not_mem_none c)).1
  simp only [lineColumn, hline offset h, hline _ (Nat.le_refl _), Nat.min_eq_right h, Nat.min_self]

end Places

/-! ## Places in a file -/

namespace Source

/-- The column of a position in the file. The column of the text's start counts on its first line only. -/
def columnAt (s : Source) (p : s.text.Pos) : Nat :=
  1 + (lineBefore p).length + if feedsBefore p = 0 then s.offset.column else 0

/-- The line and column of a position in the file are words of 32 bits. -/
structure FitsWords (s : Source) (p : s.text.Pos) : Prop where
  line : s.offset.line + feedsBefore p < UInt32.size
  column : s.columnAt p < UInt32.size

variable {s : Source}

theorem location_eq (hline : 1 ≤ s.offset.line) {p : s.text.Pos} (h : s.FitsWords p) :
    s.location p.offset.byteIdx = ⟨s.path, s.offset.line + feedsBefore p, s.columnAt p⟩ := by
  have hcolumn : (if 1 + feedsBefore p = 1 then 1 + (lineBefore p).length + s.offset.column
      else 1 + (lineBefore p).length) = s.columnAt p := by
    unfold columnAt
    split <;> split <;> omega
  have hfeeds : 1 + feedsBefore p + s.offset.line - 1 = s.offset.line + feedsBefore p := by omega
  simp only [location, lineColumn_pos, hcolumn, hfeeds, word32, Nat.mod_eq_of_lt h.line, Nat.mod_eq_of_lt h.column]

theorem location_lt (hline : 1 ≤ s.offset.line) {p q : s.text.Pos} (h : p < q) (hp : s.FitsWords p)
    (hq : s.FitsWords q) : toLex ((s.location p.offset.byteIdx).line, (s.location p.offset.byteIdx).column) <
      toLex ((s.location q.offset.byteIdx).line, (s.location q.offset.byteIdx).column) := by
  have hlt := lineColumn_lt h
  rw [lineColumn_pos, lineColumn_pos, Prod.Lex.toLex_lt_toLex] at hlt
  rw [location_eq hline hp, location_eq hline hq, Prod.Lex.toLex_lt_toLex]
  dsimp only at hlt ⊢
  rcases hlt with hlt | ⟨heq, hlt⟩
  · exact .inl (by omega)
  · have hfeeds : feedsBefore p = feedsBefore q := by omega
    refine .inr ⟨by rw [hfeeds], ?_⟩
    rw [columnAt, columnAt, hfeeds]
    omega

/-- At a position of a text that starts on some line of its file, the line is that line and as many more as line feeds
come before, and the column counts the characters since the last line feed, on the first line behind the column of the
text's start. Both grow with the position, line before column. Beyond the text they are those of its end. -/
theorem location_exact (hline : 1 ≤ s.offset.line) :
    (∀ p : s.text.Pos, s.FitsWords p →
      s.location p.offset.byteIdx = ⟨s.path, s.offset.line + feedsBefore p, s.columnAt p⟩) ∧
    (∀ p q : s.text.Pos, p < q → s.FitsWords p → s.FitsWords q →
      toLex ((s.location p.offset.byteIdx).line, (s.location p.offset.byteIdx).column) <
        toLex ((s.location q.offset.byteIdx).line, (s.location q.offset.byteIdx).column)) ∧
    ∀ offset, s.text.utf8ByteSize ≤ offset → s.location offset = s.location s.text.endPos.offset.byteIdx := by
  refine ⟨fun p => location_eq hline, fun p q h => location_lt hline h, fun offset h => ?_⟩
  have hend : s.text.endPos.offset.byteIdx = s.text.utf8ByteSize := rfl
  rw [hend, location, location, lineColumn_of_le h]

/-- A text with a line feed and a character of two bytes. -/
def twoLines : Source := { path := "a.js", text := "é\nab", offset := ⟨10, 4⟩ }

theorem location_twoLines : 1 ≤ twoLines.offset.line ∧ ∃ p q : twoLines.text.Pos,
    p < q ∧ twoLines.FitsWords p ∧ twoLines.FitsWords q ∧ p.offset.byteIdx = 2 ∧ q.offset.byteIdx = 4 ∧
      twoLines.location 2 = ⟨"a.js", 10, 6⟩ ∧ twoLines.location 4 = ⟨"a.js", 11, 2⟩ ∧
      toLex ((twoLines.location 2).line, (twoLines.location 2).column) <
        toLex ((twoLines.location 4).line, (twoLines.location 4).column) := by
  have hline : 1 ≤ twoLines.offset.line := by decide
  obtain ⟨hplace, hgrows, -⟩ := location_exact hline
  let p : twoLines.text.Pos := ⟨⟨2⟩, by decide⟩
  let q : twoLines.text.Pos := ⟨⟨4⟩, by decide⟩
  have hlt : p < q := by decide
  have hp : charsBefore p = ['é'] := charsBefore_of_splits (show p.Splits "é" "\nab" from ⟨by decide, rfl⟩)
  have hq : charsBefore q = ['é', '\n', 'a'] := charsBefore_of_splits (show q.Splits "é\na" "b" from ⟨by decide, rfl⟩)
  have hpFits : twoLines.FitsWords p := by
    constructor
    · rw [feedsBefore, hp]
      decide
    · rw [columnAt, lineBefore, feedsBefore, hp]
      decide
  have hqFits : twoLines.FitsWords q := by
    constructor
    · rw [feedsBefore, hq]
      decide
    · rw [columnAt, lineBefore, feedsBefore, hq]
      decide
  have hpPlace := hplace p hpFits
  have hqPlace := hplace q hqFits
  rw [columnAt, lineBefore, feedsBefore, hp] at hpPlace
  rw [columnAt, lineBefore, feedsBefore, hq] at hqPlace
  exact ⟨hline, p, q, hlt, hpFits, hqFits, rfl, rfl, hpPlace, hqPlace, hgrows p q hlt hpFits hqFits⟩

end Source

end QueryBatch
