import Mathlib.Data.List.DropRight
import Mathlib.Order.Bounds.Basic
import QueryBatch.Proofs.Token.Closing

/-!
# The value of a block string

The query language says step by step what the contents of a block string stand for. Each step is a relation here, and
the function that takes the step yields what is related and nothing else.

* `Replaces`: escaped delimiters replaced by quotes.
* `Splits`: the lines of a text. `IsCommonIndent`: the least indentation of lines. `Trimmed`: no blank line at an end.
* `BlockValue`: the steps together. `blockValue_iff`: they are the ones of `valueOf`.
* `BlockValue.visible_eq`: nothing but white space is lost. `BlockValue.ends`: the value has no blank line at its ends.
-/

namespace QueryBatch.Text.BlockString

/-! ## Escaped delimiters -/

/-- The second text is the first with every escaped delimiter replaced by quotes. -/
def Replaces (body raw : List Char) : Prop :=
  ∃ parts ≠ [], (∀ part ∈ parts, ¬escapedQuotes <:+: part) ∧ body = escapedQuotes.intercalate parts ∧
    raw = quotes.intercalate parts

section Replaces

variable {c : Char} {part body raw : List Char}

theorem intercalate_cons_char (sep part : List Char) (c : Char) (parts : List (List Char)) :
    sep.intercalate ((c :: part) :: parts) = c :: sep.intercalate (part :: parts) := by
  cases parts with
  | nil => rw [List.intercalate_singleton, List.intercalate_singleton]
  | cons =>
    rw [List.intercalate_cons_cons, List.intercalate_cons_cons]
    rfl

theorem prefix_intercalate (sep part : List Char) (parts : List (List Char)) :
    part <+: sep.intercalate (part :: parts) := by
  cases parts with
  | nil => rw [List.intercalate_singleton]
  | cons next parts =>
    rw [List.intercalate_cons_cons, List.append_assoc]
    exact List.prefix_append _ _

theorem Replaces.escaped (h : Replaces body raw) : Replaces (escapedQuotes ++ body) (quotes ++ raw) := by
  obtain ⟨parts, hne, hparts, rfl, rfl⟩ := h
  refine ⟨[] :: parts, List.cons_ne_nil _ _, List.forall_mem_cons.2 ⟨?_, hparts⟩, ?_, ?_⟩
  · exact fun h => absurd (List.infix_nil.1 h) (List.cons_ne_nil _ _)
  · rw [List.intercalate_cons_of_ne_nil hne, List.nil_append]
  · rw [List.intercalate_cons_of_ne_nil hne, List.nil_append]

theorem Replaces.other (hescaped : ¬escapedQuotes <+: c :: body) (h : Replaces body raw) :
    Replaces (c :: body) (c :: raw) := by
  obtain ⟨parts, hne, hparts, rfl, rfl⟩ := h
  obtain ⟨part, parts, rfl⟩ := List.exists_cons_of_ne_nil hne
  obtain ⟨hpart, hparts⟩ := List.forall_mem_cons.1 hparts
  rw [← intercalate_cons_char] at hescaped
  refine ⟨(c :: part) :: parts, List.cons_ne_nil _ _, List.forall_mem_cons.2 ⟨fun h => ?_, hparts⟩,
    (intercalate_cons_char _ _ _ _).symm, (intercalate_cons_char _ _ _ _).symm⟩
  rcases List.infix_cons_iff.1 h with h | h
  · exact hescaped (h.trans (prefix_intercalate _ _ _))
  · exact hpart h

theorem unescape_other (h : ¬escapedQuotes <+: c :: body) : unescape (c :: body) = c :: unescape body := by
  rw [unescape]
  rintro rest rfl heq
  exact h ⟨rest, congrArg _ heq.symm⟩

theorem replaces_unescape (body : List Char) : Replaces body (unescape body) := by
  fun_induction unescape body with
  | case1 rest ih => exact ih.escaped
  | case2 c rest hescaped ih =>
    refine ih.other ?_
    rintro ⟨more, h⟩
    obtain ⟨rfl, rfl⟩ := List.cons.inj h
    exact hescaped more rfl rfl
  | case3 => exact ⟨[[]], List.cons_ne_nil _ _, by decide, rfl, rfl⟩

/-- A part without escaped delimiters stays, in front of one or of nothing. -/
theorem unescape_append (hpart : ¬escapedQuotes <:+: part) {rest : List Char}
    (hrest : ∀ c, rest.head? = some c → c = '\\') : unescape (part ++ rest) = part ++ unescape rest := by
  induction part with
  | nil => rfl
  | cons c part ih =>
    rw [List.cons_append, unescape_other, ih fun h => hpart (List.infix_cons h)]
    · rfl
    · -- a delimiter that starts in the part ends there, as what follows starts with no quote
      rintro ⟨after, hsplit⟩
      rw [← List.cons_append] at hsplit
      rcases List.append_eq_append_iff.1 hsplit with ⟨w, hw, -⟩ | ⟨w, hw, rfl⟩
      · exact hpart ⟨[], w, hw.symm⟩
      · cases w with
        | nil => exact hpart ⟨[], [], by rw [hw, List.append_nil, List.append_nil]; rfl⟩
        | cons d w =>
          obtain rfl := hrest d rfl
          have hquote : '\\' ∈ quotes := by
            rw [show quotes = part ++ '\\' :: w from (List.cons.inj hw).2]
            exact List.mem_append_right part List.mem_cons_self
          exact absurd hquote (by decide)

theorem Replaces.eq_unescape (h : Replaces body raw) : raw = unescape body := by
  obtain ⟨parts, hne, hparts, rfl, rfl⟩ := h
  clear hne
  induction parts with
  | nil => rfl
  | cons part parts ih =>
    obtain ⟨hpart, hparts⟩ := List.forall_mem_cons.1 hparts
    cases parts with
    | nil =>
      have hkept : unescape (part ++ []) = part ++ [] := unescape_append hpart fun c hc => by cases hc
      rw [List.intercalate_singleton, List.intercalate_singleton]
      rw [List.append_nil] at hkept
      exact hkept.symm
    | cons next parts =>
      rw [List.intercalate_cons_cons, List.intercalate_cons_cons, List.append_assoc, List.append_assoc,
        unescape_append hpart (by rintro _ ⟨⟩; rfl), ih hparts]
      rfl

theorem replaces_iff : Replaces body raw ↔ raw = unescape body := by
  refine ⟨Replaces.eq_unescape, ?_⟩
  rintro rfl
  exact replaces_unescape body

end Replaces

/-! ## Lines -/

/-- Characters on one line. -/
def OneLine (line : List Char) : Prop := ∀ c ∈ line, c ≠ '\n' ∧ c ≠ '\r'

/-- What ends a line, in front of what follows it. A carriage return with a line feed behind it does not on its own. -/
inductive EndsLine : (w after : List Char) → Prop
  | both (after : List Char) : EndsLine ['\r', '\n'] after
  | feed (after : List Char) : EndsLine ['\n'] after
  | carriage {after : List Char} : after.head? ≠ some '\n' → EndsLine ['\r'] after

/-- Characters split into lines. -/
inductive Splits : List Char → List (List Char) → Prop
  | last {line : List Char} : OneLine line → Splits line [line]
  | next {line w rest : List Char} {ls : List (List Char)} : OneLine line → EndsLine w rest → Splits rest ls →
      Splits (line ++ (w ++ rest)) (line :: ls)

section Lines

variable {c : Char} {line cs rest : List Char} {ls more : List (List Char)}

theorem OneLine.cons (hc : c ≠ '\n' ∧ c ≠ '\r') (h : OneLine line) : OneLine (c :: line) :=
  List.forall_mem_cons.2 ⟨hc, h⟩

theorem Splits.cons (hc : c ≠ '\n' ∧ c ≠ '\r') (h : Splits cs (line :: more)) :
    Splits (c :: cs) ((c :: line) :: more) := by
  generalize hls : line :: more = ls at h
  cases h with
  | last h =>
    cases hls
    exact .last (h.cons hc)
  | next h hw hrest =>
    cases hls
    exact .next (h.cons hc) hw hrest

theorem exists_splitPairs_eq_cons (cs : List Char) : ∃ part parts, splitPairs cs = part :: parts := by
  fun_induction splitPairs cs with
  | case1 rest => exact ⟨[], splitPairs rest, rfl⟩
  | case2 c rest hpair ih =>
    obtain ⟨part, parts, h⟩ := ih
    exact ⟨c :: part, parts, by rw [h, List.modifyHead_cons]⟩
  | case3 => exact ⟨[], [], rfl⟩

theorem splitPairs_cons (hc : ∀ rest, cs = '\n' :: rest → c ≠ '\r') :
    splitPairs (c :: cs) = (splitPairs cs).modifyHead (List.cons c) := by
  rw [splitPairs]
  rintro rest rfl rfl
  exact hc rest rfl rfl

/-- A character that ends no line belongs to the first line. -/
theorem lines_cons (hc : c ≠ '\n' ∧ c ≠ '\r') (h : lines cs = line :: more) :
    lines (c :: cs) = (c :: line) :: more := by
  obtain ⟨part, parts, hparts⟩ := exists_splitPairs_eq_cons cs
  rw [lines, hparts, List.flatMap_cons] at h
  obtain ⟨own, others, hown⟩ :=
    List.exists_cons_of_ne_nil (List.splitOnP_ne_nil (fun c => c == '\n' || c == '\r') part)
  rw [hown, List.cons_append] at h
  obtain ⟨rfl, rfl⟩ := List.cons.inj h
  rw [lines, splitPairs_cons fun _ _ => hc.2, hparts, List.modifyHead_cons, List.flatMap_cons,
    List.splitOnP_cons_eq_if_modifyHead, if_neg (by simp [hc]), hown]
  rfl

/-- A character that ends a line on its own leaves an empty line. -/
theorem lines_terminator (hc : c = '\n' ∨ c = '\r') (hpair : ∀ rest, cs = '\n' :: rest → c ≠ '\r') :
    lines (c :: cs) = [] :: lines cs := by
  obtain ⟨part, parts, hparts⟩ := exists_splitPairs_eq_cons cs
  rw [lines, splitPairs_cons hpair, lines, hparts, List.modifyHead_cons, List.flatMap_cons,
    List.splitOnP_cons_eq_if_modifyHead, if_pos (by simpa using hc)]
  rfl

theorem lines_append (hline : OneLine line) (h : lines cs = [] :: more) : lines (line ++ cs) = line :: more := by
  induction line with
  | nil => exact h
  | cons c line ih =>
    obtain ⟨hc, hline⟩ := List.forall_mem_cons.1 hline
    exact lines_cons hc (ih hline)

theorem lines_endsLine {w : List Char} (h : EndsLine w rest) : lines (w ++ rest) = [] :: lines rest := by
  cases h with
  | both => rfl
  | feed => exact lines_terminator (.inl rfl) fun _ _ => by decide
  | carriage hnext =>
    refine lines_terminator (.inr rfl) fun more hmore => absurd ?_ hnext
    rw [show rest = '\n' :: more from hmore]
    rfl

theorem Splits.emptyLine {w : List Char} (hw : EndsLine w rest) (h : Splits rest ls) : Splits (w ++ rest) ([] :: ls) :=
  @Splits.next [] w rest ls (List.forall_mem_nil _) hw h

theorem splits_lines (cs : List Char) : Splits cs (lines cs) := by
  fun_induction splitPairs cs with
  | case1 rest ih => exact lines_endsLine (.both rest) ▸ ih.emptyLine (.both rest)
  | case2 c rest hpair ih =>
    by_cases hc : c = '\n' ∨ c = '\r'
    · have hends : EndsLine [c] rest := by
        rcases hc with rfl | rfl
        · exact .feed rest
        · refine .carriage fun h => ?_
          obtain ⟨more, rfl⟩ := List.head?_eq_some_iff.1 h
          exact hpair more rfl rfl
      exact lines_endsLine hends ▸ ih.emptyLine hends
    · rw [not_or] at hc
      cases hlines : lines rest with
      | nil =>
        rw [hlines] at ih
        cases ih
      | cons line more =>
        rw [hlines] at ih
        exact lines_cons hc hlines ▸ ih.cons hc
  | case3 => exact .last (List.forall_mem_nil _)

/-- Characters split into their lines only. -/
theorem splits_iff : Splits cs ls ↔ ls = lines cs := by
  constructor
  · intro h
    induction h with
    | @last line h =>
      have hlines : lines (line ++ []) = [line] := lines_append h rfl
      rw [List.append_nil] at hlines
      exact hlines.symm
    | next h hw _ ih => rw [lines_append h (lines_endsLine hw), ih]
  · rintro rfl
    exact splits_lines cs

theorem Splits.oneLine (h : Splits cs ls) : ∀ line ∈ ls, OneLine line := by
  induction h with
  | last h => exact List.forall_mem_singleton.2 h
  | next h _ _ ih => exact List.forall_mem_cons.2 ⟨h, ih⟩

end Lines

/-! ## Indentation -/

/-- Spaces and tabs. -/
def Blank (line : List Char) : Prop := ∀ c ∈ line, c = ' ' ∨ c = '\t'

/-- A line starts with `n` spaces and tabs, no more. -/
def Indented (n : Nat) (line : List Char) : Prop :=
  ∃ front rest, line = front ++ rest ∧ front.length = n ∧ Blank front ∧ ∀ c, rest.head? = some c → ¬(c = ' ' ∨ c = '\t')

/-- The least indentation of the lines that are not blank; zero if all are. -/
def IsCommonIndent (n : Nat) (ls : List (List Char)) : Prop :=
  IsLeast {k | ∃ line ∈ ls, ¬Blank line ∧ Indented k line} n ∨ (∀ line ∈ ls, Blank line) ∧ n = 0

section Indentation

variable {c : Char} {n : Nat} {line : List Char} {ls : List (List Char)}

theorem isIndent_iff : isIndent c = true ↔ c = ' ' ∨ c = '\t' := by
  simp only [isIndent, Bool.or_eq_true, beq_iff_eq]

theorem isBlankLine_iff : isBlankLine line = true ↔ Blank line := by
  simp only [isBlankLine, List.all_eq_true, isIndent_iff, Blank]

theorem byteLength_of_blank (h : Blank line) : byteLength line = line.length := by
  induction line with
  | nil => rfl
  | cons c line ih =>
    obtain ⟨hc, hline⟩ := List.forall_mem_cons.1 h
    have hsize : c.utf8Size = 1 := by rcases hc with rfl | rfl <;> rfl
    rw [byteLength, hsize, ih hline, List.length_cons, Nat.add_comm]

/-- The characters that indent a line take a byte each. -/
theorem indentOf_eq (line : List Char) : indentOf line = (line.takeWhile isIndent).length := by
  have hblank : Blank (line.takeWhile isIndent) := fun c hc => isIndent_iff.1 (List.mem_takeWhile_imp hc)
  have hsplit := byteLength_append (line.takeWhile isIndent) (line.dropWhile isIndent)
  rw [List.takeWhile_append_dropWhile, byteLength_of_blank hblank] at hsplit
  rw [indentOf, hsplit, Nat.add_sub_cancel]

theorem indented_iff : Indented n line ↔ indentOf line = n := by
  rw [indentOf_eq]
  constructor
  · rintro ⟨front, rest, rfl, rfl, hfront, hrest⟩
    rw [List.takeWhile_append_of_pos fun c hc => isIndent_iff.2 (hfront c hc)]
    cases rest with
    | nil => simp
    | cons c rest => simp [isIndent_iff, hrest c rfl]
  · rintro rfl
    refine ⟨line.takeWhile isIndent, line.dropWhile isIndent, List.takeWhile_append_dropWhile.symm, rfl,
      fun c hc => isIndent_iff.1 (List.mem_takeWhile_imp hc), fun c hc => ?_⟩
    have hhead := List.head?_dropWhile_not isIndent line
    rw [hc] at hhead
    rw [← isIndent_iff, Bool.not_eq_true]
    exact hhead

theorem mem_indents_iff : n ∈ (ls.filter fun line => !isBlankLine line).map indentOf ↔
    ∃ line ∈ ls, ¬Blank line ∧ Indented n line := by
  simp only [List.mem_map, List.mem_filter, Bool.not_eq_true', ← Bool.not_eq_true, isBlankLine_iff, indented_iff,
    and_assoc]

theorem isCommonIndent_iff : IsCommonIndent n ls ↔ n = (commonIndent ls).getD 0 := by
  rw [IsCommonIndent]
  simp only [← mem_indents_iff, commonIndent]
  cases hmin : ((ls.filter fun line => !isBlankLine line).map indentOf).min? with
  | none =>
    rw [List.min?_eq_none_iff] at hmin
    have hblank : ∀ line ∈ ls, Blank line := fun line hline => by
      by_contra hno
      have hmem := mem_indents_iff.2 ⟨line, hline, hno, indented_iff.2 rfl⟩
      rw [hmin] at hmem
      cases hmem
    rw [hmin]
    refine ⟨fun h => ?_, fun h => .inr ⟨hblank, h⟩⟩
    rcases h with ⟨hmem, -⟩ | ⟨-, h⟩
    · cases hmem
    · exact h
  | some m =>
    obtain ⟨hmem, hle⟩ := List.min?_eq_some_iff.1 hmin
    have hleast : IsLeast {k | k ∈ (ls.filter fun line => !isBlankLine line).map indentOf} m := ⟨hmem, hle⟩
    refine ⟨fun h => ?_, fun h => .inl ?_⟩
    · rcases h with h | ⟨hblank, -⟩
      · exact h.unique hleast
      · obtain ⟨line, hline, hno, -⟩ := mem_indents_iff.1 hmem
        exact absurd (hblank line hline) hno
    · rw [Option.getD_some] at h
      rwa [h]

/-- The common indentation of lines is spaces and tabs in each of them. -/
theorem IsCommonIndent.blank_take (h : IsCommonIndent n ls) (hline : line ∈ ls) : Blank (line.take n) := by
  by_cases hblank : Blank line
  · exact fun c hc => hblank c (List.mem_of_mem_take hc)
  · rcases h with ⟨-, hle⟩ | ⟨hall, -⟩
    · have hindented : Indented (indentOf line) line := indented_iff.2 rfl
      have hn : n ≤ indentOf line := hle ⟨line, hline, hblank, hindented⟩
      obtain ⟨front, rest, rfl, hlength, hfront, -⟩ := hindented
      rw [← hlength] at hn
      rw [List.take_append_of_le_length hn]
      exact fun c hc => hfront c (List.mem_of_mem_take hc)
    · exact absurd (hall line hline) hblank

theorem dropBytes?_append (front rest : List Char) : dropBytes? (byteLength front) (front ++ rest) = some rest := by
  induction front with
  | nil => cases rest <;> rfl
  | cons c front ih =>
    have hpos : 0 < c.utf8Size + byteLength front := Nat.add_pos_left c.utf8Size_pos _
    obtain ⟨n, hn⟩ := Nat.exists_eq_add_one_of_ne_zero (Nat.ne_of_gt hpos)
    rw [byteLength, List.cons_append, hn, dropBytes?, ← hn, if_pos (Nat.le_add_right _ _), Nat.add_sub_cancel_left, ih]

/-- In front of the common indentation there are single bytes, so that none of them is inside a character. -/
theorem IsCommonIndent.dropBytes?_eq (h : IsCommonIndent n ls) (hline : line ∈ ls) :
    dropBytes? (min n (byteLength line)) line = some (line.drop n) := by
  have htaken := byteLength_of_blank (h.blank_take hline)
  have hsplit := byteLength_append (line.take n) (line.drop n)
  rw [List.take_append_drop, htaken, List.length_take] at hsplit
  have hmin : min n (byteLength line) = byteLength (line.take n) := by
    rw [htaken, List.length_take]
    by_cases hn : n ≤ line.length
    · omega
    · have hnone : line.drop n = [] := List.drop_eq_nil_of_le (by omega)
      rw [hnone] at hsplit
      have hzero : byteLength [] = 0 := rfl
      omega
  have hdrop := dropBytes?_append (line.take n) (line.drop n)
  rwa [List.take_append_drop, ← hmin] at hdrop

/-- Lines lose as many characters as their common indentation has. -/
theorem dedent_cons (first : List Char) (rest : List (List Char)) :
    dedent (first :: rest) = first :: rest.map (List.drop ((commonIndent rest).getD 0)) := by
  have hindent := isCommonIndent_iff.2 (rfl : (commonIndent rest).getD 0 = _)
  rw [dedent]
  cases hcommon : commonIndent rest with
  | none => exact congrArg (List.cons first) (List.map_id rest).symm
  | some indent =>
    rw [hcommon, Option.getD_some] at hindent
    refine congrArg (List.cons first) (List.map_congr_left fun line hline => ?_)
    rw [hindent.dropBytes?_eq hline]
    rfl

end Indentation

/-! ## Blank lines at the ends -/

/-- The lines between the blank ones at both ends. -/
def Trimmed (ls inner : List (List Char)) : Prop :=
  ∃ front back, ls = front ++ (inner ++ back) ∧ (∀ line ∈ front, Blank line) ∧ (∀ line ∈ back, Blank line) ∧
    (∀ line, inner.head? = some line → ¬Blank line) ∧ ∀ line, inner.getLast? = some line → ¬Blank line

section Trimmed

variable {ls inner : List (List Char)}

theorem trimLines_eq_rdropWhile (ls : List (List Char)) :
    trimLines ls = (ls.dropWhile isBlankLine).rdropWhile isBlankLine := rfl

theorem trimmed_trimLines (ls : List (List Char)) : Trimmed ls (trimLines ls) := by
  rw [trimLines_eq_rdropWhile]
  refine ⟨ls.takeWhile isBlankLine, (ls.dropWhile isBlankLine).rtakeWhile isBlankLine, ?_,
    fun line h => isBlankLine_iff.1 (List.mem_takeWhile_imp h),
    fun line h => isBlankLine_iff.1 (List.mem_rtakeWhile_imp h), fun line h => ?_, fun line h => ?_⟩
  · rw [List.rdropWhile_append_rtakeWhile, List.takeWhile_append_dropWhile]
  · obtain ⟨more, hmore⟩ := List.head?_eq_some_iff.1 h
    obtain ⟨tail, htail⟩ := List.rdropWhile_prefix (p := isBlankLine) (ls.dropWhile isBlankLine)
    have hhead := List.head?_dropWhile_not isBlankLine ls
    rw [← htail, hmore] at hhead
    rw [← isBlankLine_iff, Bool.not_eq_true]
    exact hhead
  · obtain ⟨hne, rfl⟩ := List.mem_getLast?_eq_getLast h
    rw [← isBlankLine_iff]
    exact List.rdropWhile_last_not isBlankLine _ hne

theorem Trimmed.eq_trimLines (h : Trimmed ls inner) : inner = trimLines ls := by
  obtain ⟨front, back, rfl, hfront, hback, hhead, hlast⟩ := h
  rw [trimLines, List.dropWhile_append_of_pos fun line h => isBlankLine_iff.2 (hfront line h)]
  cases inner with
  | nil =>
    rw [List.nil_append, List.dropWhile_eq_nil_iff.2 fun line h => isBlankLine_iff.2 (hback line h)]
    rfl
  | cons first inner =>
    rw [List.cons_append, List.dropWhile_cons_of_neg fun h => hhead first rfl (isBlankLine_iff.1 h), ← List.cons_append,
      List.reverse_append,
      List.dropWhile_append_of_pos fun line h => isBlankLine_iff.2 (hback line (List.mem_reverse.1 h))]
    exact (List.rdropWhile_eq_self_iff.2 fun hne h =>
      hlast _ (List.getLast?_eq_some_getLast hne) (isBlankLine_iff.1 h)).symm

theorem trimmed_iff : Trimmed ls inner ↔ inner = trimLines ls := by
  refine ⟨Trimmed.eq_trimLines, ?_⟩
  rintro rfl
  exact trimmed_trimLines ls

end Trimmed

/-! ## The value -/

/-- What contents stand for: their lines, all but the first without the common indentation of these, without blank lines
at the ends, joined by line feeds. -/
def BlockValue (raw value : List Char) : Prop :=
  ∃ first rest indent inner, Splits raw (first :: rest) ∧ IsCommonIndent indent rest ∧
    Trimmed (first :: rest.map (List.drop indent)) inner ∧ value = ['\n'].intercalate inner

theorem blockValue_iff {raw value : List Char} :
    BlockValue raw value ↔ value = ['\n'].intercalate (trimLines (dedent (lines raw))) := by
  constructor
  · rintro ⟨first, rest, indent, inner, hsplits, hindent, htrimmed, rfl⟩
    rw [← splits_iff.1 hsplits, dedent_cons, ← isCommonIndent_iff.1 hindent, ← trimmed_iff.1 htrimmed]
  · rintro rfl
    have hsplits := splits_lines raw
    cases hlines : lines raw with
    | nil =>
      rw [hlines] at hsplits
      cases hsplits
    | cons first rest =>
      rw [hlines] at hsplits
      rw [dedent_cons]
      exact ⟨first, rest, _, _, hsplits, isCommonIndent_iff.2 rfl, trimmed_trimLines _, rfl⟩

/-- What stands between two delimiters. -/
theorem contents_quotes (body : List Char) : contents (quotes ++ (body ++ quotes)) = body := by
  have hopens : ['"', '"', '"'].isPrefixOf (quotes ++ (body ++ quotes)) = true := rfl
  have hcloses : ['"', '"', '"'].isSuffixOf (body ++ quotes) = true :=
    List.isSuffixOf_iff_suffix.2 (List.suffix_append body quotes)
  simp only [contents, hopens, if_true]
  rw [show (quotes ++ (body ++ quotes)).drop 3 = body ++ quotes from rfl, if_pos hcloses, List.length_append,
    show quotes.length = 3 from rfl, Nat.add_sub_cancel, List.take_left]

/-! ### What is kept -/

/-- The characters but spaces, tabs and line terminators. -/
def visible (cs : List Char) : List Char := cs.filter fun c => !([' ', '\t', '\n', '\r'].contains c)

section Visible

variable {n : Nat} {line raw value cs : List Char} {ls inner : List (List Char)}

theorem visible_append (cs ds : List Char) : visible (cs ++ ds) = visible cs ++ visible ds := List.filter_append cs ds

theorem visible_of_blank (h : Blank line) : visible line = [] := by
  rw [visible, List.filter_eq_nil_iff]
  intro c hc
  rcases h c hc with rfl | rfl <;> decide

theorem visible_of_endsLine {w rest : List Char} (h : EndsLine w rest) : visible w = [] := by
  cases h <;> rfl

theorem Splits.visible_eq (h : Splits cs ls) : visible cs = ls.flatMap visible := by
  induction h with
  | last => rw [List.flatMap_singleton]
  | next _ hw _ ih =>
    rw [visible_append, visible_append, visible_of_endsLine hw, ih, List.nil_append, List.flatMap_cons]

theorem visible_intercalate (ls : List (List Char)) : visible (['\n'].intercalate ls) = ls.flatMap visible := by
  induction ls with
  | nil => rfl
  | cons line ls ih =>
    cases ls with
    | nil => rw [List.intercalate_singleton, List.flatMap_singleton]
    | cons next ls =>
      rw [List.intercalate_cons_cons, visible_append, visible_append, ih, List.flatMap_cons]
      exact congrArg (· ++ _) (List.append_nil _)

theorem flatMap_visible_of_blank (h : ∀ line ∈ ls, Blank line) : ls.flatMap visible = [] :=
  List.flatMap_eq_nil_iff.2 fun line hline => visible_of_blank (h line hline)

theorem Trimmed.visible_eq (h : Trimmed ls inner) : inner.flatMap visible = ls.flatMap visible := by
  obtain ⟨front, back, rfl, hfront, hback, -⟩ := h
  rw [List.flatMap_append, List.flatMap_append, flatMap_visible_of_blank hfront, flatMap_visible_of_blank hback,
    List.nil_append, List.append_nil]

theorem IsCommonIndent.visible_eq (h : IsCommonIndent n ls) :
    (ls.map (List.drop n)).flatMap visible = ls.flatMap visible := by
  rw [List.flatMap_map]
  refine List.flatMap_congr fun line hline => ?_
  have hcut := visible_append (line.take n) (line.drop n)
  rw [List.take_append_drop, visible_of_blank (h.blank_take hline), List.nil_append] at hcut
  exact hcut.symm

/-- Nothing but spaces, tabs and line terminators is lost, and nothing is added or moved. -/
theorem BlockValue.visible_eq (h : BlockValue raw value) : visible value = visible raw := by
  obtain ⟨first, rest, indent, inner, hsplits, hindent, htrimmed, rfl⟩ := h
  calc visible (['\n'].intercalate inner)
      = inner.flatMap visible := visible_intercalate inner
    _ = visible first ++ (rest.map (List.drop indent)).flatMap visible := by rw [htrimmed.visible_eq, List.flatMap_cons]
    _ = visible raw := by rw [hindent.visible_eq, hsplits.visible_eq, List.flatMap_cons]

end Visible

/-! ### Its ends -/

section Ends

variable {line raw value : List Char} {ls inner : List (List Char)}

theorem splits_intercalate (hne : ls ≠ []) (h : ∀ line ∈ ls, OneLine line) : Splits (['\n'].intercalate ls) ls := by
  induction ls with
  | nil => exact absurd rfl hne
  | cons line ls ih =>
    obtain ⟨hline, hls⟩ := List.forall_mem_cons.1 h
    cases ls with
    | nil =>
      rw [List.intercalate_singleton]
      exact .last hline
    | cons next ls =>
      rw [List.intercalate_cons_cons, List.append_assoc]
      exact .next hline (.feed _) (ih (List.cons_ne_nil _ _) hls)

/-- The lines of a value that is not empty are the ones that were joined. -/
theorem BlockValue.exists_trimmed (h : BlockValue raw value) (hne : value ≠ []) :
    ∃ ls inner, Trimmed ls inner ∧ Splits value inner := by
  obtain ⟨first, rest, indent, inner, hsplits, -, htrimmed, rfl⟩ := h
  refine ⟨_, inner, htrimmed, splits_intercalate ?_ fun line hline => ?_⟩
  · rintro rfl
    exact hne rfl
  · obtain ⟨hfirst, hrest⟩ := List.forall_mem_cons.1 hsplits.oneLine
    obtain ⟨front, back, hls, -⟩ := htrimmed
    have hmem : line ∈ first :: rest.map (List.drop indent) := by
      rw [hls]
      exact List.mem_append_right front (List.mem_append_left back hline)
    rcases List.mem_cons.1 hmem with rfl | hmem
    · exact hfirst
    · obtain ⟨whole, hwhole, rfl⟩ := List.mem_map.1 hmem
      exact fun c hc => hrest whole hwhole c (List.mem_of_mem_drop hc)

/-- A value that is not empty has no blank line at its ends. -/
theorem BlockValue.ends (h : BlockValue raw value) (hne : value ≠ []) (hls : Splits value ls) :
    (∀ line, ls.head? = some line → ¬Blank line) ∧ ∀ line, ls.getLast? = some line → ¬Blank line := by
  obtain ⟨_, inner, ⟨_, _, -, -, -, hhead, hlast⟩, hinner⟩ := h.exists_trimmed hne
  rw [splits_iff.1 hls, ← splits_iff.1 hinner]
  exact ⟨hhead, hlast⟩

end Ends

end QueryBatch.Text.BlockString
