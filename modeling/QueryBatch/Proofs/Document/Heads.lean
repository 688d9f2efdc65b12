import QueryBatch.Proofs.Document.Searches
import QueryBatch.Proofs.Parse.Places
import QueryBatch.Proofs.Parse.Yields

/-!
# Spreads and heads of operations

In a text that is read without diagnostics no spread stands where an operation starts, and the place of a spread tells
its name.

* `Span.HasText.unique`: one word stands at a span.
* `Definition.spread_stands`: the name of a spread stands in the text, behind the start of its definition.
* `Outline.Row.eq_or_apart`: nodes in a row are the same or apart.
* `Document.headSpan_ne_spread`: the head of an operation is no name of a spread.
-/

namespace QueryBatch

variable {text : String}

/-- No two words stand at one span. -/
theorem Span.HasText.unique {span : Span} {word other : String} (h : span.HasText text word)
    (h' : span.HasText text other) : word = other := by
  obtain ⟨before, after, htext, hspan⟩ := h
  obtain ⟨before', after', htext', hspan'⟩ := h'
  obtain ⟨hstart, hstop⟩ := Span.mk.inj (hspan.symm.trans hspan')
  have hbytes : before.toByteArray ++ word.toByteArray ++ after.toByteArray =
      before'.toByteArray ++ other.toByteArray ++ after'.toByteArray := by
    simp only [← String.toByteArray_append, ← htext, ← htext']
  have hfront := ByteArray.append_inj_left hbytes (by
    simp only [ByteArray.size_append, String.size_toByteArray]
    exact hstop)
  rw [ByteArray.append_inj_left hfront (by simpa only [String.size_toByteArray] using hstart)] at hfront
  exact String.toByteArray_inj.1 ((ByteArray.append_right_inj _).1 hfront)

/-- A name is not empty. -/
theorem Token.IsName.utf8ByteSize_pos {name : String} (h : Token.IsName name) : 0 < name.utf8ByteSize := by
  obtain ⟨c, rest, hname, -⟩ := h
  refine Nat.pos_of_ne_zero fun hzero => ?_
  rw [String.utf8ByteSize_eq_zero_iff.1 hzero] at hname
  cases hname

/-! ## Spreads -/

namespace Selection

mutual

theorem spread_wellFormed {s : Spread} : ∀ x : Selection, x.WellFormed → s ∈ x.spreads → s.WellFormed
  | .group _ selections _, .group _ _ h, hs => spreadIn_wellFormed selections h hs
  | .spread _, .spread h, hs => by
    cases List.mem_singleton.1 hs
    exact h
  | .inline _ selections _, .inline _ _ h, hs => spreadIn_wellFormed selections h hs

theorem spreadIn_wellFormed {s : Spread} : ∀ selections : List Selection, (∀ x ∈ selections, x.WellFormed) →
    s ∈ spreadsIn selections → s.WellFormed
  | x :: rest, h, hs => by
    rcases List.mem_append.1 hs with hs | hs
    · exact spread_wellFormed x (h x List.mem_cons_self) hs
    · exact spreadIn_wellFormed rest (fun y hy => h y (List.mem_cons_of_mem _ hy)) hs

end

end Selection

namespace Definition

open Outline

@[simp] theorem span_outline (d : Definition) : d.outline.span = d.span := by
  cases d <;> rfl

/-- The name of a spread stands in the text, behind the start of the definition and within it. -/
theorem spread_stands {d : Definition} (h : d.outline.StandsIn text) {s : Spread} (hs : s ∈ d.body.spreads) :
    Row text (d.span.start + 1) [s.name.outline] d.span.stop := by
  have hbody : d.span.start ≤ d.body.span.start ∧ d.body.span.stop ≤ d.span.stop ∧
      d.body.outline.StandsIn text := by
    cases d with
    | operation op => exact h.2.bounds (o := op.body.outline) (by simp)
    | fragment frag => exact h.2.bounds (o := frag.body.outline) (by simp)
  obtain ⟨hstart, hstop, hset⟩ := hbody
  obtain ⟨hbehind, hwithin, hspread⟩ := (SelectionSet.row_spreads hset).bounds (List.mem_map_of_mem hs)
  have hname := hspread.2.bounds (o := s.name.outline) List.mem_cons_self
  exact Row.singleton_iff.2 ⟨Nat.le_trans (Nat.succ_le_succ hstart) (Nat.le_trans hbehind hname.1),
    Nat.le_trans hname.2.1 (Nat.le_trans hwithin hstop), hname.2.2⟩

theorem spread_wellFormed {d : Definition} (h : d.WellFormed) {s : Spread} (hs : s ∈ d.body.spreads) :
    s.WellFormed := by
  rw [SelectionSet.spreads_eq] at hs
  cases h with
  | operation hop => exact Selection.spreadIn_wellFormed _ hop.body.selections hs
  | fragment hfrag => exact Selection.spreadIn_wellFormed _ hfrag.body.selections hs

end Definition

/-! ## Nodes in a row -/

/-- Two nodes of a row are the same, or one stands behind the other. -/
theorem Outline.Row.eq_or_apart {os : List Outline} {first last : Nat} (h : Row text first os last) {o o' : Outline}
    (ho : o ∈ os) (ho' : o' ∈ os) : o = o' ∨ o.span.stop ≤ o'.span.start ∨ o'.span.stop ≤ o.span.start := by
  induction os generalizing first with
  | nil => cases ho
  | cons head rest ih =>
    obtain ⟨-, -, -, hrest⟩ := h
    rcases List.mem_cons.1 ho with rfl | hleft <;> rcases List.mem_cons.1 ho' with rfl | hright
    · exact .inl rfl
    · exact .inr (.inl (hrest.bounds hright).1)
    · exact .inr (.inr (hrest.bounds hleft).1)
    · exact ih hrest hleft hright

namespace Document

variable {limits : Parse.Limits} {d : Document} {n : Nat}

/-- The name of a spread stands in the text that its document is read from. -/
theorem hasText_of_read (h : Document.read text limits = .ok ⟨d, [], n⟩) {x : Definition} (hx : x ∈ d.definitions)
    {s : Spread} (hs : s ∈ x.body.spreads) : s.name.span.HasText text s.name.text :=
  (Definition.spread_stands ((row_of_read h).mem (List.mem_map_of_mem hx)) hs).2.2.1

/-- The head of an operation and the name of a spread of its document stand in two places. -/
theorem headSpan_ne_spread (h : Document.read text limits = .ok ⟨d, [], n⟩) {op : Operation}
    (hop : .operation op ∈ d.definitions) {x : Definition} (hx : x ∈ d.definitions) {s : Spread}
    (hs : s ∈ x.body.spreads) : op.headSpan ≠ s.name.span := by
  intro he
  have hrow : Outline.Row text 0 (d.definitions.map Definition.outline) text.utf8ByteSize := row_of_read h
  have hoperation : op.outline.StandsIn text := hrow.mem (List.mem_map_of_mem hop)
  have hordered : op.span.start ≤ op.span.stop := hoperation.fitsIn.ordered
  have hhead : s.name.span.start = op.span.start := by
    rw [← he]
    exact (Operation.headSpan_within hoperation).2.1
  have hname : s.name.span.start < s.name.span.stop := by
    have hpos := (Definition.spread_wellFormed ((wellFormed_of_read h).definitions x hx) hs).name.utf8ByteSize_pos
    have hstop := (hasText_of_read h hx hs).stop_eq
    omega
  have hspread := Definition.spread_stands (hrow.mem (List.mem_map_of_mem hx)) hs
  have hbehind : x.span.start + 1 ≤ s.name.span.start := hspread.1
  have hwithin : s.name.span.stop ≤ x.span.stop := hspread.2.1
  rcases hrow.eq_or_apart (List.mem_map_of_mem hop) (List.mem_map_of_mem hx) with hsame | happart
  · have hspan : op.span = x.span := by
      rw [← Definition.span_outline x, ← hsame]
      rfl
    rw [hspan] at hhead
    omega
  · rw [Definition.span_outline, Definition.span_outline] at happart
    have hapart : op.span.stop ≤ x.span.start ∨ x.span.stop ≤ op.span.start := happart
    omega

end Document

end QueryBatch
