import Mathlib.Data.List.Flatten
import QueryBatch.Proofs.Parse.Reads
import QueryBatch.Proofs.Token.Cut
import QueryBatch.Proofs.TypeRef

/-!
# Both readers of types

* `TypeRef.SinglyMarked`: no type is marked non-null twice. `TypeRef.wellFormed_iff`: the types of the grammar are those
  with a name in them.
* `TypeRef.wellFormed_of_ofChars?`: what the reader of a type's text accepts is the text of that type and white space.
* `Finishes c p Q`: run from `c`, the parser `p` moves on to the same last token.
* `TypeRef.text_roundTrip`: both readers read the text of a type as that type, the parser from the first character to
  the last one.
-/

namespace QueryBatch

open Text Token

/-! ## White space -/

namespace Text

theorem filter_dropWhile (p : Char → Bool) (cs : List Char) :
    (cs.dropWhile p).filter (!p ·) = cs.filter (!p ·) := by
  induction cs with
  | nil => rfl
  | cons c cs ih =>
    rw [List.dropWhile_cons]
    split
    · rename_i hc
      rw [ih, List.filter_cons_of_neg (by simp [hc])]
    · rfl

/-- Trimming takes white space only. -/
theorem filter_trimBlank (cs : List Char) : (trimBlank cs).filter (!isBlank ·) = cs.filter (!isBlank ·) := by
  rw [trimBlank, trimBoth, List.filter_reverse, filter_dropWhile, List.filter_reverse, List.reverse_reverse,
    filter_dropWhile]

end Text

/-! ## The text of a type -/

namespace TypeRef

/-- No type is marked non-null twice. -/
def SinglyMarked : TypeRef → Prop
  | named _ => True
  | list item => item.SinglyMarked
  | nonNull inner => inner.isNonNull = false ∧ inner.SinglyMarked

theorem wellFormed_iff {t : TypeRef} : t.WellFormed ↔ t.SinglyMarked ∧ IsName t.baseName := by
  induction t with
  | named name => exact ⟨fun | .named hn => ⟨True.intro, hn⟩, fun h => .named h.2⟩
  | list item ih => exact ⟨fun | .list hi => ih.1 hi, fun h => .list (ih.2 h)⟩
  | nonNull inner ih =>
    exact ⟨fun | .nonNull hn hi => ⟨⟨hn, (ih.1 hi).1⟩, (ih.1 hi).2⟩, fun h => .nonNull h.1.1 (ih.2 ⟨h.1.2, h.2⟩)⟩

theorem isName_of_isName {cs : List Char} (h : isName cs = true) :
    IsName (String.ofList cs) ∧ cs.filter (!isBlank ·) = cs := by
  cases cs with
  | nil => cases h
  | cons c rest =>
    obtain ⟨hc, hrest⟩ := Bool.and_eq_true_iff.1 h
    refine ⟨⟨c, rest, String.toList_ofList, hc, hrest⟩, List.filter_eq_self.2 fun d hd => ?_⟩
    have hchar : isNameChar d = true := by
      rcases List.mem_cons.1 hd with rfl | hd
      · exact isNameChar_of_isNameStart hc
      · exact List.all_eq_true.1 hrest d hd
    rw [isBlank_of_isNameChar hchar]
    rfl

/-- Characters that stand for a type are its text, with white space in between. -/
theorem wellFormed_of_ofChars? {cs : List Char} {t : TypeRef} (h : ofChars? cs = some t) :
    t.WellFormed ∧ t.text.toList = cs.filter (!isBlank ·) := by
  fun_induction ofChars? cs generalizing t with
  | case1 => cases h
  | case2 cs trimmed hmark inner hinner hmarked =>
    rename_i ih
    cases h
    obtain ⟨hwf, htext⟩ := ih hinner
    have hsplit : trimmed = trimmed.dropLast ++ ['!'] := (List.dropLast_append_getLast? _ hmark).symm
    refine ⟨.nonNull (by simpa using hmarked) hwf, ?_⟩
    have hfilter : trimmed.filter (!isBlank ·) = cs.filter (!isBlank ·) := filter_trimBlank cs
    rw [text, String.toList_append, htext, ← hfilter, hsplit, List.dropLast_concat, List.filter_append]
    rfl
  | case3 => cases h
  | case4 cs trimmed _ hopened =>
    rename_i ih
    obtain ⟨item, hitem, rfl⟩ := Option.map_eq_some_iff.1 h
    obtain ⟨hwf, htext⟩ := ih hitem
    obtain ⟨tail, htail⟩ := List.head?_eq_some_iff.1 hopened.1
    have hsplit : trimmed = '[' :: (trimmed.tail.dropLast ++ [']']) := by
      rw [List.dropLast_append_getLast? _ hopened.2, htail]
      rfl
    refine ⟨.list hwf, ?_⟩
    have hfilter : trimmed.filter (!isBlank ·) = cs.filter (!isBlank ·) := filter_trimBlank cs
    rw [← hfilter, hsplit, List.filter_cons_of_pos (by decide), List.filter_append, ← htext]
    simp [text, isBlank, blankRanges]
  | case5 cs trimmed =>
    rename_i hname
    cases h
    have hfilter : trimmed.filter (!isBlank ·) = cs.filter (!isBlank ·) := filter_trimBlank cs
    obtain ⟨hwf, hchars⟩ := isName_of_isName hname
    exact ⟨.named hwf, by rw [text, String.toList_ofList, ← hfilter, hchars]⟩
  | case6 => cases h

end TypeRef

/-! ## Texts without trivia -/

theorem filter_eq_self_of_flatMap {α β : Type} {g : α → List β} {p : α → Bool} {items : List α}
    (hg : ∀ a ∈ items, g a ≠ []) (h : (items.filter p).flatMap g = items.flatMap g) : items.filter p = items := by
  induction items with
  | nil => rfl
  | cons a items ih =>
    obtain ⟨ha, hitems⟩ := List.forall_mem_cons.1 hg
    by_cases hp : p a
    · rw [List.filter_cons_of_pos hp, List.flatMap_cons, List.flatMap_cons, List.append_cancel_left_eq] at h
      rw [List.filter_cons_of_pos hp, ih hitems h]
    · -- what is left out is missing in the joined list
      have hle := ((List.filter_sublist (p := p) (l := items)).flatMap g).length_le
      have hpos := List.length_pos_iff.2 ha
      have hlength := congrArg List.length h
      rw [List.filter_cons_of_neg hp, List.flatMap_cons, List.length_append] at hlength
      omega

namespace Token

theorem Cuts.text_ne_nil {offset : Nat} {cs : List Char} {ts : List Token} (h : Token.Cuts offset cs ts) :
    ∀ t ∈ ts, t.text.toList ≠ [] := by
  induction h with
  | nil => exact nofun
  | cons hne _ _ ih => exact List.forall_mem_cons.2 ⟨by rwa [String.toList_ofList], ih⟩

/-- A text that is joined from its lexemes has no trivia. -/
theorem filter_scan_eq {text : String} (h : (Token.lexemes text).flatMap (fun x => x.text.toList) = text.toList) :
    (scan text).filter (fun t => !t.kind.isTrivia) = scan text := by
  have hcut := cuts_scan text
  refine filter_eq_self_of_flatMap hcut.text_ne_nil ?_
  rw [hcut.flatMap_text, ← h, lexemes, List.flatMap_map]
  rfl

/-- Tiles start where the first one starts and stop where the last one stops. -/
theorem Tiles.bounds {start stop : Nat} {ts : List Token} (h : Tiles start ts stop) :
    (ts.head?.map fun t => t.span.start).getD stop = start ∧
      (ts.getLast?.map fun t => t.span.stop).getD start = stop := by
  induction ts generalizing start with
  | nil => exact ⟨h.symm, h⟩
  | cons t ts ih =>
    refine ⟨h.1, ?_⟩
    have hlast := (ih h.2.2).2
    rw [List.getLast?_cons]
    cases hts : ts.getLast? with
    | none => rwa [hts] at hlast
    | some u => rwa [hts] at hlast

end Token

theorem TypeRef.flatMap_lexemes (t : TypeRef) : t.lexemes.flatMap (fun x => x.text.toList) = t.text.toList := by
  induction t with
  | named name => exact List.append_nil _
  | list item ih =>
    rw [TypeRef.lexemes, TypeRef.text, String.toList_append, String.toList_append, ← ih]
    simp
  | nonNull inner ih =>
    rw [TypeRef.lexemes, TypeRef.text, String.toList_append, ← ih]
    simp

/-! ## The last token -/

namespace Parse

/-- The end of the last token that is left to read, or else of the last one that was read. -/
def Cursor.lastEnd (c : Cursor) : Nat := (c.rest.getLast?.map fun t => t.span.stop).getD c.consumedEnd

/-- A parser leaves the last token where it is. What it yields and where it stops have a property. -/
def Finishes {α : Type} (c : Cursor) (p : Parse α) (Q : α → Cursor → Prop) : Prop :=
  ∀ ⦃a d⦄, p c = .ok (a, d) → d.lastEnd = c.lastEnd ∧ Q a d

namespace Finishes

variable {α β : Type} {c : Cursor} {p : Parse α} {R : α → Cursor → Prop} {Q : β → Cursor → Prop}

theorem pure {b : β} (h : Q b c) : Finishes c (Pure.pure b : Parse β) Q := by
  intro a d hr
  cases hr
  exact ⟨rfl, h⟩

theorem bind {f : α → Parse β} (hp : Finishes c p R) (hf : ∀ a d, R a d → Finishes d (f a) Q) :
    Finishes c (p >>= f) Q := by
  intro b e hr
  obtain ⟨a, d, hpc, hrun⟩ := bind_eq_ok.1 hr
  obtain ⟨hd, ha⟩ := hp hpc
  obtain ⟨he, hb⟩ := hf a d ha hrun
  exact ⟨he.trans hd, hb⟩

/-- What is yielded need not be looked at. -/
theorem andThen {f : α → Parse β} (hp : Finishes c p R) (hf : ∀ a d, Finishes d (f a) Q) :
    Finishes c (p >>= f) Q := hp.bind fun a d _ => hf a d

theorem get_bind {f : Cursor → Parse β} (h : Finishes c (f c) Q) : Finishes c (get >>= f) Q := h

theorem throw {stop : Stop} : Finishes c (throw stop : Parse β) Q := nofun

theorem done {b : β} : Finishes c (Pure.pure b : Parse β) fun _ _ => True := pure True.intro

end Finishes

section Moves

variable {c : Cursor}

theorem finishes_bump : Finishes c bump fun _ _ => True := by
  intro t d hr
  unfold bump at hr
  split at hr
  · cases hr
  · split at hr
    · rename_i t rest hrest
      cases hr
      refine ⟨?_, trivial⟩
      rw [Cursor.lastEnd, Cursor.lastEnd, hrest, List.getLast?_cons]
      cases rest.getLast? <;> rfl
    · cases hr
      exact ⟨rfl, trivial⟩

theorem finishes_eat (kind : TokenKind) : Finishes c (eat kind) fun _ _ => True := by
  refine .get_bind ?_
  split
  · exact finishes_bump.andThen fun _ _ => .done
  · exact .done

theorem finishes_reportOnceAt (start : Nat) (d : Diagnostic) : Finishes c (reportOnceAt start d) fun _ _ => True := by
  intro a e hr
  rw [reportOnceAt_run] at hr
  cases hr
  refine ⟨?_, trivial⟩
  split <;> rfl

theorem finishes_report (kind : Diagnostic.Kind) (detail : String) : Finishes c (report kind detail) fun _ _ => True :=
  .get_bind (finishes_reportOnceAt _ _)

theorem finishes_close (kind : TokenKind) (closer : String) (opened : Span) :
    Finishes c (close kind closer opened) fun _ _ => True := by
  refine (finishes_eat kind).andThen fun o d => ?_
  split
  · exact .get_bind (finishes_reportOnceAt _ _)
  · exact .done

theorem finishes_expectName : Finishes c expectName fun _ _ => True := by
  refine (finishes_eat .name).andThen fun o d => ?_
  split
  · exact .done
  · exact .get_bind ((finishes_report _ _).andThen fun _ _ => .done)

end Moves

/-- A type reaches from the next token to the last one that is read. -/
theorem finishes_typeRef {c : Cursor} (room : Nat) : Finishes c (typeRef room) fun o d => ∀ t, o = some t →
    t.2 = ⟨c.span.start, d.consumedEnd⟩ := by
  induction room generalizing c with
  | zero => exact .throw
  | succ room ih =>
    rw [typeRef]
    refine .get_bind (.get_bind ?_)
    extract_lets rest
    have hrest : ∀ inner d, Finishes d (rest inner) fun o e => ∀ t, o = some t →
        t.2 = ⟨c.span.start, e.consumedEnd⟩ := by
      intro inner d
      cases inner with
      | none => exact .pure fun t ht => absurd ht (Option.some_ne_none t).symm
      | some type =>
        refine (finishes_eat .bang).andThen fun mark e => .get_bind (.pure ?_)
        rintro _ ⟨⟩
        rfl
    split
    · exact finishes_bump.andThen fun opened _ => ih.andThen fun item _ => (finishes_close _ _ _).andThen fun _ _ =>
        hrest _ _
    · exact finishes_expectName.andThen fun name _ => hrest _ _
    · exact .get_bind ((finishes_report _ _).andThen fun _ _ => hrest none _)

/-- At the start of a text without trivia, the first token starts and the last one ends where the text does. -/
theorem Cursor.bounds_ofText {text : String} (allowance : Option Nat)
    (h : (Token.lexemes text).flatMap (fun x => x.text.toList) = text.toList) :
    (Cursor.ofText text allowance).span.start = 0 ∧ (Cursor.ofText text allowance).lastEnd = text.utf8ByteSize := by
  have htiles := (cuts_scan text).tiles
  rw [Nat.zero_add, byteLength_toList] at htiles
  obtain ⟨hfirst, hlast⟩ := htiles.bounds
  have hrest : (Cursor.ofText text allowance).rest = scan text := filter_scan_eq h
  constructor
  · unfold Cursor.span
    rw [hrest]
    cases hscan : scan text with
    | nil => rwa [hscan] at hfirst
    | cons t ts => rwa [hscan] at hfirst
  · rw [Cursor.lastEnd, hrest]
    exact hlast

end Parse

/-- The text of a well-formed type is read without diagnostics as that type, which reaches over the whole text. -/
theorem TypeRef.WellFormed.read_text {t : TypeRef} (h : t.WellFormed) : ∃ final,
    Parse.typeRef ((Parse.Cursor.ofText t.text none).roomFor none) (.ofText t.text none) =
      .ok (some (t, ⟨0, t.text.utf8ByteSize⟩), final) ∧ final.rest = [] ∧ final.reports = [] := by
  have hlexes : Lexes t.text.toList t.lexemes := by simpa using h.prints breaks_nil Lexes.nil
  have hlexemes : Token.lexemes t.text = t.lexemes := bare_scan hlexes
  have hshows : (Parse.Cursor.ofText t.text none).Shows (t.lexemes ++ []) := by
    rw [List.append_nil, ← hlexemes]
    exact Parse.Cursor.shows_ofText t.text fun _ hk => absurd hk (Option.not_mem_none _)
  have hroom : t.nesting ≤ (Parse.Cursor.ofText t.text none).roomFor none := by
    have hlength := hshows.length
    have hnesting := t.nesting_le_length
    rw [List.append_nil] at hlength
    rw [Parse.Cursor.roomFor, Option.getD_none]
    omega
  have hend : Parse.Avoids [.bang] [] := fun _ hx => by cases hx
  obtain ⟨_, final, hrun, hdone, hreports, span, rfl⟩ := Parse.reads_typeRef h hroom hend (.ofText t.text none) hshows
  have hnone : final.rest = [] := List.map_eq_nil_iff.1 hdone.rest
  obtain ⟨hkept, hspan⟩ := Parse.finishes_typeRef _ hrun
  have hjoin : (Token.lexemes t.text).flatMap (fun x => x.text.toList) = t.text.toList := by
    rw [hlexemes, t.flatMap_lexemes]
  obtain ⟨hstart, hlast⟩ := Parse.Cursor.bounds_ofText none hjoin
  have hstop : final.consumedEnd = t.text.utf8ByteSize := by
    rw [← hlast, ← hkept, Parse.Cursor.lastEnd, hnone]
    rfl
  have hwhole : span = ⟨0, t.text.utf8ByteSize⟩ := (hspan _ rfl).trans (by rw [hstart, hstop])
  exact ⟨final, hwhole ▸ hrun, hnone, hreports⟩

/-- The text of a type that is marked at most once at each place, with a name in it, is read as that type by both
readers. The parser reads it to the end, without diagnostics, and the type reaches over the whole text. What the reader
of texts accepts is such a type, and its text is what was read without its white space. -/
theorem TypeRef.text_roundTrip :
    (∀ t : TypeRef, t.SinglyMarked → IsName t.baseName → ofText? t.text = some t ∧ ∃ final,
      Parse.typeRef ((Parse.Cursor.ofText t.text none).roomFor none) (.ofText t.text none) =
        .ok (some (t, ⟨0, t.text.utf8ByteSize⟩), final) ∧ final.rest = [] ∧ final.reports = []) ∧
    ∀ (s : String) (t : TypeRef), ofText? s = some t →
      t.SinglyMarked ∧ IsName t.baseName ∧ t.text.toList = s.toList.filter (!isBlank ·) := by
  refine ⟨fun t hmarked hname => ?_, fun s t h => ?_⟩
  · have hwf : t.WellFormed := wellFormed_iff.2 ⟨hmarked, hname⟩
    exact ⟨hwf.ofText?_text, hwf.read_text⟩
  · obtain ⟨hwf, htext⟩ := wellFormed_of_ofChars? h
    obtain ⟨hmarked, hname⟩ := wellFormed_iff.1 hwf
    exact ⟨hmarked, hname, htext⟩

/-- A list of integers, and its text with white space between all parts. -/
theorem TypeRef.text_listOfIntegers :
    ofText? "[Int!]!" = some (.nonNull (.list (.nonNull (.named "Int")))) ∧
    "[Int!]!".toList = "\t[ Int !]\u00a0! ".toList.filter (!isBlank ·) :=
  ⟨(text_roundTrip.1 (.nonNull (.list (.nonNull (.named "Int")))) ⟨rfl, rfl, trivial⟩ (by decide)).1,
    (text_roundTrip.2 "\t[ Int !]\u00a0! " (.nonNull (.list (.nonNull (.named "Int")))) (by decide +kernel)).2.2⟩

end QueryBatch
