import QueryBatch.Proofs.Document.Outline
import QueryBatch.Proofs.Parse.Yields

/-!
# Where a parse places what it yields

Whatever a parse reports, the nodes that it yields stand in the text: a node reaches from the first of its tokens to
the last token that was read, and the nodes inside it were read in between, one after the other.

* `Cursor.Laid`: a cursor over tokens that stand in a text, behind what is read.
* `Cursor.Onward`: such a cursor that stands no further to the front than another one.
* `Places text c p Q`: run from such a cursor `c`, the parser `p` goes onward to a cursor that has the property `Q`
  along with what is yielded.
* `Between`: a row of nodes from the next token of one cursor to the last token read before another one.
* `places_value`, `placesSet_selectionSet`, `places_definition`, …: what each parser yields stands in such a row.
* `Document.outline_of_read`: so do the definitions of a document in the text that it is read from.
-/

namespace QueryBatch.Parse

open Token

/-- A cursor over the tokens of a text that are not read yet. -/
structure Cursor.Laid (text : String) (c : Cursor) : Prop where
  tokens : Token.Laid text c.rest
  behind : ∀ t ∈ c.rest, c.consumedEnd ≤ t.span.start
  consumed : (⟨c.consumedEnd⟩ : String.Pos.Raw).IsValid text
  textEnd : c.textEnd = text.utf8ByteSize
  signs : ∀ t ∈ c.rest, ∀ s, t.kind.sign? = some s → t.text = s

/-- A cursor over the tokens of a text that stands no further to the front than another one. -/
structure Cursor.Onward (text : String) (c d : Cursor) : Prop where
  laid : d.Laid text
  consumedEnd_le : c.consumedEnd ≤ d.consumedEnd
  start_le : c.span.start ≤ d.span.start

/-- A parser goes onward from a cursor over the tokens of a text. What it yields and where it stops have a property. -/
def Places {α : Type} (text : String) (c : Cursor) (p : Parse α) (Q : α → Cursor → Prop) : Prop :=
  c.Laid text → ∀ ⦃a d⦄, p c = .ok (a, d) → c.Onward text d ∧ Q a d

/-- Nodes in a row from the next token of one cursor to the last token that was read before another one. -/
def Between (text : String) (c d : Cursor) (os : List Outline) : Prop :=
  Outline.Row text c.span.start os d.consumedEnd

/-! ## Cursors -/

section Cursors

variable {text : String} {c d e : Cursor}

theorem Cursor.span_eq {t : Token} {rest : List Token} (h : c.rest = t :: rest) : c.span = t.span := by
  simp only [Cursor.span, h]

/-- The next token, or the end of the text, stands behind what is read. -/
theorem Cursor.Laid.consumedEnd_le (h : c.Laid text) : c.consumedEnd ≤ c.span.start := by
  cases hrest : c.rest with
  | nil =>
    simp only [Cursor.span, hrest, Span.emptyAt, h.textEnd]
    exact h.consumed.le_utf8ByteSize
  | cons t rest =>
    rw [Cursor.span_eq hrest]
    exact h.behind t (hrest ▸ List.mem_cons_self)

theorem Cursor.Laid.start_valid (h : c.Laid text) : (⟨c.span.start⟩ : String.Pos.Raw).IsValid text := by
  cases hrest : c.rest with
  | nil =>
    simp only [Cursor.span, hrest, Span.emptyAt, h.textEnd]
    exact String.Pos.Raw.isValid_rawEndPos
  | cons t rest =>
    rw [Cursor.span_eq hrest]
    exact (h.tokens.fits t (hrest ▸ List.mem_cons_self)).span.start

theorem Cursor.Onward.refl (h : c.Laid text) : c.Onward text c := ⟨h, Nat.le_refl _, Nat.le_refl _⟩

theorem Cursor.Onward.trans (h : c.Onward text d) (h' : d.Onward text e) : c.Onward text e :=
  ⟨h'.laid, Nat.le_trans h.consumedEnd_le h'.consumedEnd_le, Nat.le_trans h.start_le h'.start_le⟩

end Cursors

/-! ## Rows between cursors -/

namespace Between

variable {text : String} {c d e : Cursor} {os os' : List Outline} {o o' : Outline}

theorem nil : Between text c d [] := Outline.Row.nil

/-- Nothing was read in front of the row. -/
theorem behind (h : Between text d e os) (hcd : c.Onward text d) : Between text c e os :=
  h.mono hcd.start_le (Nat.le_refl _)

/-- Nothing was read behind the row. -/
theorem onward (h : Between text c d os) (hde : d.Onward text e) : Between text c e os :=
  h.mono (Nat.le_refl _) hde.consumedEnd_le

theorem append (h : Between text c d os) (hcd : c.Onward text d) (hde : d.Onward text e)
    (h' : Between text d e os') : Between text c e (os ++ os') :=
  Outline.Row.append h h' hcd.start_le hcd.laid.consumedEnd_le hde.consumedEnd_le

theorem bounds (h : Between text c d [o]) :
    c.span.start ≤ o.span.start ∧ o.span.stop ≤ d.consumedEnd ∧ o.StandsIn text := Outline.Row.singleton_iff.1 h

/-- A token was read between the two cursors. -/
theorem start_le (h : Between text c d [o]) : c.span.start ≤ d.consumedEnd :=
  Nat.le_trans h.bounds.1 (Nat.le_trans h.bounds.2.2.fitsIn.ordered h.bounds.2.1)

theorem fitsIn (hc : c.Laid text) (hd : d.Laid text) (hle : c.span.start ≤ d.consumedEnd) :
    Span.FitsIn ⟨c.span.start, d.consumedEnd⟩ text := .of_valid hle hc.start_valid hd.consumed

/-- A row in a node from the next token of the one cursor to the last token read before the other one. -/
theorem node (h : Between text c d os) (hc : c.Laid text) (hd : d.Laid text) (hle : c.span.start ≤ d.consumedEnd) :
    Between text c d [.node ⟨c.span.start, d.consumedEnd⟩ os] := Outline.Row.node h (fitsIn hc hd hle)

end Between

/-! ## Rules -/

namespace Places

variable {α β : Type} {text : String} {c : Cursor} {p : Parse α} {R : α → Cursor → Prop} {Q : β → Cursor → Prop}

theorem pure {b : β} (h : Q b c) : Places text c (Pure.pure b : Parse β) Q := by
  intro hl a d hr
  cases hr
  exact ⟨.refl hl, h⟩

theorem bind {f : α → Parse β} (hp : Places text c p R)
    (hf : ∀ a d, c.Onward text d → R a d → Places text d (f a) Q) : Places text c (p >>= f) Q := by
  intro hl b e hr
  obtain ⟨a, d, hpc, hrun⟩ := bind_eq_ok.1 hr
  obtain ⟨hcd, ha⟩ := hp hl hpc
  obtain ⟨hde, hb⟩ := hf a d hcd ha hcd.laid hrun
  exact ⟨hcd.trans hde, hb⟩

theorem get_bind {f : Cursor → Parse β} (h : Places text c (f c) Q) : Places text c (get >>= f) Q := h

theorem throw {stop : Stop} : Places text c (throw stop : Parse β) Q := nofun

/-- What is known of the cursor may be used. -/
theorem of_laid (h : c.Laid text → Places text c p R) : Places text c p R := fun hl => h hl hl

theorem imp {R' : α → Cursor → Prop} (h : Places text c p R) (hR : ∀ a d, c.Onward text d → R a d → R' a d) :
    Places text c p R' := by
  intro hl a d hr
  obtain ⟨hcd, ha⟩ := h hl hr
  exact ⟨hcd, hR a d hcd ha⟩

theorem trivial (h : Places text c p R) : Places text c p fun _ _ => True := h.imp fun _ _ _ _ => True.intro

/-- A parser that yields nothing ends another one that has nothing to show. -/
theorem andThen {f : α → Parse β} (hp : Places text c p R) (hf : ∀ a d, Places text d (f a) Q) :
    Places text c (p >>= f) Q := hp.bind fun a d _ _ => hf a d

/-- Where nothing is yielded, there is nothing to show of it. -/
theorem none {P : β → Cursor → Prop} :
    Places text c (Pure.pure .none : Parse (Option β)) fun o d => ∀ b, o = some b → P b d :=
  .pure fun _ h => absurd h (Option.some_ne_none _).symm

end Places

/-! ## Moves -/

section Moves

variable {text : String} {c : Cursor}

/-- What is known once the next token is read. -/
structure Cursor.Took (text : String) (c : Cursor) (t : Token) (d : Cursor) : Prop where
  kind : c.kind? = some t.kind
  text_eq : t.text = c.text
  span : t.span = c.span
  stop : d.consumedEnd = c.span.stop
  fits : t.FitsIn text
  sign : ∀ s, t.kind.sign? = some s → t.text = s

namespace Cursor.Took

variable {t : Token} {d : Cursor}

theorem kind_eq {kind : TokenKind} (h : c.Took text t d) (hk : c.kind? = some kind) : t.kind = kind :=
  Option.some.inj (h.kind.symm.trans hk)

theorem start_le (h : c.Took text t d) : c.span.start ≤ d.consumedEnd := by
  rw [h.stop, ← h.span]
  exact h.fits.span.ordered

/-- The token is a node of its own. -/
theorem node (h : c.Took text t d) : Between text c d [.node t.span []] :=
  Outline.Row.singleton_iff.2 ⟨Nat.le_of_eq (by rw [← h.span]; rfl), Nat.le_of_eq (by rw [h.stop, ← h.span]; rfl),
    h.fits.span, trivial⟩

/-- The token is a word of its own, unless it is garbage. -/
theorem word (h : c.Took text t d) (hk : t.kind ≠ .garbage) : Between text c d [.word t.text t.span] :=
  Outline.Row.singleton_iff.2 ⟨Nat.le_of_eq (by rw [← h.span]; rfl), Nat.le_of_eq (by rw [h.stop, ← h.span]; rfl),
    h.fits.hasText hk⟩

/-- A word whose text is known ends where its text ends. -/
theorem word_of_text {word : String} (h : c.Took text t d) (hk : t.kind ≠ .garbage) (hword : t.text = word) :
    Between text c d [.word word ⟨c.span.start, c.span.start + word.utf8ByteSize⟩] := by
  have hnode := h.word hk
  have hstop := Span.HasText.stop_eq hnode.bounds.2.2
  have hspan : t.span = ⟨c.span.start, c.span.start + word.utf8ByteSize⟩ := by
    rw [← h.span, ← hword, ← hstop]
  rwa [hspan, hword] at hnode

end Cursor.Took

theorem places_bump : Places text c bump fun t d => c.rest ≠ [] → c.Took text t d := by
  intro hl t d hr
  simp only [bump] at hr
  split at hr
  · cases hr
  · split at hr
    · rename_i u rest hrest
      cases hr
      have ht : t ∈ c.rest := hrest ▸ List.mem_cons_self
      have hsub : ∀ u ∈ rest, u ∈ c.rest := fun u hu => hrest ▸ List.mem_cons_of_mem _ hu
      have hlaid : Token.Laid text (t :: rest) := hrest ▸ hl.tokens
      have hfits := hl.tokens.fits t ht
      have hnext : Cursor.Laid text { c with rest, steps := c.steps + 1, consumedEnd := t.span.stop } :=
        ⟨hlaid.tail, (List.pairwise_cons.1 hlaid.ordered).1, hfits.span.stop, hl.textEnd,
          fun u hu => hl.signs u (hsub u hu)⟩
      have hspan := Cursor.span_eq hrest
      refine ⟨⟨hnext, Nat.le_trans (hl.behind t ht) hfits.span.ordered, ?_⟩, fun _ =>
        ⟨by simp [Cursor.kind?, hrest], by simp [Cursor.text, hrest], hspan.symm, by rw [hspan], hfits, hl.signs t ht⟩⟩
      rw [hspan]
      exact Nat.le_trans hfits.span.ordered hnext.consumedEnd_le
    · rename_i hrest
      cases hr
      exact ⟨⟨⟨hl.tokens, hl.behind, hl.consumed, hl.textEnd, hl.signs⟩, Nat.le_refl _, Nat.le_refl _⟩,
        fun hne => absurd hrest hne⟩

theorem places_skip : Places text c skip fun _ d => c.rest ≠ [] → c.span.start ≤ d.consumedEnd :=
  places_bump.bind fun _ _ _ ht => .pure fun hne => (ht hne).start_le

/-- The span up to the last token read, from a place where a cursor stood before. -/
theorem places_spanFrom (start : Nat) : Places text c (spanFrom start) fun span d => span = ⟨start, d.consumedEnd⟩ :=
  .get_bind (.pure rfl)

theorem places_eat (kind : TokenKind) : Places text c (eat kind) fun o d => ∀ t, o = some t →
    t.kind = kind ∧ c.Took text t d := by
  refine .get_bind ?_
  split
  · rename_i h
    have hk := Cursor.isAt_iff.1 h
    refine places_bump.bind fun t d _ ht => .pure fun u hu => ?_
    cases hu
    have ht := ht (Cursor.rest_ne_nil_of_kind? hk)
    exact ⟨ht.kind_eq hk, ht⟩
  · exact .none

theorem places_eatWord (word : String) : Places text c (eatWord word) fun _ _ => True := by
  refine .get_bind ?_
  split
  · exact places_bump.andThen fun _ _ => .pure trivial
  · exact .pure trivial

/-! ## Reports -/

/-- Nothing was read between two cursors. -/
def Cursor.Still (c d : Cursor) : Prop := d.rest = c.rest ∧ d.consumedEnd = c.consumedEnd

/-- A report reads nothing. -/
theorem places_reportOnceAt (start : Nat) (d : Diagnostic) :
    Places text c (reportOnceAt start d) fun _ e => c.Still e := by
  intro hl a e hr
  rw [reportOnceAt_run] at hr
  cases hr
  split
  · exact ⟨.refl hl, rfl, rfl⟩
  · exact ⟨⟨⟨hl.tokens, hl.behind, hl.consumed, hl.textEnd, hl.signs⟩, Nat.le_refl _, Nat.le_refl _⟩, rfl, rfl⟩

theorem places_reportHere (kind : Diagnostic.Kind) : Places text c (reportHere kind) fun _ d => c.Still d :=
  .get_bind (places_reportOnceAt _ _)

theorem places_reportAt (kind : Diagnostic.Kind) (span : Span) (detail : String) :
    Places text c (reportAt kind span detail) fun _ d => c.Still d := places_reportOnceAt _ _

theorem places_report (kind : Diagnostic.Kind) (detail : String) :
    Places text c (report kind detail) fun _ d => c.Still d := .get_bind (places_reportAt _ _ _)

theorem places_reportAndSkip (kind : Diagnostic.Kind) (detail : String) :
    Places text c (reportAndSkip kind detail) fun _ _ => True :=
  (places_report kind detail).andThen fun _ _ => places_skip.trivial

theorem places_reportUnclosed (closer : String) (opened : Span) :
    Places text c (reportUnclosed closer opened) fun _ d => c.Still d := .get_bind (places_reportOnceAt _ _)

/-! ## Expectations -/

theorem places_expect (kind : TokenKind) : Places text c (expect kind) fun o d => ∀ t, o = some t →
    t.kind = kind ∧ c.Took text t d := by
  refine (places_eat kind).bind fun o d _ ho => ?_
  split
  · exact .pure ho
  · exact .get_bind ((places_report _ _).andThen fun _ _ => .none)

theorem places_expectWord (word : String) : Places text c (expectWord word) fun _ _ => True := by
  refine (places_eatWord word).andThen fun o d => ?_
  split
  · exact .pure trivial
  · exact .get_bind ((places_report _ _).andThen fun _ _ => .pure trivial)

/-- A name stands where the next token stands. -/
theorem places_expectName : Places text c expectName fun o d => ∀ name, o = some name →
    Between text c d [name.outline] ∧ name.span.start = c.span.start := by
  refine (places_eat .name).bind fun o d _ ho => ?_
  split
  · rename_i t
    refine .pure fun name hname => ?_
    cases hname
    obtain ⟨hk, ht⟩ := ho t rfl
    exact ⟨ht.word (by rw [hk]; decide), congrArg Span.start ht.span⟩
  · exact .get_bind ((places_report _ _).andThen fun _ _ => .none)

theorem places_close (kind : TokenKind) (closer : String) (opened : Span) :
    Places text c (close kind closer opened) fun _ _ => True := by
  refine (places_eat kind).andThen fun o d => ?_
  split
  · exact (places_reportUnclosed _ _).trivial
  · exact .pure trivial

/-! ## Rounds -/

section Rounds

variable {α : Type} {more : Cursor → Bool} {step : Parse (Option α)} {g : α → List Outline}

theorem places_collectRounds
    (h : ∀ c, more c = true → Places text c step fun o d => ∀ a, o = some a → Between text c d (g a))
    (rounds : Nat) (found : List α) :
    Places text c (collectRounds more step rounds found) fun items d =>
      ∃ new, items = found.reverse ++ new ∧ Between text c d (new.flatMap g) := by
  induction rounds generalizing c found with
  | zero => exact .throw
  | succ rounds ih =>
    refine .get_bind ?_
    split
    · rename_i hmore
      refine (h c hmore).bind fun o d hcd ho => ?_
      cases o with
      | none =>
        refine (ih found).imp fun items e _ hitems => ?_
        obtain ⟨new, rfl, hnew⟩ := hitems
        exact ⟨new, rfl, hnew.behind hcd⟩
      | some a =>
        refine (ih (a :: found)).imp fun items e hde hitems => ?_
        obtain ⟨new, rfl, hnew⟩ := hitems
        exact ⟨a :: new, by simp, (ho a rfl).append hcd hde hnew⟩
    · exact .pure ⟨[], (List.append_nil _).symm, .nil⟩

/-- The items that are collected stand one behind the other. -/
theorem places_collect
    (h : ∀ c, more c = true → Places text c step fun o d => ∀ a, o = some a → Between text c d (g a)) :
    Places text c (collect more step) fun items d => Between text c d (items.flatMap g) := by
  refine .get_bind ((places_collectRounds h _ []).imp fun items d _ hitems => ?_)
  obtain ⟨new, rfl, hnew⟩ := hitems
  exact hnew

/-- Items that are one node each. -/
theorem places_collectNodes {g : α → Outline}
    (h : ∀ c, more c = true → Places text c step fun o d => ∀ a, o = some a → Between text c d [g a]) :
    Places text c (collect more step) fun items d => Between text c d (items.map g) :=
  (places_collect h).imp fun items _ _ hitems => by rwa [← List.map_eq_flatMap] at hitems

theorem places_skipWhile (more : Cursor → Bool) : Places text c (skipWhile more) fun _ _ => True := by
  have hstep : ∀ c, more c = true → Places text c skipped fun o d =>
      ∀ a, o = some a → Between text c d [] := fun _ _ => places_skip.andThen fun _ _ => .none
  exact (places_collect hstep).andThen fun _ _ => .pure trivial

end Rounds

end Moves

section Nodes

variable {text : String} {c : Cursor}

/-! ## Types and values -/

theorem places_typeRef (room : Nat) : Places text c (typeRef room) fun o d => ∀ t, o = some t →
    Between text c d [t.1.outline t.2] := by
  induction room generalizing c with
  | zero => exact .throw
  | succ room ih =>
    rw [typeRef]
    refine .of_laid fun hl => .get_bind (.get_bind ?_)
    extract_lets rest
    have hrest : ∀ inner d, c.Onward text d → (∀ type, inner = some type → c.span.start ≤ d.consumedEnd ∧
        Between text c d (TypeRef.nameOutlines type c.span.start)) → Places text d (rest inner) fun o e =>
          ∀ t, o = some t → Between text c e [t.1.outline t.2] := by
      intro inner d hcd hinner
      cases inner with
      | none => exact .none
      | some type =>
        obtain ⟨hle, hname⟩ := hinner type rfl
        refine (places_eat .bang).bind fun mark e hde _ => (places_spanFrom _).bind fun span f hef hspan =>
          .pure fun t ht => ?_
        cases ht
        subst hspan
        have hnode := (hname.onward (hde.trans hef)).node hl hef.laid
          (Nat.le_trans hle (Nat.le_trans hde.consumedEnd_le hef.consumedEnd_le))
        dsimp only
        split
        · rwa [TypeRef.outline, TypeRef.nameOutlines_required]
        · exact hnode
    split
    · rename_i hk
      refine places_bump.bind fun opened d h1 ht => ih.bind fun item e h2 _ => (places_close _ _ _).bind
        fun _ f h3 _ => hrest _ _ ((h1.trans h2).trans h3) fun type htype => ?_
      obtain ⟨x, -, rfl⟩ := Option.map_eq_some_iff.1 htype
      have hle := (ht (Cursor.rest_ne_nil_of_kind? hk)).start_le
      exact ⟨Nat.le_trans hle (Nat.le_trans h2.consumedEnd_le h3.consumedEnd_le), .nil⟩
    · refine places_expectName.bind fun name d h1 hname => hrest _ _ h1 fun type htype => ?_
      obtain ⟨n, hn, rfl⟩ := Option.map_eq_some_iff.1 htype
      obtain ⟨hbetween, hstart⟩ := hname n hn
      refine ⟨hbetween.start_le, ?_⟩
      have hspan : n.span = ⟨c.span.start, c.span.start + n.text.utf8ByteSize⟩ := by
        rw [← hstart, ← Span.HasText.stop_eq hbetween.bounds.2.2]
      rw [Name.outline, hspan] at hbetween
      exact hbetween
    · exact .get_bind ((places_report _ _).bind fun _ d h1 _ => hrest none d h1 of_none_eq_some)

/-- The span of a variable reaches from the dollar sign to the end of the name. -/
theorem places_variableName : Places text c variableName fun o d => ∀ name, o = some name →
    Between text c d [.node name.span []] ∧ name.span.start = c.span.start := by
  refine (places_expect .dollar).bind fun o d h1 ho => ?_
  split
  · rename_i dollar
    refine places_expectName.bind fun o e h2 hname => ?_
    split
    · rename_i name
      refine .pure fun n hn => ?_
      cases hn
      obtain ⟨-, ht⟩ := ho dollar rfl
      obtain ⟨hstart, hstop, hname⟩ := (hname name rfl).1.bounds
      have hfits := Name.fitsIn_of_stands hname
      have hle : dollar.span.start ≤ name.span.stop := Nat.le_trans (Nat.le_of_eq (by rw [ht.span]))
        (Nat.le_trans h1.start_le (Nat.le_trans hstart hfits.ordered))
      exact ⟨Outline.Row.singleton_iff.2 ⟨Nat.le_of_eq (by rw [← ht.span]; rfl), hstop,
        ht.fits.span.join hfits hle, trivial⟩, by rw [← ht.span]⟩
    · exact .none
  · exact .none

theorem outline_wordValue (t : Token) : (wordValue t).outline = .word t.text t.span := by
  unfold wordValue
  split
  · rename_i h
    rw [h]
    rfl
  · split
    · rename_i h
      rw [h]
      rfl
    · split
      · rename_i h
        rw [h]
        rfl
      · rfl

theorem places_stringValue (t : Token) : Places text c (stringValue t) fun v _ => v.outline = .node t.span [] := by
  unfold stringValue
  split
  · exact .pure rfl
  · exact (places_reportAt _ _ _).andThen fun _ _ => .pure rfl

/-- A value of one token, placed as a word. -/
theorem places_wordToken {kind : TokenKind} {f : Token → Value} (hk : c.kind? = some kind) (hkind : kind ≠ .garbage)
    (hf : ∀ t, (f t).outline = .word t.text t.span) :
    Places text c (do return some (f (← bump))) fun o d => ∀ v, o = some v → Between text c d [v.outline] := by
  refine places_bump.bind fun t d _ ht => .pure fun v hv => ?_
  cases hv
  have ht := ht (Cursor.rest_ne_nil_of_kind? hk)
  rw [hf]
  exact ht.word (by rwa [ht.kind_eq hk])

/-- A value that reaches from its opening token to the last one read, with items in a row inside. -/
theorem places_enclosed {α : Type} {more : Cursor → Bool} {step : Parse (Option α)} {g : α → List Outline}
    {f : List α → Span → Value} {kind : TokenKind} {closer : String} (hc : c.rest ≠ [])
    (hf : ∀ items span, (f items span).outline = .node span (items.flatMap g))
    (h : ∀ c, Places text c step fun o d => ∀ a, o = some a → Between text c d (g a)) :
    Places text c (do
        let opened ← bump
        let items ← collect more step
        close kind closer opened.span
        return some (f items (← spanFrom c.span.start))) fun o d => ∀ v, o = some v → Between text c d [v.outline] := by
  refine .of_laid fun hl => places_bump.bind fun opened d h1 ht => (places_collect fun c _ => h c).bind
    fun items e h2 hitems => (places_close _ _ _).bind fun _ f h3 _ => (places_spanFrom _).bind
      fun span g h4 hspan => .pure fun v hv => ?_
  cases hv
  subst hspan
  have hrest := h2.trans (h3.trans h4)
  rw [hf]
  exact ((hitems.behind h1).onward (h3.trans h4)).node hl (h1.trans hrest).laid
    (Nat.le_trans (ht hc).start_le hrest.consumedEnd_le)

variable {given : Parse (Option Value)}

theorem places_listItem
    (hgiven : ∀ c, Places text c given fun o d => ∀ v, o = some v → Between text c d [v.outline]) :
    Places text c (listItem given) fun o d => ∀ v, o = some v → Between text c d [v.outline] := by
  refine (hgiven c).bind fun o d _ ho => ?_
  split
  · rename_i item
    refine .pure fun a ha => ?_
    cases ha
    exact ho item rfl
  · refine .get_bind ?_
    split
    · exact places_skip.andThen fun _ _ => .none
    · exact .none

theorem places_objectField
    (hgiven : ∀ c, Places text c given fun o d => ∀ v, o = some v → Between text c d [v.outline]) :
    Places text c (objectField given) fun o d =>
      ∀ f : Name × Value, o = some f → Between text c d [f.1.outline, f.2.outline] := by
  refine places_expectName.bind fun o d1 o1 ho => ?_
  split
  · rename_i name
    refine (places_expect _).bind fun o d2 o2 _ => ?_
    split
    · refine (hgiven d2).bind fun o d3 o3 hvalue => ?_
      split
      · rename_i field
        refine .pure fun x hx => ?_
        cases hx
        exact ((ho name rfl).1.onward o2).append (o1.trans o2) o3 (hvalue field rfl)
      · exact .none
    · exact .none
  · exact places_skip.andThen fun _ _ => .none

theorem places_value (isConst : Bool) (room : Nat) :
    Places text c (value isConst room) fun o d => ∀ v, o = some v → Between text c d [v.outline] := by
  induction room generalizing c with
  | zero => exact .throw
  | succ room ih =>
    rw [value]
    refine .get_bind (.get_bind ?_)
    dsimp only
    split
    · refine places_variableName.bind fun o d h1 ho => ?_
      split
      · rename_i name
        have hname := (ho name rfl).1
        split
        · refine (places_reportAt _ _ _).bind fun _ e h2 _ => .pure fun v hv => ?_
          cases hv
          exact hname.onward h2
        · refine .pure fun v hv => ?_
          cases hv
          exact hname
      · exact .none
    · rename_i hk
      exact places_wordToken hk (by decide) fun _ => rfl
    · rename_i hk
      exact places_wordToken hk (by decide) fun _ => rfl
    · rename_i hk
      refine places_bump.bind fun t d _ ht => (places_stringValue t).bind fun w e h2 hw => .pure fun v hv => ?_
      cases hv
      rw [hw]
      exact (ht (Cursor.rest_ne_nil_of_kind? hk)).node.onward h2
    · rename_i hk
      refine .get_bind ?_
      split
      · refine (places_reportHere _).bind fun _ d h1 hstill => places_bump.bind fun t e _ ht => .pure fun v hv => ?_
        cases hv
        have hne : d.rest ≠ [] := hstill.1 ▸ Cursor.rest_ne_nil_of_kind? hk
        exact (ht hne).node.behind h1
      · refine places_bump.bind fun t d _ ht => .pure fun v hv => ?_
        cases hv
        exact (ht (Cursor.rest_ne_nil_of_kind? hk)).node
    · exact (places_reportHere _).andThen fun _ _ => places_skip.andThen fun _ _ => .none
    · rename_i hk
      exact places_wordToken hk (by decide) outline_wordValue
    · rename_i hk
      exact places_enclosed (g := fun v : Value => [v.outline]) (Cursor.rest_ne_nil_of_kind? hk)
        (fun items span => by rw [Value.outline, Value.outlinesOfItems_eq_map, List.map_eq_flatMap])
        fun _ => places_listItem fun _ => ih
    · rename_i hk
      exact places_enclosed (g := fun f : Name × Value => [f.1.outline, f.2.outline])
        (Cursor.rest_ne_nil_of_kind? hk) (fun fields span => by rw [Value.outline, Value.outlinesOfFields_eq])
        fun _ => places_objectField fun _ => ih
    · exact .get_bind ((places_report _ _).andThen fun _ _ => .none)

/-! ## Arguments and directives -/

theorem places_argument (isConst : Bool) (room : Nat) :
    Places text c (argument isConst room) fun o d => ∀ a, o = some a → Between text c d [a.outline] := by
  refine .get_bind ?_
  split
  · exact .get_bind ((places_reportAndSkip _ _).andThen fun _ _ => .none)
  · refine places_expectName.bind fun o d1 o1 ho => ?_
    split
    · rename_i name
      refine (places_expect _).bind fun o d2 o2 _ => ?_
      split
      · refine (places_value isConst room).bind fun o d3 o3 hvalue => ?_
        split
        · rename_i given
          refine .pure fun a ha => ?_
          cases ha
          have hpair := ((ho name rfl).1.onward o2).append (o1.trans o2) o3 (hvalue given rfl)
          have hcover := Outline.Row.cover hpair
          rw [Value.span_outline] at hcover
          exact hcover
        · exact .none
      · exact .none
    · exact .none

theorem places_arguments (isConst : Bool) (room : Nat) :
    Places text c (arguments isConst room) fun items d => Between text c d (items.map Argument.outline) :=
  places_bump.bind fun _ _ h1 _ => (places_collectNodes fun _ _ => places_argument isConst room).bind
    fun _ _ _ hitems => (places_close _ _ _).bind fun _ _ h3 _ => .pure ((hitems.behind h1).onward h3)

theorem places_optionalArguments (isConst : Bool) (room : Nat) :
    Places text c (optionalArguments isConst room) fun items d => Between text c d (items.map Argument.outline) := by
  refine .get_bind ?_
  split
  · exact places_arguments isConst room
  · exact .pure .nil

theorem places_directive (isConst : Bool) (room : Nat) (hat : c.isAt .atSign = true) :
    Places text c (directive isConst room) fun o d => ∀ m, o = some m → Between text c d [m.outline] := by
  refine .of_laid fun hl => places_bump.bind fun sign d1 o1 hsign => places_expectName.bind fun o d2 o2 ho => ?_
  split
  · rename_i name
    refine (places_optionalArguments isConst room).bind fun given d3 o3 hgiven => (places_spanFrom _).bind
      fun span d4 o4 hspan => .pure fun d hd => ?_
    cases hd
    subst hspan
    have hsign := hsign (Cursor.rest_ne_nil_of_kind? (Cursor.isAt_iff.1 hat))
    rw [hsign.span]
    have hrest := o2.trans (o3.trans o4)
    have hchildren := ((ho name rfl).1.append o2 (o3.trans o4) (hgiven.onward o4)).behind o1
    exact hchildren.node hl (o1.trans hrest).laid (Nat.le_trans hsign.start_le hrest.consumedEnd_le)
  · exact .none

theorem places_directives (isConst : Bool) (room : Nat) :
    Places text c (directives isConst room) fun marks d => Between text c d (marks.map Directive.outline) :=
  places_collectNodes fun _ hat => places_directive isConst room hat

/-! ## Selections -/

theorem places_fieldName : Places text c fieldName fun o d => ∀ x, o = some x →
    Between text c d (x.1.toList.map Name.outline ++ [x.2.outline]) ∧ c.span.start ≤ d.consumedEnd := by
  refine places_expectName.bind fun o d1 o1 hfirst => ?_
  split
  · rename_i first
    have hfirst := (hfirst first rfl).1
    refine (places_eat .colon).bind fun mark d2 o2 _ => ?_
    split
    · refine .pure fun x hx => ?_
      cases hx
      exact ⟨hfirst.onward o2, (hfirst.onward o2).start_le⟩
    · refine places_expectName.bind fun o d3 o3 hsecond => ?_
      split
      · rename_i second
        refine .pure fun x hx => ?_
        cases hx
        exact ⟨(hfirst.onward o2).append (o1.trans o2) o3 (hsecond second rfl).1,
          (hfirst.onward (o2.trans o3)).start_le⟩
      · exact .none
  · exact .none

/-- A parser of selection sets places them from the brace that opens them to the last token that it reads. -/
def PlacesSet (text : String) (body : Parse SelectionSet) : Prop :=
  ∀ c : Cursor, c.kind? = some .lBrace → Places text c body fun set d =>
    Between text c d [set.outline] ∧ set.span = ⟨c.span.start, d.consumedEnd⟩

theorem places_field {room : Nat} {body : Parse SelectionSet} (hbody : PlacesSet text body) :
    Places text c (field room body) fun o d => ∀ s, o = some s → Between text c d [s.outline] := by
  refine .of_laid fun hl => .get_bind (places_fieldName.bind fun o d1 o1 ho => ?_)
  split
  · rename_i label name
    obtain ⟨hname, hle⟩ := ho _ rfl
    refine (places_optionalArguments false room).bind fun given d2 o2 hgiven => (places_directives false room).bind
      fun marks d3 o3 hmarks => .get_bind ?_
    have hrest := o2.trans o3
    have hhead : Between text c d3 (Field.outlines ⟨label, name, given, marks, .emptyAt 0⟩) := by
      simpa [Field.outlines] using hname.append o1 hrest (hgiven.append o2 o3 hmarks)
    split
    · rename_i hat
      refine (hbody _ (Cursor.isAt_iff.1 hat)).bind fun set d4 o4 hset => (places_spanFrom _).bind
        fun span d5 o5 hspan => .pure fun s hs => ?_
      cases hs
      subst hspan
      have hrow := (hhead.append (o1.trans hrest) o4 hset.1).onward o5
      have hlast := hrest.trans (o4.trans o5)
      exact hrow.node hl hlast.laid (Nat.le_trans hle hlast.consumedEnd_le)
    · refine (places_spanFrom _).bind fun span d4 o4 hspan => .pure fun s hs => ?_
      cases hs
      subst hspan
      have hlast := hrest.trans o4
      exact (hhead.onward o4).node hl hlast.laid (Nat.le_trans hle hlast.consumedEnd_le)
  · exact .none

/-- What follows the dots of a spread or an inline fragment stands in a node that starts with the dots. -/
def BehindDots (text : String) (c : Cursor) (start : Nat) (p : Parse (Option Selection)) : Prop :=
  ∀ b : Cursor, b.Laid text → b.Onward text c → b.span.start = start → b.span.start ≤ c.consumedEnd →
    Places text c p fun o d => ∀ s, o = some s → Between text b d [s.outline]

theorem places_spread (room start : Nat) : BehindDots text c start (spread room start) := by
  rintro b hb o rfl hle
  refine places_expectName.bind fun o d1 o1 ho => ?_
  split
  · rename_i name
    refine (places_directives false room).bind fun marks d2 o2 hmarks => (places_spanFrom _).bind
      fun span d3 o3 hspan => .pure fun s hs => ?_
    cases hs
    subst hspan
    have hlast := o1.trans (o2.trans o3)
    have hrow := ((ho name rfl).1.append o1 o2 hmarks).onward o3
    exact (hrow.behind o).node hb hlast.laid (Nat.le_trans hle hlast.consumedEnd_le)
  · exact .none

theorem places_optionalCondition : Places text c optionalCondition fun o d => ∀ x, o = some x →
    Between text c d (x.toList.map Name.outline) := by
  refine (places_eatWord _).bind fun o d1 o1 _ => ?_
  split
  · refine .pure fun x hx => ?_
    cases hx
    exact .nil
  · refine places_expectName.bind fun o d2 o2 ho => ?_
    split
    · rename_i type
      refine .pure fun x hx => ?_
      cases hx
      exact (ho type rfl).1.behind o1
    · exact .none

theorem places_inlineFragment {room start : Nat} {body : Parse SelectionSet} (hbody : PlacesSet text body) :
    BehindDots text c start (inlineFragment room start body) := by
  rintro b hb o rfl hle
  refine places_optionalCondition.bind fun o d1 o1 hcondition => ?_
  split
  · rename_i condition
    refine (places_directives false room).bind fun marks d2 o2 hmarks => .get_bind ?_
    split
    · rename_i hat
      refine (hbody _ (Cursor.isAt_iff.1 hat)).bind fun set d3 o3 hset => .pure fun s hs => ?_
      cases hs
      have hlast := o1.trans (o2.trans o3)
      have hrow := ((hcondition condition rfl).append o1 o2 hmarks).append (o1.trans o2) o3 hset.1
      rw [hset.2]
      have hnode := (hrow.behind o).node hb hlast.laid (Nat.le_trans hle hlast.consumedEnd_le)
      simpa [Selection.outline, Inline.outlines, SelectionSet.outline, hset.2] using hnode
    · exact .get_bind ((places_report _ _).andThen fun _ _ => .none)
  · exact .none

theorem places_spreadOrInline {room : Nat} {body : Parse SelectionSet} (hbody : PlacesSet text body)
    (hk : c.kind? = some .spread) :
    Places text c (spreadOrInline room body) fun o d => ∀ s, o = some s → Between text c d [s.outline] := by
  refine .of_laid fun hl => places_bump.bind fun dots d1 o1 hdots => .get_bind (.get_bind ?_)
  have hdots := hdots (Cursor.rest_ne_nil_of_kind? hk)
  have hstart : c.span.start = dots.span.start := by rw [hdots.span]
  split
  · exact places_spread room _ c hl o1 hstart hdots.start_le
  · exact places_inlineFragment hbody c hl o1 hstart hdots.start_le

theorem places_selection {room : Nat} {body : Parse SelectionSet} (hbody : PlacesSet text body) :
    Places text c (selection room body) fun o d => ∀ s, o = some s → Between text c d [s.outline] := by
  refine .get_bind ?_
  split
  · exact places_field hbody
  · rename_i hk
    exact places_spreadOrInline hbody hk
  · exact .get_bind ((places_reportAndSkip _ _).andThen fun _ _ => .none)

theorem placesSet_selectionSet (room : Nat) : PlacesSet text (selectionSet room) := by
  intro c hk
  induction room generalizing c with
  | zero => exact .throw
  | succ room ih =>
    rw [selectionSet]
    refine .of_laid fun hl => places_bump.bind fun opened d1 o1 hopened => (places_collectNodes
      (g := Selection.outline) fun _ _ => places_selection ih).bind fun selections d2 o2 hselections =>
        (places_close _ _ _).bind fun _ d3 o3 _ => (places_spanFrom _).bind fun span d4 o4 hspan => ?_
    have hopened := hopened (Cursor.rest_ne_nil_of_kind? hk)
    have hkind := hopened.kind_eq hk
    have hrest := o2.trans (o3.trans o4)
    have hset : Between text c d4 [SelectionSet.outline ⟨selections, span⟩] ∧
        span = ⟨c.span.start, d4.consumedEnd⟩ := by
      rw [hopened.span] at hspan
      subst hspan
      -- the opening brace is a word, and the selections stand behind it
      have hbrace := hopened.word_of_text (by rw [hkind]; decide) (hopened.sign "\x7b" (by rw [hkind]; rfl))
      have hrow := hbrace.append o1 hrest (hselections.onward (o3.trans o4))
      refine ⟨?_, rfl⟩
      rw [SelectionSet.outline, Selection.outlinesOfAll_eq_map]
      exact hrow.node hl (o1.trans hrest).laid (Nat.le_trans hopened.start_le hrest.consumedEnd_le)
    dsimp only
    split
    · refine (places_reportAt _ _ _).bind fun _ d5 o5 hstill => .pure ⟨hset.1.onward o5, ?_⟩
      rw [hstill.2]
      exact hset.2
    · exact .pure hset

/-! ## Recovery -/

theorem places_recover : Places text c recover fun _ _ => True := places_skipWhile _

theorem places_skipDefinitionBody (rounds depth : Nat) :
    Places text c (skipDefinitionBody rounds depth) fun _ _ => True := by
  induction rounds generalizing c depth with
  | zero => exact .throw
  | succ rounds ih =>
    refine .get_bind ?_
    split
    · exact .pure trivial
    · refine places_skip.andThen fun _ _ => ?_
      split
      · exact ih _
      · split
        · split
          · exact .pure trivial
          · exact ih _
        · exact ih _

theorem places_skipTypeSystemDefinition : Places text c skipTypeSystemDefinition fun _ _ => True := by
  refine .get_bind (.get_bind ?_)
  extract_lets rest
  have hrest : ∀ d, Places text d (rest ()) fun _ _ => True := fun d =>
    .get_bind (.get_bind (places_skip.andThen fun _ _ => .get_bind ((places_skipDefinitionBody _ _).andThen fun _ _ =>
      .get_bind (places_reportAt _ _ _).trivial)))
  split
  · exact places_skip.andThen fun _ d => hrest d
  · exact hrest c

theorem places_skipStray : Places text c skipStray fun _ _ => True := by
  refine .get_bind ?_
  split
  · exact (places_reportAndSkip _ _).andThen fun _ _ => places_recover
  · exact (places_reportHere _).andThen fun _ _ => places_skip.andThen fun _ _ => places_recover
  · exact .get_bind ((places_reportAndSkip _ _).andThen fun _ _ => places_recover)

theorem places_missingSelectionSet : Places text c missingSelectionSet fun _ _ => True :=
  .get_bind ((places_report _ _).andThen fun _ _ => places_recover)

/-! ## Definitions -/

theorem places_optionalDefault (room : Nat) : Places text c (optionalDefault room) fun o d => ∀ x, o = some x →
    Between text c d (x.toList.map Value.outline) := by
  refine (places_eat _).bind fun o d1 o1 _ => ?_
  split
  · refine .pure fun x hx => ?_
    cases hx
    exact .nil
  · refine (places_value true room).bind fun o d2 o2 ho => ?_
    split
    · rename_i given
      refine .pure fun x hx => ?_
      cases hx
      exact (ho given rfl).behind o1
    · exact .none

theorem places_variableDefinition (room : Nat) :
    Places text c (variableDefinition room) fun o d => ∀ v, o = some v → Between text c d [v.outline] := by
  refine .of_laid fun hl => places_variableName.bind fun o d1 o1 ho => ?_
  split
  · rename_i name
    obtain ⟨hname, hstart⟩ := ho name rfl
    refine (places_expect _).bind fun o d2 o2 _ => ?_
    split
    · refine (places_typeRef room).bind fun o d3 o3 ho => ?_
      split
      · rename_i type typeSpan
        have htype := ho _ rfl
        refine (places_optionalDefault room).bind fun o d4 o4 ho => ?_
        split
        · rename_i initial
          refine (places_directives true room).bind fun marks d5 o5 hmarks => (places_spanFrom _).bind
            fun span d6 o6 hspan => .pure fun v hv => ?_
          cases hv
          rw [hstart] at hspan
          subst hspan
          have hlast := o2.trans (o3.trans (o4.trans (o5.trans o6)))
          have hrow := (hname.onward o2).append (o1.trans o2) (o3.trans (o4.trans (o5.trans o6)))
            (htype.append o3 (o4.trans (o5.trans o6)) (((ho initial rfl).append o4 o5 hmarks).onward o6))
          exact hrow.node hl (o1.trans hlast).laid (Nat.le_trans hname.start_le hlast.consumedEnd_le)
        · exact .none
      · exact .none
    · exact .none
  · exact .none

theorem places_declaredVariable (room : Nat) : Places text c (declaredVariable room) fun o d =>
    ∀ v, o = some v → Between text c d [v.outline] := by
  refine .get_bind ?_
  split
  · exact places_variableDefinition room
  · exact .get_bind ((places_reportAndSkip _ _).andThen fun _ _ => .none)

theorem places_variableDefinitions (room : Nat) : Places text c (variableDefinitions room) fun items d =>
    Between text c d (items.map VariableDefinition.outline) :=
  places_bump.bind fun _ _ o1 _ => (places_collectNodes fun _ _ => places_declaredVariable room).bind
    fun _ _ _ hitems => (places_close _ _ _).bind fun _ _ o3 _ => .pure ((hitems.behind o1).onward o3)

theorem places_namedOperation (room : Nat) (h : c.isAtAnyWord operationWords = true) :
    Places text c (namedOperation room) fun o d => ∀ op, o = some op → Between text c d [op.outline] := by
  obtain ⟨word, hword, hat⟩ := List.any_eq_true.1 h
  obtain ⟨hk, htext⟩ := Cursor.kind?_of_isAtWord hat
  refine .of_laid fun hl => .get_bind (places_bump.bind fun keyword d1 o1 ht => .get_bind ?_)
  have ht := ht (Cursor.rest_ne_nil_of_kind? hk)
  -- the keyword is a word, and all the rest stands behind it
  have hkeyword := ht.word_of_text (by rw [ht.kind_eq hk]; decide) (ht.text_eq.trans htext)
  have hsize : 0 < word.utf8ByteSize := (by decide : ∀ word ∈ operationWords, 0 < word.utf8ByteSize) word hword
  extract_lets rest
  have hrest : ∀ name d2, d1.Onward text d2 → Between text d1 d2 (Option.toList name |>.map Name.outline) →
      Places text d2 (rest name) fun o d => ∀ op, o = some op → Between text c d [op.outline] := by
    intro name d2 o2 hname
    refine .get_bind ?_
    extract_lets rest
    have hrest : ∀ declared d3, d2.Onward text d3 → Between text d2 d3 (declared.map VariableDefinition.outline) →
        Places text d3 (rest declared) fun o d => ∀ op, o = some op → Between text c d [op.outline] := by
      intro declared d3 o3 hdeclared
      refine (places_directives false room).bind fun marks d4 o4 hmarks => .get_bind ?_
      split
      · rename_i hat
        refine (placesSet_selectionSet room _ (Cursor.isAt_iff.1 hat)).bind fun body d5 o5 hbody =>
          .pure fun op hop => ?_
        cases hop
        have hrest := o2.trans (o3.trans (o4.trans o5))
        have hne : c.span.start ≠ body.span.start := by
          have hstop := hkeyword.bounds.2.1
          have hstart := (o1.trans (o2.trans (o3.trans o4))).laid.consumedEnd_le
          have hlast := (o2.trans (o3.trans o4)).consumedEnd_le
          rw [hbody.2]
          simp only [Outline.span] at hstop ⊢
          omega
        have hrow := hkeyword.append o1 hrest (hname.append o2 (o3.trans (o4.trans o5))
          (hdeclared.append o3 (o4.trans o5) (hmarks.append o4 o5 hbody.1)))
        have hnode := hrow.node hl (o1.trans hrest).laid (Nat.le_trans ht.start_le hrest.consumedEnd_le)
        have hkind : (operationKind keyword.text).keyword = word := by
          rw [ht.text_eq, htext, keyword_operationKind hword]
        simp only [Operation.outline, Operation.keywordOutlines, if_neg hne, hkind]
        rw [hbody.2]
        exact hnode
      · exact places_missingSelectionSet.andThen fun _ _ => .none
    split
    · exact (places_variableDefinitions room).bind hrest
    · exact hrest [] d2 (.refl o2.laid) .nil
  split
  · refine places_expectName.bind fun name d2 o2 hname => hrest name d2 o2 ?_
    cases name with
    | none => exact .nil
    | some name => exact (hname name rfl).1
  · exact hrest none d1 (.refl o1.laid) .nil

theorem places_shorthandOperation (room : Nat) (hk : c.kind? = some .lBrace) :
    Places text c (shorthandOperation room) fun op d => Between text c d [op.outline] := by
  refine .of_laid fun hl => .get_bind ((placesSet_selectionSet room c hk).bind fun body d o hbody => .pure ?_)
  have hnode := hbody.1.node hl o.laid hbody.1.start_le
  simpa [Operation.outline, Operation.keywordOutlines, hbody.2] using hnode

theorem places_fragment (room : Nat) (h : c.isAtWord "fragment" = true) :
    Places text c (fragment room) fun o d => ∀ frag, o = some frag → Between text c d [frag.outline] := by
  obtain ⟨hk, -⟩ := Cursor.kind?_of_isAtWord h
  refine .of_laid fun hl => .get_bind (places_skip.bind fun _ d1 o1 hskip => .get_bind ?_)
  have hle := hskip (Cursor.rest_ne_nil_of_kind? hk)
  split
  · exact (places_report _ _).andThen fun _ _ => places_recover.andThen fun _ _ => .none
  · refine places_expectName.bind fun o d2 o2 hname => ?_
    split
    · rename_i name
      refine (places_expectWord _).bind fun o d3 o3 _ => ?_
      split
      · refine places_expectName.bind fun o d4 o4 hcondition => ?_
        split
        · rename_i condition
          refine (places_directives false room).bind fun marks d5 o5 hmarks => .get_bind ?_
          split
          · rename_i hat
            refine (placesSet_selectionSet room _ (Cursor.isAt_iff.1 hat)).bind fun body d6 o6 hbody =>
              .pure fun frag hf => ?_
            cases hf
            have hlast := o2.trans (o3.trans (o4.trans (o5.trans o6)))
            have hrow := ((hname name rfl).1.onward o3).append (o2.trans o3) (o4.trans (o5.trans o6))
              ((hcondition condition rfl).1.append o4 (o5.trans o6) (hmarks.append o5 o6 hbody.1))
            have hnode := (hrow.behind o1).node hl (o1.trans hlast).laid (Nat.le_trans hle hlast.consumedEnd_le)
            rw [hbody.2]
            simpa [Fragment.outline] using hnode
          · exact places_missingSelectionSet.andThen fun _ _ => .none
        · exact places_recover.andThen fun _ _ => .none
      · exact places_recover.andThen fun _ _ => .none
    · exact places_recover.andThen fun _ _ => .none

theorem places_definition (room : Nat) :
    Places text c (definition room) fun o d => ∀ x, o = some x → Between text c d [x.outline] := by
  refine .get_bind ?_
  split
  · rename_i hat
    refine (places_shorthandOperation room (Cursor.isAt_iff.1 hat)).bind fun op d _ hop => .pure fun x hx => ?_
    cases hx
    exact hop
  · split
    · rename_i hat
      refine (places_fragment room hat).bind fun o d _ hfrag => .pure fun x hx => ?_
      obtain ⟨frag, hf, rfl⟩ := Option.map_eq_some_iff.1 hx
      exact hfrag frag hf
    · split
      · rename_i hat
        refine (places_namedOperation room hat).bind fun o d _ hop => .pure fun x hx => ?_
        obtain ⟨op, ho, rfl⟩ := Option.map_eq_some_iff.1 hx
        exact hop op ho
      · split
        · exact places_skipTypeSystemDefinition.andThen fun _ _ => .none
        · exact places_skipStray.andThen fun _ _ => .none

theorem places_document (room : Nat) : Places text c (document room) fun document d =>
    Between text c d (document.definitions.map Definition.outline) := by
  refine (places_collectNodes (g := Definition.outline) fun c _ => places_definition room).bind
    fun definitions d1 o1 hdefinitions => .get_bind ?_
  dsimp only
  split
  · exact (places_reportHere _).bind fun _ d2 o2 _ => .pure (hdefinitions.onward o2)
  · exact .pure hdefinitions

end Nodes

/-- A parse starts in front of the tokens of its text. -/
theorem Cursor.laid_ofText (text : String) (allowance : Option Nat) : (Cursor.ofText text allowance).Laid text where
  tokens := (Token.laid_scan text).sublist List.filter_sublist
  behind _ _ := Nat.zero_le _
  consumed := Text.isValid_byteLength (List.nil_append text.toList).symm
  textEnd := rfl
  signs _ ht _ hs := (Token.isSound_of_mem_scan (List.mem_filter.1 ht).1).sign _ hs

end QueryBatch.Parse

namespace QueryBatch.Document

variable {text : String} {limits : Parse.Limits} {parsed : ParsedDocument}

/-- The definitions of a document stand one behind the other in the text that it is read from. -/
theorem row_of_read (h : Document.read text limits = .ok parsed) :
    Outline.Row text 0 (parsed.document.definitions.map Definition.outline) text.utf8ByteSize := by
  simp only [Document.read, StateT.run] at h
  split at h
  · rename_i document final hrun
    cases h
    obtain ⟨ho, hrow⟩ := Parse.places_document _ (Parse.Cursor.laid_ofText text limits.steps) hrun
    exact Outline.Row.mono hrow (Nat.zero_le _) ho.laid.consumed.le_utf8ByteSize
  · cases h

/-- All spans of a document fit into the text that it is read from. -/
theorem fitsIn_of_read (h : Document.read text limits = .ok parsed) :
    ∀ x ∈ parsed.document.definitions, ∀ s ∈ x.spans, s.FitsIn text :=
  fun _ hx => Definition.fitIn_spans ((row_of_read h).mem (List.mem_map_of_mem hx))

/-- Whatever is wrong with a text, the definitions of the document that it is read as stand in it one behind the other,
and so do the nodes inside each node. The head of an operation lies inside the operation and starts where it starts. -/
theorem outline_of_read (h : Document.read text limits = .ok parsed) :
    Outline.Row text 0 (parsed.document.definitions.map Definition.outline) text.utf8ByteSize ∧
    ∀ op ∈ parsed.document.operations, op.headSpan.FitsIn text ∧
      op.headSpan.start = op.span.start ∧ op.headSpan.stop ≤ op.span.stop := by
  refine ⟨row_of_read h, fun op hop => ?_⟩
  obtain ⟨x, hx, hop⟩ := List.mem_filterMap.1 hop
  cases x with
  | operation _ =>
    cases hop
    exact Operation.headSpan_within ((row_of_read h).mem (List.mem_map_of_mem hx))
  | fragment _ => cases hop

/-- A text with a list type, arguments and two selection sets that are not closed, behind a letter of two bytes. -/
def brokenText : String :=
  "# é\nquery All($ids: [ID = 7) \x7b first: users(at: \"é\" 7 \x7b id : \x7d ... on User @a \x7b name"

/-- The one operation of that text stands in it, for all its six faults. -/
theorem outline_of_brokenText : ∃ parsed, Document.read brokenText = .ok parsed ∧
    parsed.diagnostics.length = 6 ∧ parsed.document.operations.length = 1 ∧
    Outline.Row brokenText 0 (parsed.document.definitions.map Definition.outline) brokenText.utf8ByteSize ∧
    ∀ op ∈ parsed.document.operations, op.headSpan.FitsIn brokenText ∧
      op.headSpan.start = op.span.start ∧ op.headSpan.stop ≤ op.span.stop := by
  have hcount : (Document.read brokenText).toOption.map (fun parsed =>
      (parsed.diagnostics.length, parsed.document.operations.length)) = some (6, 1) := by decide +kernel
  cases hread : Document.read brokenText with
  | error stop =>
    rw [hread] at hcount
    cases hcount
  | ok parsed =>
    rw [hread] at hcount
    obtain ⟨hfaults, hoperations⟩ := Prod.mk.inj (Option.some.inj hcount)
    exact ⟨parsed, rfl, hfaults, hoperations, outline_of_read hread⟩

end QueryBatch.Document
