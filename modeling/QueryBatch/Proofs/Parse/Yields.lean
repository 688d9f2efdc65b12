import QueryBatch.Parse.Document
import QueryBatch.Proofs.Document.WellFormed

/-!
# What a parse without faults yields

* `Cursor.Valid`: a cursor whose tokens fit their classes and whose last fault is among its reports.
* `Yields c p Q`: run from `c`, the parser `p` keeps the cursor valid and takes no report back, and what it yields has
  the property `Q` if nothing is reported by then.
* `yields_value`, `yields_selectionSet`, `yields_definition`, …: what each parser yields is well-formed.
* `Document.wellFormed_of_read`: so is a document that is read without diagnostics.
-/

namespace QueryBatch.Parse

open Token

/-- A cursor whose tokens fit their classes and whose last fault is among its reports. -/
structure Cursor.Valid (c : Cursor) : Prop where
  sound : ∀ t ∈ c.rest, t.IsSound
  reported : c.lastReport ≠ none → c.reports ≠ []

/-- A parser keeps the cursor valid and takes no report back. What it yields has a property if nothing is reported. -/
def Yields {α : Type} (c : Cursor) (p : Parse α) (Q : α → Prop) : Prop :=
  ∀ ⦃a c'⦄, c.Valid → p c = .ok (a, c') → c'.Valid ∧ (c'.reports = [] → c.reports = [] ∧ Q a)

/-- Where nothing is yielded, there is nothing to show of it. -/
theorem of_none_eq_some {α : Type} {P : α → Prop} : ∀ a, none = some a → P a :=
  fun _ h => absurd h (Option.some_ne_none _).symm

/-! ## Rules -/

namespace Yields

variable {α β : Type} {c : Cursor} {p : Parse α} {R : α → Prop} {Q : β → Prop}

theorem pure {b : β} (h : c.reports = [] → Q b) : Yields c (Pure.pure b : Parse β) Q := by
  intro a c' hv hr
  cases hr
  exact ⟨hv, fun hn => ⟨hn, h hn⟩⟩

/-- What the first parser yields may be used once nothing is reported by the end of the second. -/
theorem bind {f : α → Parse β} (hp : Yields c p R) (hf : ∀ a c', Yields c' (f a) fun b => R a → Q b) :
    Yields c (p >>= f) Q := by
  intro b c'' hv hr
  obtain ⟨a, c', hpc, hrun⟩ := bind_eq_ok.1 hr
  obtain ⟨hv', hp'⟩ := hp hv hpc
  obtain ⟨hv'', hf'⟩ := hf a c' hv' hrun
  refine ⟨hv'', fun hn => ?_⟩
  obtain ⟨hn', hq⟩ := hf' hn
  exact ⟨(hp' hn').1, hq (hp' hn').2⟩

theorem get_bind {f : Cursor → Parse β} (h : Yields c (f c) Q) : Yields c (get >>= f) Q := fun _ _ hv hr => h hv hr

theorem throw {stop : Stop} : Yields c (throw stop : Parse β) Q := nofun

theorem imp {Q' : β → Prop} {p : Parse β} (h : Yields c p Q) (hq : ∀ b, Q b → Q' b) : Yields c p Q' := by
  intro b c' hv hr
  obtain ⟨hv', h'⟩ := h hv hr
  exact ⟨hv', fun hn => ⟨(h' hn).1, hq b (h' hn).2⟩⟩

/-- Behind a fault there is nothing to show of what is yielded. -/
theorem fault {f : α → Parse β} (hp : Yields c p fun _ => False) (hf : ∀ a c', Yields c' (f a) fun _ => True) :
    Yields c (p >>= f) Q := hp.bind fun a c' => (hf a c').imp fun _ _ h => False.elim h

theorem done {b : β} : Yields c (Pure.pure b : Parse β) fun _ => True := .pure fun _ => trivial

end Yields

section Moves

variable {c : Cursor}

theorem Cursor.kind?_eq_some {kind : TokenKind} :
    c.kind? = some kind ↔ ∃ t rest, c.rest = t :: rest ∧ t.kind = kind := by
  cases h : c.rest <;> simp [Cursor.kind?, h]

theorem Cursor.rest_ne_nil_of_kind? {kind : TokenKind} (h : c.kind? = some kind) : c.rest ≠ [] := by
  obtain ⟨t, rest, hrest, -⟩ := Cursor.kind?_eq_some.1 h
  rw [hrest]
  exact List.cons_ne_nil _ _

theorem Cursor.isAt_iff {kind : TokenKind} : c.isAt kind = true ↔ c.kind? = some kind := beq_iff_eq

theorem Cursor.kind?_of_isAtWord {word : String} (h : c.isAtWord word = true) :
    c.kind? = some .name ∧ c.text = word := by
  simp only [Cursor.isAtWord, Bool.and_eq_true, beq_iff_eq] at h
  exact ⟨Cursor.isAt_iff.1 h.1, h.2⟩

theorem yields_bump :
    Yields c bump fun t => (∀ kind, c.kind? = some kind → t.kind = kind ∧ t.IsSound ∧ t.text = c.text) := by
  intro t c' hv hr
  simp only [bump] at hr
  split at hr
  · cases hr
  · split at hr
    · rename_i t rest hrest
      cases hr
      refine ⟨⟨fun u hu => hv.sound u ?_, hv.reported⟩, fun hn => ⟨hn, fun kind hk => ?_⟩⟩
      · rw [hrest]
        exact List.mem_cons_of_mem _ hu
      · obtain ⟨u, us, hus, hu⟩ := Cursor.kind?_eq_some.1 hk
        rw [hrest] at hus
        cases hus
        exact ⟨hu, hv.sound t (by rw [hrest]; exact List.mem_cons_self), by simp [Cursor.text, hrest]⟩
    · rename_i hrest
      cases hr
      refine ⟨⟨hv.sound, hv.reported⟩, fun hn => ⟨hn, fun kind hk => ?_⟩⟩
      simp [Cursor.kind?, hrest] at hk

theorem yields_skip : Yields c skip fun _ => True :=
  yields_bump.bind fun _ _ => .pure fun _ _ => trivial

theorem yields_spanFrom (start : Nat) : Yields c (spanFrom start) fun _ => True :=
  .get_bind (.pure fun _ => trivial)

theorem yields_eat (kind : TokenKind) :
    Yields c (eat kind) fun o =>
      ∀ t, o = some t → t.kind = kind ∧ t.IsSound ∧ c.isAt kind = true ∧ t.text = c.text := by
  refine .get_bind ?_
  split
  · rename_i h
    refine yields_bump.bind fun t _ => .pure fun _ ht u hu => ?_
    cases hu
    obtain ⟨hk, hs, htext⟩ := ht kind (Cursor.isAt_iff.1 h)
    exact ⟨hk, hs, h, htext⟩
  · exact .pure fun _ => of_none_eq_some

theorem yields_eatWord (word : String) : Yields c (eatWord word) fun _ => True := by
  refine .get_bind ?_
  split
  · exact yields_bump.bind fun _ _ => .pure fun _ _ => trivial
  · exact .pure fun _ => trivial

/-! ## Reports -/

/-- A fault leaves a report. -/
theorem yields_reportOnceAt (start : Nat) (d : Diagnostic) : Yields c (reportOnceAt start d) fun _ => False := by
  intro a c' hv hr
  rw [reportOnceAt_run] at hr
  cases hr
  split
  · rename_i h
    have hne := hv.reported (by rw [h]; exact Option.some_ne_none _)
    exact ⟨hv, fun hn => absurd hn hne⟩
  · refine ⟨⟨hv.sound, fun _ => ?_⟩, fun hn => ?_⟩
    · exact List.append_ne_nil_of_right_ne_nil _ (by simp)
    · simp at hn

theorem yields_reportHere (kind : Diagnostic.Kind) : Yields c (reportHere kind) fun _ => False :=
  .get_bind (yields_reportOnceAt _ _)

theorem yields_reportAt (kind : Diagnostic.Kind) (span : Span) (detail : String) :
    Yields c (reportAt kind span detail) fun _ => False := yields_reportOnceAt _ _

theorem yields_report (kind : Diagnostic.Kind) (detail : String) : Yields c (report kind detail) fun _ => False :=
  .get_bind (yields_reportAt _ _ _)

theorem yields_reportAndSkip (kind : Diagnostic.Kind) (detail : String) :
    Yields c (reportAndSkip kind detail) fun _ => False :=
  (yields_report kind detail).fault fun _ _ => yields_skip

theorem yields_reportUnclosed (closer : String) (opened : Span) :
    Yields c (reportUnclosed closer opened) fun _ => False :=
  .get_bind (yields_reportOnceAt _ _)

/-! ## Expectations -/

theorem yields_expect (kind : TokenKind) : Yields c (expect kind) fun _ => True := by
  refine (yields_eat kind).bind fun o _ => ?_
  split
  · exact .pure fun _ _ => trivial
  · exact .get_bind ((yields_report _ _).fault fun _ _ => .done)

theorem yields_expectWord (word : String) : Yields c (expectWord word) fun _ => True := by
  refine (yields_eatWord word).bind fun o _ => ?_
  split
  · exact .pure fun _ _ => trivial
  · exact .get_bind ((yields_report _ _).fault fun _ _ => .done)

/-- A name that is read is the next token. -/
theorem yields_expectName :
    Yields c expectName fun o => ∀ name, o = some name → IsName name.text ∧ c.isAtWord name.text = true := by
  refine (yields_eat .name).bind fun o _ => ?_
  split
  · rename_i t
    refine .pure fun _ ht name hname => ?_
    cases hname
    obtain ⟨hk, hs, hat, htext⟩ := ht t rfl
    exact ⟨hs.name hk, by simp [Cursor.isAtWord, hat, htext]⟩
  · exact .get_bind ((yields_report _ _).fault fun _ _ => .done)

theorem yields_close (kind : TokenKind) (closer : String) (opened : Span) :
    Yields c (close kind closer opened) fun _ => True := by
  refine (yields_eat kind).bind fun o _ => ?_
  split
  · exact (yields_reportUnclosed _ _).imp fun _ h => h.elim
  · exact .pure fun _ _ => trivial

/-! ## Rounds -/

theorem yields_collectRounds {α : Type} {more : Cursor → Bool} {step : Parse (Option α)} {Q : α → Prop}
    (h : ∀ c, Yields c step fun o => ∀ a, o = some a → Q a) (rounds : Nat) (found : List α) :
    Yields c (collectRounds more step rounds found) fun items => (∀ a ∈ found, Q a) → ∀ a ∈ items, Q a := by
  induction rounds generalizing c found with
  | zero => exact .throw
  | succ rounds ih =>
    refine .get_bind ?_
    split
    · refine (h c).bind fun o c' => ?_
      cases o with
      | none => exact (ih found).imp fun _ hq _ hf => hq hf
      | some item =>
        refine (ih (item :: found)).imp fun items hq hitem hf => hq fun a ha => ?_
        rcases List.mem_cons.1 ha with rfl | ha
        · exact hitem a rfl
        · exact hf a ha
    · exact .pure fun _ hf a ha => hf a (List.mem_reverse.1 ha)

/-- Every item that is collected was yielded by the step. -/
theorem yields_collect {α : Type} {more : Cursor → Bool} {step : Parse (Option α)} {Q : α → Prop}
    (h : ∀ c, Yields c step fun o => ∀ a, o = some a → Q a) :
    Yields c (collect more step) fun items => ∀ a ∈ items, Q a :=
  .get_bind ((yields_collectRounds h _ []).imp fun _ hq => hq nofun)

theorem yields_skipWhile (more : Cursor → Bool) : Yields c (skipWhile more) fun _ => True := by
  have hstep : ∀ c, Yields c skipped fun o => ∀ a, o = some a → True :=
    fun _ => yields_skip.bind fun _ _ => .pure fun _ _ _ _ => trivial
  exact (yields_collect hstep).bind fun _ _ => .pure fun _ _ => trivial

end Moves

section Nodes

variable {c : Cursor}

/-! ## Types and values -/

theorem wellFormed_required {t : TypeRef} (h : t.WellFormed) : t.required.WellFormed := by
  cases h with
  | named hn => exact .nonNull rfl (.named hn)
  | list hi => exact .nonNull rfl (.list hi)
  | nonNull hn hi => exact .nonNull hn hi

theorem yields_typeRef (room : Nat) : Yields c (typeRef room) fun o => ∀ t, o = some t → t.1.WellFormed := by
  induction room generalizing c with
  | zero => exact .throw
  | succ room ih =>
    rw [typeRef]
    refine .get_bind (.get_bind ?_)
    extract_lets rest
    have hrest : ∀ inner c', Yields c' (rest inner) fun o =>
        (∀ t, inner = some t → t.WellFormed) → ∀ t, o = some t → t.1.WellFormed := by
      intro inner c'
      cases inner with
      | none => exact .pure fun _ _ => of_none_eq_some
      | some type =>
        refine (yields_eat .bang).bind fun mark _ => (yields_spanFrom _).bind fun span _ =>
          .pure fun _ _ _ htype t ht => ?_
        cases ht
        dsimp only
        split
        · exact wellFormed_required (htype type rfl)
        · exact htype type rfl
    split
    · refine yields_bump.bind fun opened _ => ih.bind fun item _ => (yields_close _ _ _).bind fun _ _ => ?_
      refine (hrest _ _).imp fun o ho _ hitem _ => ho fun t ht => ?_
      obtain ⟨x, hx, rfl⟩ := Option.map_eq_some_iff.1 ht
      exact .list (hitem x hx)
    · refine yields_expectName.bind fun name _ => (hrest _ _).imp fun o ho hname => ho fun t ht => ?_
      obtain ⟨x, hx, rfl⟩ := Option.map_eq_some_iff.1 ht
      exact .named (hname x hx).1
    · exact .get_bind ((yields_report _ _).fault fun _ _ =>
        Yields.done.bind fun _ _ => (hrest _ _).imp fun _ _ _ => trivial)

theorem yields_variableName : Yields c variableName fun o => ∀ name, o = some name → IsName name.text := by
  refine (yields_expect .dollar).bind fun dollar _ => ?_
  split
  · refine yields_expectName.bind fun o _ => ?_
    split
    · rename_i name
      refine .pure fun _ hname _ n hn => ?_
      cases hn
      exact (hname name rfl).1
    · exact .pure fun _ _ _ => of_none_eq_some
  · exact .pure fun _ _ => of_none_eq_some

theorem wellFormed_wordValue {isConst : Bool} {t : Token} (h : IsName t.text) : (wordValue t).WellFormed isConst := by
  unfold wordValue
  split
  · exact .boolean true t.span
  · split
    · exact .boolean false t.span
    · split
      · exact .null t.span
      · exact .enum h ‹_› ‹_› ‹_›

theorem yields_stringValue {isConst : Bool} (t : Token) : Yields c (stringValue t) fun v => v.WellFormed isConst := by
  unfold stringValue
  split
  · exact .pure fun _ => .string _ _
  · exact (yields_reportAt _ _ _).fault fun _ _ => .done

variable {isConst : Bool} {given : Parse (Option Value)}

theorem yields_listItem (hgiven : ∀ c, Yields c given fun o => ∀ v, o = some v → v.WellFormed isConst) :
    Yields c (listItem given) fun o => ∀ v, o = some v → v.WellFormed isConst := by
  refine (hgiven c).bind fun o _ => ?_
  split
  · rename_i item
    refine .pure fun _ hitem a ha => ?_
    cases ha
    exact hitem item rfl
  · refine .get_bind ?_
    split
    · exact yields_skip.bind fun _ _ => .pure fun _ _ _ => of_none_eq_some
    · exact .pure fun _ _ => of_none_eq_some

theorem yields_objectField (hgiven : ∀ c, Yields c given fun o => ∀ v, o = some v → v.WellFormed isConst) :
    Yields c (objectField given) fun o =>
      ∀ f : Name × Value, o = some f → IsName f.1.text ∧ f.2.WellFormed isConst := by
  refine yields_expectName.bind fun o _ => ?_
  split
  · rename_i name
    refine (yields_expect _).bind fun o d => ?_
    split
    · refine (hgiven d).bind fun o _ => ?_
      split
      · rename_i field
        refine .pure fun _ hfield _ hname f hf => ?_
        cases hf
        exact ⟨(hname name rfl).1, hfield field rfl⟩
      · exact .pure fun _ _ _ _ => of_none_eq_some
    · exact .pure fun _ _ _ => of_none_eq_some
  · exact yields_skip.bind fun _ _ => .pure fun _ _ _ => of_none_eq_some

theorem yields_value (isConst : Bool) (room : Nat) :
    Yields c (value isConst room) fun o => ∀ v, o = some v → v.WellFormed isConst := by
  induction room generalizing c with
  | zero => exact .throw
  | succ room ih =>
    rw [value]
    refine .get_bind (.get_bind ?_)
    dsimp only
    split
    · -- a variable
      refine yields_variableName.bind fun o _ => ?_
      split
      · rename_i name
        split
        · exact (yields_reportAt _ _ _).fault fun _ _ => .done
        · rename_i hc
          refine .pure fun _ hname v hv => ?_
          cases hv
          obtain rfl : isConst = false := by simpa using hc
          exact .variable (hname name rfl)
      · exact .pure fun _ _ => of_none_eq_some
    · rename_i hk
      refine yields_bump.bind fun t _ => .pure fun _ ht v hv => ?_
      cases hv
      exact .int ((ht _ hk).2.1.int (ht _ hk).1)
    · rename_i hk
      refine yields_bump.bind fun t _ => .pure fun _ ht v hv => ?_
      cases hv
      exact .float ((ht _ hk).2.1.float (ht _ hk).1)
    · refine yields_bump.bind fun t _ => (yields_stringValue t : Yields _ _ (Value.WellFormed isConst)).bind fun w _ =>
        .pure fun _ hw _ v hv => ?_
      cases hv
      exact hw
    · refine .get_bind ?_
      split
      · exact (yields_reportHere _).fault fun _ _ => yields_bump.bind fun _ _ => .pure fun _ _ => trivial
      · refine yields_bump.bind fun t _ => .pure fun _ _ v hv => ?_
        cases hv
        exact .string _ _
    · exact (yields_reportHere _).fault fun _ _ => yields_skip.bind fun _ _ => .pure fun _ _ => trivial
    · rename_i hk
      refine yields_bump.bind fun t _ => .pure fun _ ht v hv => ?_
      cases hv
      exact wellFormed_wordValue ((ht _ hk).2.1.name (ht _ hk).1)
    · refine yields_bump.bind fun opened _ => (yields_collect fun _ => yields_listItem fun _ => ih).bind
        fun items _ => (yields_close _ _ _).bind fun _ _ => (yields_spanFrom _).bind fun span _ =>
          .pure fun _ _ _ hitems _ v hv => ?_
      cases hv
      exact .list hitems
    · refine yields_bump.bind fun opened _ => (yields_collect fun _ => yields_objectField fun _ => ih).bind
        fun fields _ => (yields_close _ _ _).bind fun _ _ => (yields_spanFrom _).bind fun span _ =>
          .pure fun _ _ _ hfields _ v hv => ?_
      cases hv
      exact .object (fun f hf => (hfields f hf).1) fun f hf => (hfields f hf).2
    · exact .get_bind ((yields_report _ _).fault fun _ _ => .done)

/-! ## Arguments and directives -/

theorem yields_argument (isConst : Bool) (room : Nat) :
    Yields c (argument isConst room) fun o => ∀ a, o = some a → a.WellFormed isConst := by
  refine .get_bind ?_
  split
  · exact .get_bind ((yields_reportAndSkip _ _).fault fun _ _ => .done)
  · refine yields_expectName.bind fun o _ => ?_
    split
    · rename_i name
      refine (yields_expect _).bind fun o _ => ?_
      split
      · refine (yields_value isConst room).bind fun o _ => ?_
        split
        · rename_i given
          refine .pure fun _ hgiven _ hname a ha => ?_
          cases ha
          exact ⟨(hname name rfl).1, hgiven given rfl⟩
        · exact .pure fun _ _ _ _ => of_none_eq_some
      · exact .pure fun _ _ _ => of_none_eq_some
    · exact .pure fun _ _ => of_none_eq_some

theorem yields_arguments (isConst : Bool) (room : Nat) :
    Yields c (arguments isConst room) fun items => ∀ a ∈ items, a.WellFormed isConst :=
  yields_bump.bind fun _ _ => (yields_collect fun _ => yields_argument isConst room).bind fun _ _ =>
    (yields_close _ _ _).bind fun _ _ => .pure fun _ _ hitems _ => hitems

theorem yields_optionalArguments (isConst : Bool) (room : Nat) :
    Yields c (optionalArguments isConst room) fun items => ∀ a ∈ items, a.WellFormed isConst := by
  refine .get_bind ?_
  split
  · exact yields_arguments isConst room
  · exact .pure fun _ => nofun

theorem yields_directive (isConst : Bool) (room : Nat) :
    Yields c (directive isConst room) fun o => ∀ d, o = some d → d.WellFormed isConst := by
  refine yields_bump.bind fun sign _ => yields_expectName.bind fun o _ => ?_
  split
  · rename_i name
    refine (yields_optionalArguments isConst room).bind fun given _ => (yields_spanFrom _).bind fun span _ =>
      .pure fun _ _ hgiven hname _ d hd => ?_
    cases hd
    exact ⟨(hname name rfl).1, hgiven⟩
  · exact .pure fun _ _ _ => of_none_eq_some

theorem yields_directives (isConst : Bool) (room : Nat) :
    Yields c (directives isConst room) fun marks => ∀ d ∈ marks, d.WellFormed isConst :=
  yields_collect fun _ => yields_directive isConst room

/-! ## Selections -/

theorem yields_fieldName : Yields c fieldName fun o => ∀ x, o = some x →
    (∀ label, x.1 = some label → IsName label.text) ∧ IsName x.2.text := by
  refine yields_expectName.bind fun o _ => ?_
  split
  · rename_i first
    refine (yields_eat .colon).bind fun mark _ => ?_
    split
    · refine .pure fun _ _ hfirst x hx => ?_
      cases hx
      exact ⟨nofun, (hfirst first rfl).1⟩
    · refine yields_expectName.bind fun o _ => ?_
      split
      · rename_i second
        refine .pure fun _ hsecond _ hfirst x hx => ?_
        cases hx
        refine ⟨fun label hl => ?_, (hsecond second rfl).1⟩
        cases hl
        exact (hfirst first rfl).1
      · exact .pure fun _ _ _ _ => of_none_eq_some
  · exact .pure fun _ _ => of_none_eq_some

theorem yields_field {room : Nat} {body : Parse SelectionSet} (hbody : ∀ c, Yields c body SelectionSet.WellFormed) :
    Yields c (field room body) fun o => ∀ s, o = some s → s.WellFormed := by
  refine .get_bind (yields_fieldName.bind fun o _ => ?_)
  split
  · rename_i label name
    refine (yields_optionalArguments false room).bind fun given _ => (yields_directives false room).bind fun marks c' =>
      .get_bind ?_
    have hfield : ∀ (span : Span), (∀ a ∈ given, a.WellFormed false) → (∀ d ∈ marks, d.WellFormed false) →
        (∀ x, some (label, name) = some x → (∀ label, x.1 = some label → IsName label.text) ∧ IsName x.2.text) →
        Field.WellFormed ⟨label, name, given, marks, span⟩ := fun _ hgiven hmarks hname =>
      ⟨(hname _ rfl).1, (hname _ rfl).2, hgiven, hmarks⟩
    split
    · refine (hbody _).bind fun set _ => (yields_spanFrom _).bind fun span _ =>
        .pure fun _ _ hset hmarks hgiven hname s hs => ?_
      cases hs
      exact .group (hfield span hgiven hmarks hname) hset.ne_nil hset.selections
    · refine (yields_spanFrom _).bind fun span _ => .pure fun _ _ hmarks hgiven hname s hs => ?_
      cases hs
      exact .field (hfield span hgiven hmarks hname)
  · exact .pure fun _ _ => of_none_eq_some

theorem ne_of_isAtWord {a b : String} (ha : c.isAtWord a = true) (hb : c.isAtWord b = false) : a ≠ b := by
  rintro rfl
  rw [ha] at hb
  cases hb

/-- A name that is not `on` is read as the name of a spread. -/
theorem yields_spread (room start : Nat) (h : c.isAtWord "on" = false) :
    Yields c (spread room start) fun o => ∀ s, o = some s → s.WellFormed := by
  refine yields_expectName.bind fun o _ => ?_
  split
  · rename_i name
    refine (yields_directives false room).bind fun marks _ => (yields_spanFrom _).bind fun span _ =>
      .pure fun _ _ hmarks hname s hs => ?_
    cases hs
    obtain ⟨hn, hword⟩ := hname name rfl
    exact .spread ⟨hn, ne_of_isAtWord hword h, hmarks⟩
  · exact .pure fun _ _ => of_none_eq_some

theorem yields_optionalCondition : Yields c optionalCondition fun o => ∀ x, o = some x →
    ∀ type, x = some type → IsName type.text := by
  refine (yields_eatWord _).bind fun o _ => ?_
  split
  · refine .pure fun _ _ x hx => ?_
    cases hx
    exact nofun
  · refine yields_expectName.bind fun o _ => ?_
    split
    · rename_i type
      refine .pure fun _ htype _ x hx => ?_
      cases hx
      intro type' h
      cases h
      exact (htype type rfl).1
    · exact .pure fun _ _ _ => of_none_eq_some

theorem yields_inlineFragment {room start : Nat} {body : Parse SelectionSet}
    (hbody : ∀ c, Yields c body SelectionSet.WellFormed) :
    Yields c (inlineFragment room start body) fun o => ∀ s, o = some s → s.WellFormed := by
  refine yields_optionalCondition.bind fun o _ => ?_
  split
  · rename_i condition
    refine (yields_directives false room).bind fun marks _ => .get_bind ?_
    split
    · refine (hbody _).bind fun set _ => .pure fun _ hset hmarks hcondition s hs => ?_
      cases hs
      exact .inline ⟨hcondition condition rfl, hmarks⟩ hset.ne_nil hset.selections
    · exact .get_bind ((yields_report _ _).fault fun _ _ => .done)
  · exact .pure fun _ _ => of_none_eq_some

theorem yields_spreadOrInline {room : Nat} {body : Parse SelectionSet}
    (hbody : ∀ c, Yields c body SelectionSet.WellFormed) :
    Yields c (spreadOrInline room body) fun o => ∀ s, o = some s → s.WellFormed := by
  refine yields_bump.bind fun dots c' => .get_bind (.get_bind ?_)
  split
  · rename_i h
    have hne : c'.isAtWord "on" = false := by simp_all
    exact (yields_spread room dots.span.start hne).imp fun _ hs _ => hs
  · exact (yields_inlineFragment hbody).imp fun _ hs _ => hs

theorem yields_selection {room : Nat} {body : Parse SelectionSet} (hbody : ∀ c, Yields c body SelectionSet.WellFormed) :
    Yields c (selection room body) fun o => ∀ s, o = some s → s.WellFormed := by
  refine .get_bind ?_
  split
  · exact yields_field hbody
  · exact yields_spreadOrInline hbody
  · exact .get_bind ((yields_reportAndSkip _ _).fault fun _ _ => .done)

theorem yields_selectionSet (room : Nat) : Yields c (selectionSet room) SelectionSet.WellFormed := by
  induction room generalizing c with
  | zero => exact .throw
  | succ room ih =>
    rw [selectionSet]
    refine yields_bump.bind fun opened _ => (yields_collect fun _ => yields_selection fun _ => ih).bind
      fun selections _ => (yields_close _ _ _).bind fun _ _ => (yields_spanFrom _).bind fun span _ => ?_
    dsimp only
    split
    · exact (yields_reportAt _ _ _).fault fun _ _ => .done
    · rename_i h
      exact .pure fun _ _ _ hs _ => ⟨by simpa using h, hs⟩

/-! ## Recovery -/

theorem yields_recover : Yields c recover fun _ => True := yields_skipWhile _

theorem yields_skipDefinitionBody (rounds depth : Nat) : Yields c (skipDefinitionBody rounds depth) fun _ => True := by
  induction rounds generalizing c depth with
  | zero => exact .throw
  | succ rounds ih =>
    refine .get_bind ?_
    split
    · exact .done
    · refine yields_skip.bind fun _ _ => ?_
      split
      · exact (ih _).imp fun _ _ _ => trivial
      · split
        · split
          · exact .pure fun _ _ => trivial
          · exact (ih _).imp fun _ _ _ => trivial
        · exact (ih _).imp fun _ _ _ => trivial

theorem yields_skipTypeSystemDefinition : Yields c skipTypeSystemDefinition fun _ => False := by
  refine .get_bind (.get_bind ?_)
  extract_lets rest
  have hrest : ∀ c', Yields c' (rest ()) fun _ => False := fun c' =>
    .get_bind (.get_bind (yields_skip.bind fun _ _ => .get_bind ((yields_skipDefinitionBody _ _).bind fun _ _ =>
      .get_bind ((yields_reportAt _ _ _).imp fun _ h => False.elim h))))
  split
  · exact yields_skip.bind fun _ c' => (hrest c').imp fun _ h _ => h
  · exact hrest c

theorem yields_skipStray : Yields c skipStray fun _ => False := by
  refine .get_bind ?_
  split
  · exact (yields_reportAndSkip _ _).fault fun _ _ => yields_recover
  · exact (yields_reportHere _).fault fun _ _ => yields_skip.bind fun _ _ => yields_recover.imp fun _ _ _ => trivial
  · exact .get_bind ((yields_reportAndSkip _ _).fault fun _ _ => yields_recover)

theorem yields_missingSelectionSet : Yields c missingSelectionSet fun _ => False :=
  .get_bind ((yields_report _ _).fault fun _ _ => yields_recover)

/-! ## Definitions -/

theorem yields_optionalDefault (room : Nat) : Yields c (optionalDefault room) fun o => ∀ x, o = some x →
    ∀ v, x = some v → v.WellFormed true := by
  refine (yields_eat _).bind fun o _ => ?_
  split
  · refine .pure fun _ _ x hx => ?_
    cases hx
    exact nofun
  · refine (yields_value true room).bind fun o _ => ?_
    split
    · rename_i given
      refine .pure fun _ hgiven _ x hx v hv => ?_
      cases hx
      cases hv
      exact hgiven given rfl
    · exact .pure fun _ _ _ => of_none_eq_some

theorem yields_variableDefinition (room : Nat) :
    Yields c (variableDefinition room) fun o => ∀ v, o = some v → v.WellFormed := by
  refine yields_variableName.bind fun o _ => ?_
  split
  · rename_i name
    refine (yields_expect _).bind fun o _ => ?_
    split
    · refine (yields_typeRef room).bind fun o _ => ?_
      split
      · rename_i type typeSpan
        refine (yields_optionalDefault room).bind fun o _ => ?_
        split
        · rename_i initial
          refine (yields_directives true room).bind fun marks _ => (yields_spanFrom _).bind fun span _ =>
            .pure fun _ _ hmarks hinitial htype _ hname v hv => ?_
          cases hv
          exact ⟨hname name rfl, htype _ rfl, hinitial initial rfl, hmarks⟩
        · exact .pure fun _ _ _ _ _ => of_none_eq_some
      · exact .pure fun _ _ _ _ => of_none_eq_some
    · exact .pure fun _ _ _ => of_none_eq_some
  · exact .pure fun _ _ => of_none_eq_some

theorem yields_declaredVariable (room : Nat) :
    Yields c (declaredVariable room) fun o => ∀ v, o = some v → v.WellFormed := by
  refine .get_bind ?_
  split
  · exact yields_variableDefinition room
  · exact .get_bind ((yields_reportAndSkip _ _).fault fun _ _ => .done)

theorem yields_variableDefinitions (room : Nat) :
    Yields c (variableDefinitions room) fun items => ∀ v ∈ items, v.WellFormed :=
  yields_bump.bind fun _ _ => (yields_collect fun _ => yields_declaredVariable room).bind fun _ _ =>
    (yields_close _ _ _).bind fun _ _ => .pure fun _ _ hitems _ => hitems

/-- The keyword of an operation is the one of its kind. -/
theorem keyword_operationKind {word : String} (h : word ∈ operationWords) : (operationKind word).keyword = word := by
  revert word
  decide

theorem yields_namedOperation (room : Nat) :
    Yields c (namedOperation room) fun o => ∀ op, o = some op → op.WellFormed := by
  refine .get_bind (yields_bump.bind fun keyword _ => .get_bind ?_)
  extract_lets rest
  have hrest : ∀ name c', Yields c' (rest name) fun o =>
      (∀ n, name = some n → IsName n.text) → ∀ op, o = some op → op.WellFormed := by
    intro name c'
    refine .get_bind ?_
    extract_lets rest
    have hrest : ∀ declared c', Yields c' (rest declared) fun o => (∀ v ∈ declared, v.WellFormed) →
        (∀ n, name = some n → IsName n.text) → ∀ op, o = some op → op.WellFormed := by
      intro declared c'
      refine (yields_directives false room).bind fun marks _ => .get_bind ?_
      split
      · refine (yields_selectionSet room).bind fun body _ => .pure fun _ hbody hmarks hdeclared hname op hop => ?_
        cases hop
        exact ⟨hname, hdeclared, hmarks, hbody⟩
      · exact yields_missingSelectionSet.fault fun _ _ => .done
    split
    · exact (yields_variableDefinitions room).bind fun declared _ => hrest declared _
    · exact (hrest [] c').imp fun _ h => h nofun
  split
  · exact yields_expectName.bind fun name _ => (hrest name _).imp fun _ h hname _ => h fun n hn => (hname n hn).1
  · exact (hrest none _).imp fun _ h _ => h nofun

theorem yields_shorthandOperation (room : Nat) : Yields c (shorthandOperation room) Operation.WellFormed :=
  .get_bind ((yields_selectionSet room).bind fun _ _ => .pure fun _ hbody => ⟨nofun, nofun, nofun, hbody⟩)

theorem yields_fragment (room : Nat) : Yields c (fragment room) fun o => ∀ frag, o = some frag → frag.WellFormed := by
  refine .get_bind (yields_skip.bind fun _ c => .get_bind ?_)
  split
  · exact (yields_report _ _).fault fun _ _ => yields_recover.bind fun _ _ => .pure fun _ _ => trivial
  · rename_i hon
    refine yields_expectName.bind fun o _ => ?_
    split
    · rename_i name
      refine (yields_expectWord _).bind fun o _ => ?_
      split
      · refine yields_expectName.bind fun o _ => ?_
        split
        · rename_i condition
          refine (yields_directives false room).bind fun marks _ => .get_bind ?_
          split
          · refine (yields_selectionSet room).bind fun body _ =>
              .pure fun _ hbody hmarks hcondition _ hname _ frag hf => ?_
            cases hf
            obtain ⟨hn, hword⟩ := hname name rfl
            exact ⟨hn, ne_of_isAtWord hword (by simpa using hon), (hcondition condition rfl).1, hmarks, hbody⟩
          · exact yields_missingSelectionSet.fault fun _ _ => .done
        · exact yields_recover.bind fun _ _ => .pure fun _ _ _ _ _ _ => of_none_eq_some
      · exact yields_recover.bind fun _ _ => .pure fun _ _ _ _ _ => of_none_eq_some
    · exact yields_recover.bind fun _ _ => .pure fun _ _ _ _ => of_none_eq_some

theorem yields_definition (room : Nat) : Yields c (definition room) fun o => ∀ d, o = some d → d.WellFormed := by
  refine .get_bind ?_
  split
  · refine (yields_shorthandOperation room).bind fun op _ => .pure fun _ hop d hd => ?_
    cases hd
    exact .operation hop
  · split
    · refine (yields_fragment room).bind fun o _ => .pure fun _ hfrag d hd => ?_
      obtain ⟨frag, hf, rfl⟩ := Option.map_eq_some_iff.1 hd
      exact .fragment (hfrag frag hf)
    · split
      · refine (yields_namedOperation room).bind fun o _ => .pure fun _ hop d hd => ?_
        obtain ⟨op, ho, rfl⟩ := Option.map_eq_some_iff.1 hd
        exact .operation (hop op ho)
      · split
        · exact yields_skipTypeSystemDefinition.fault fun _ _ => .done
        · exact yields_skipStray.fault fun _ _ => .done

theorem yields_document (room : Nat) : Yields c (document room) Document.WellFormed := by
  refine (yields_collect (Q := Definition.WellFormed) fun c => yields_definition room).bind fun definitions c' =>
    .get_bind ?_
  dsimp only
  split
  · exact (yields_reportHere _).fault fun _ _ => .done
  · rename_i h
    refine .pure fun hn hd => ⟨fun he => h ?_, hd⟩
    subst he
    simp [hn]

end Nodes

theorem Cursor.valid_ofText (text : String) (allowance : Option Nat) : (Cursor.ofText text allowance).Valid :=
  ⟨fun _ ht => isSound_of_mem_scan (List.mem_filter.1 ht).1, fun h => absurd rfl h⟩

end QueryBatch.Parse

namespace QueryBatch

/-- A document that is read without diagnostics is well-formed. -/
theorem Document.wellFormed_of_read {text : String} {limits : Parse.Limits} {d : Document} {n : Nat}
    (h : Document.read text limits = .ok ⟨d, [], n⟩) : d.WellFormed := by
  simp only [Document.read, StateT.run] at h
  split at h
  · rename_i document final hrun
    obtain ⟨-, hread⟩ := Parse.yields_document _ (Parse.Cursor.valid_ofText text limits.steps) hrun
    simp only [Except.ok.injEq, ParsedDocument.mk.injEq] at h
    obtain ⟨rfl, hreports, -⟩ := h
    exact (hread hreports).2
  · cases h

end QueryBatch
