import QueryBatch.Parse.Document
import QueryBatch.Proofs.Document.Respanned
import QueryBatch.Proofs.Token.Lexeme

/-!
# What a parse within limits takes and yields

* `Runs c p p' Q`: whatever the parser `p` does from `c` within its limits, `p'` does without any. It takes tokens off
  the front, and what it yields stands in the relation `Q` to them.
* `Parted`: the items of a list were read one after the other.
* `runs_value`, `runs_selectionSet`, `runs_document`, …: every parser runs so, if the other one has as much room.
* `Document.read_agrees`: so two parses of a text that stop at no limit yield the same.
* `Document.nodup_fieldSpans_of_read`: and no two fields of a definition stand in one place.
-/

namespace QueryBatch.Parse

/-- A cursor without a limit of steps. -/
def Cursor.free (c : Cursor) : Cursor := { c with allowance := none }

/-- Whatever a parser does within its limits, another one does without any. It takes tokens off the front, which stand
in a relation to what it yields. -/
def Runs {α : Type} (c : Cursor) (p p' : Parse α) (Q : List Token → α → Prop) : Prop :=
  ∀ ⦃a d⦄, p c = .ok (a, d) → p' c.free = .ok (a, d.free) ∧ ∃ taken, c.rest = taken ++ d.rest ∧ Q taken a

/-! ## Rules -/

namespace Runs

variable {α β : Type} {c : Cursor} {p p' : Parse α} {f f' : α → Parse β} {R : List Token → α → Prop}
  {Q : List Token → β → Prop}

theorem pure {b : β} (h : Q [] b) : Runs c (Pure.pure b) (Pure.pure b) Q := by
  intro a d hr
  cases hr
  exact ⟨rfl, [], rfl, h⟩

theorem bind (hp : Runs c p p' R)
    (hf : ∀ a d, Runs d (f a) (f' a) fun more b => ∀ taken, R taken a → Q (taken ++ more) b) :
    Runs c (p >>= f) (p' >>= f') Q := by
  intro b d' hr
  obtain ⟨a, d, hpc, hrun⟩ := bind_eq_ok.1 hr
  obtain ⟨hp', taken, htaken, hR⟩ := hp hpc
  obtain ⟨hf', more, hmore, hQ⟩ := hf a d hrun
  exact ⟨bind_eq_ok.2 ⟨a, _, hp', hf'⟩, taken ++ more, by rw [htaken, hmore, List.append_assoc], hQ taken hR⟩

/-- What is yielded need not be looked at. -/
theorem andThen (hp : Runs c p p' R) (hf : ∀ a d, Runs d (f a) (f' a) fun _ _ => True) :
    Runs c (p >>= f) (p' >>= f') fun _ _ => True := by
  refine hp.bind fun a d => ?_
  intro b d' hr
  obtain ⟨hf', more, hmore, -⟩ := hf a d hr
  exact ⟨hf', more, hmore, fun _ _ => trivial⟩

/-- A look at the cursor, save its limit. -/
theorem get_bind {f f' : Cursor → Parse β} (hfree : f' c.free = f' c) (h : Runs c (f c) (f' c) Q) :
    Runs c (get >>= f) (get >>= f') Q := by
  intro b d hr
  obtain ⟨hf', htaken⟩ := h hr
  refine ⟨?_, htaken⟩
  show f' c.free c.free = _
  rw [hfree, hf']

theorem throw {stop : Stop} {p' : Parse β} : Runs c (throw stop) p' Q := nofun

theorem imp {Q' : List Token → β → Prop} {p p' : Parse β} (h : Runs c p p' Q) (hq : ∀ taken b, Q taken b → Q' taken b) :
    Runs c p p' Q' := by
  intro b d hr
  obtain ⟨hp', taken, htaken, hQ⟩ := h hr
  exact ⟨hp', taken, htaken, hq taken b hQ⟩

theorem trivial {p p' : Parse β} (h : Runs c p p' Q) : Runs c p p' fun _ _ => True := h.imp fun _ _ _ => True.intro

theorem done {b : β} : Runs c (Pure.pure b) (Pure.pure b) fun _ _ => True := .pure True.intro

end Runs

/-! ## Moves -/

/-- Tokens that start where a cursor stands. -/
def Cursor.Starts (c : Cursor) (taken : List Token) : Prop := ∃ t more, taken = t :: more ∧ t.span = c.span

section Moves

variable {c : Cursor}

theorem Cursor.Starts.append {taken : List Token} (h : c.Starts taken) (more : List Token) :
    c.Starts (taken ++ more) := by
  obtain ⟨t, rest, rfl, ht⟩ := h
  exact ⟨t, rest ++ more, rfl, ht⟩

theorem runs_bump : Runs c bump bump fun taken _ => c.rest ≠ [] → c.Starts taken := by
  intro t d hr
  obtain ⟨rest, textEnd, allowance, steps, consumedEnd, lastReport, reports⟩ := c
  unfold bump at hr
  split at hr
  · cases hr
  · cases rest with
    | nil =>
      cases hr
      exact ⟨rfl, [], rfl, fun h => absurd rfl h⟩
    | cons t rest =>
      cases hr
      exact ⟨rfl, [t], rfl, fun _ => ⟨t, [], rfl, rfl⟩⟩

theorem runs_skip : Runs c skip skip fun _ _ => True := runs_bump.andThen fun _ _ => .done

theorem Cursor.rest_ne_nil_of_isAt {kind : TokenKind} (h : c.isAt kind = true) : c.rest ≠ [] := by
  intro hnil
  simp [isAt, kind?, hnil] at h

theorem runs_eat (kind : TokenKind) : Runs c (eat kind) (eat kind) fun taken o => o ≠ none → c.Starts taken := by
  refine .get_bind rfl ?_
  split
  · rename_i h
    refine runs_bump.bind fun t _ => .pure fun taken htaken _ => ?_
    rw [List.append_nil]
    exact htaken (Cursor.rest_ne_nil_of_isAt h)
  · exact .pure fun h => absurd rfl h

theorem runs_eatWord (word : String) : Runs c (eatWord word) (eatWord word) fun _ _ => True := by
  refine .get_bind rfl ?_
  split
  · exact runs_bump.andThen fun _ _ => .done
  · exact .done

theorem runs_spanFrom (start : Nat) :
    Runs c (spanFrom start) (spanFrom start) fun _ span => span.start = start :=
  .get_bind rfl (.pure rfl)

/-! ## Reports -/

theorem runs_reportOnceAt (start : Nat) (d : Diagnostic) :
    Runs c (reportOnceAt start d) (reportOnceAt start d) fun _ _ => True := by
  intro a d' hr
  rw [reportOnceAt_run] at hr ⊢
  cases hr
  by_cases h : c.lastReport = some start
  · have h' : c.free.lastReport = some start := h
    rw [if_pos h, if_pos h']
    exact ⟨rfl, [], rfl, trivial⟩
  · have h' : c.free.lastReport ≠ some start := h
    rw [if_neg h, if_neg h']
    exact ⟨rfl, [], rfl, trivial⟩

theorem runs_reportHere (kind : Diagnostic.Kind) : Runs c (reportHere kind) (reportHere kind) fun _ _ => True :=
  .get_bind rfl (runs_reportOnceAt _ _)

theorem runs_reportAt (kind : Diagnostic.Kind) (span : Span) (detail : String) :
    Runs c (reportAt kind span detail) (reportAt kind span detail) fun _ _ => True := runs_reportOnceAt _ _

theorem runs_report (kind : Diagnostic.Kind) (detail : String) :
    Runs c (report kind detail) (report kind detail) fun _ _ => True :=
  .get_bind rfl (runs_reportAt _ _ _)

theorem runs_reportAndSkip (kind : Diagnostic.Kind) (detail : String) :
    Runs c (reportAndSkip kind detail) (reportAndSkip kind detail) fun _ _ => True :=
  (runs_report kind detail).andThen fun _ _ => runs_skip

theorem runs_reportUnclosed (closer : String) (opened : Span) :
    Runs c (reportUnclosed closer opened) (reportUnclosed closer opened) fun _ _ => True :=
  .get_bind rfl (runs_reportOnceAt _ _)

/-! ## Expectations -/

theorem runs_expect (kind : TokenKind) : Runs c (expect kind) (expect kind) fun _ _ => True := by
  refine (runs_eat kind).andThen fun o _ => ?_
  cases o with
  | some t => exact .done
  | none => exact .get_bind rfl ((runs_report _ _).andThen fun _ _ => .done)

theorem runs_expectWord (word : String) : Runs c (expectWord word) (expectWord word) fun _ _ => True := by
  refine (runs_eatWord word).andThen fun o _ => ?_
  cases o with
  | some t => exact .done
  | none => exact .get_bind rfl ((runs_report _ _).andThen fun _ _ => .done)

/-- A name that is read is the next token. -/
theorem runs_expectName : Runs c expectName expectName fun taken o => o ≠ none → c.Starts taken := by
  refine (runs_eat .name).bind fun o _ => ?_
  cases o with
  | some t =>
    refine .pure fun taken htaken _ => ?_
    rw [List.append_nil]
    exact htaken (Option.some_ne_none t)
  | none =>
    refine .get_bind rfl ((runs_report _ _).bind fun _ _ => .pure fun _ _ _ _ h => absurd rfl h)

theorem runs_close (kind : TokenKind) (closer : String) (opened : Span) :
    Runs c (close kind closer opened) (close kind closer opened) fun _ _ => True := by
  refine (runs_eat kind).andThen fun o _ => ?_
  split
  · exact runs_reportUnclosed _ _
  · exact .done

end Moves

/-! ## Rounds -/

/-- Items that were read one after the other, each from some of the tokens. -/
inductive Parted {α : Type} (R : List Token → α → Prop) : List Token → List α → Prop
  | nil (taken : List Token) : Parted R taken []
  | skip {items : List α} (skipped : List Token) {taken : List Token} : Parted R taken items →
      Parted R (skipped ++ taken) items
  | cons {a : α} {items : List α} {taken more : List Token} : R taken a → Parted R more items →
      Parted R (taken ++ more) (a :: items)

section Rounds

variable {c : Cursor} {α : Type} {more : Cursor → Bool} {step step' : Parse (Option α)} {R : List Token → α → Prop}

theorem runs_collectRounds (hmore : ∀ c, more c.free = more c)
    (h : ∀ c, Runs c step step' fun taken o => ∀ a, o = some a → R taken a) (rounds : Nat) (found : List α) :
    Runs c (collectRounds more step rounds found) (collectRounds more step' rounds found) fun taken items =>
      ∃ new, items = found.reverse ++ new ∧ Parted R taken new := by
  induction rounds generalizing c found with
  | zero => exact .throw
  | succ rounds ih =>
    refine .get_bind (by rw [hmore]) ?_
    split
    · refine (h c).bind fun o _ => ?_
      cases o with
      | none =>
        refine (ih found).imp fun rest items hitems taken _ => ?_
        obtain ⟨new, rfl, hnew⟩ := hitems
        exact ⟨new, rfl, .skip taken hnew⟩
      | some a =>
        refine (ih (a :: found)).imp fun rest items hitems taken ha => ?_
        obtain ⟨new, rfl, hnew⟩ := hitems
        exact ⟨a :: new, by simp, .cons (ha a rfl) hnew⟩
    · exact .pure ⟨[], (List.append_nil _).symm, .nil []⟩

theorem runs_collect (hmore : ∀ c, more c.free = more c)
    (h : ∀ c, Runs c step step' fun taken o => ∀ a, o = some a → R taken a) :
    Runs c (collect more step) (collect more step') (Parted R) := by
  refine .get_bind rfl ((runs_collectRounds hmore h _ []).imp fun taken items hitems => ?_)
  obtain ⟨new, rfl, hnew⟩ := hitems
  exact hnew

/-- The items need not be looked at. -/
theorem runs_collect_trivial (hmore : ∀ c, more c.free = more c) (h : ∀ c, Runs c step step' fun _ _ => True) :
    Runs c (collect more step) (collect more step') fun _ _ => True :=
  (runs_collect (R := fun _ _ => True) hmore fun c => (h c).imp fun _ _ _ _ _ => trivial).trivial

theorem runs_skipWhile (hmore : ∀ c, more c.free = more c) :
    Runs c (skipWhile more) (skipWhile more) fun _ _ => True :=
  (runs_collect_trivial hmore fun _ => runs_skip.andThen fun _ _ => .done).andThen fun _ _ => .done

end Rounds

/-! ## Places -/

/-- Spans that start, one after the other, where some of the tokens start. -/
def StandsAt (taken : List Token) (spans : List Span) : Prop :=
  (spans.map Span.start).Sublist (taken.map fun t => t.span.start)

namespace StandsAt

variable {taken more : List Token} {spans : List Span}

theorem nil (taken : List Token) : StandsAt taken [] := List.nil_sublist _

theorem append {spans' : List Span} (h : StandsAt taken spans) (h' : StandsAt more spans') :
    StandsAt (taken ++ more) (spans ++ spans') := by
  unfold StandsAt
  rw [List.map_append, List.map_append]
  exact List.Sublist.append h h'

theorem append_right (h : StandsAt taken spans) (more : List Token) : StandsAt (taken ++ more) spans := by
  simpa using h.append (.nil more)

theorem append_left (h : StandsAt more spans) (taken : List Token) : StandsAt (taken ++ more) spans := by
  simpa using (nil taken).append h

theorem cons {c : Cursor} {span : Span} (ht : c.Starts taken) (hspan : span.start = c.span.start)
    (h : StandsAt more spans) : StandsAt (taken ++ more) (span :: spans) := by
  obtain ⟨t, rest, rfl, ht⟩ := ht
  unfold StandsAt
  rw [List.cons_append, List.map_cons, List.map_cons, hspan, ht]
  exact (h.append_left rest).cons_cons _

end StandsAt

theorem Parted.standsAt {taken : List Token} {selections : List Selection}
    (h : Parted (fun taken selection => StandsAt taken selection.fieldSpans) taken selections) :
    StandsAt taken (Selection.fieldSpansIn selections) := by
  induction h with
  | nil taken => exact .nil taken
  | skip skipped _ ih => exact ih.append_left skipped
  | cons ha _ ih => exact ha.append ih

theorem Parted.forall_standsAt {α : Type} {places : α → List Span} {taken : List Token} {items : List α}
    (h : Parted (fun taken item => StandsAt taken (places item)) taken items) :
    ∀ item ∈ items, StandsAt taken (places item) := by
  induction h with
  | nil taken => nofun
  | skip skipped _ ih => exact fun item hitem => (ih item hitem).append_left skipped
  | cons ha _ ih =>
    intro item hitem
    rcases List.mem_cons.1 hitem with rfl | hitem
    · exact ha.append_right _
    · exact (ih item hitem).append_left _

/-! ## Types and values -/

section Nodes

variable {c : Cursor} {room room' : Nat}

theorem runs_typeRef (hroom : room ≤ room') : Runs c (typeRef room) (typeRef room') fun _ _ => True := by
  induction room generalizing c room' with
  | zero => exact .throw
  | succ room ih =>
    obtain ⟨room', rfl⟩ : ∃ n, room' = n + 1 := ⟨room' - 1, by omega⟩
    rw [typeRef, typeRef]
    refine .get_bind rfl (.get_bind rfl ?_)
    extract_lets rest
    have hrest : ∀ inner d, Runs d (rest inner) (rest inner) fun _ _ => True := by
      intro inner d
      cases inner with
      | none => exact .done
      | some type => exact (runs_eat .bang).andThen fun _ _ => (runs_spanFrom _).andThen fun _ _ => .done
    have hother : Runs c (do report .expectedType ("found " ++ (← get).found); rest none)
        (do report .expectedType ("found " ++ (← get).found); rest none) fun _ _ => True :=
      .get_bind rfl ((runs_report _ _).andThen fun _ d => hrest none d)
    generalize c.kind? = kind
    cases kind with
    | none => exact hother
    | some kind =>
      cases kind
      case lBracket =>
        exact runs_bump.andThen fun opened _ => (ih (by omega)).andThen fun item _ =>
          (runs_close _ _ _).andThen fun _ d => hrest _ d
      case name => exact runs_expectName.andThen fun name d => hrest _ d
      all_goals exact hother

theorem runs_variableName : Runs c variableName variableName fun _ _ => True := by
  refine (runs_expect .dollar).andThen fun dollar _ => ?_
  cases dollar with
  | none => exact .done
  | some dollar =>
    refine runs_expectName.andThen fun name _ => ?_
    cases name with
    | none => exact .done
    | some name => exact .done

theorem runs_stringValue (t : Token) : Runs c (stringValue t) (stringValue t) fun _ _ => True := by
  unfold stringValue
  split
  · exact .done
  · exact (runs_reportAt _ _ _).andThen fun _ _ => .done

theorem runs_value (isConst : Bool) (hroom : room ≤ room') :
    Runs c (value isConst room) (value isConst room') fun _ _ => True := by
  induction room generalizing c room' with
  | zero => exact .throw
  | succ room ih =>
    obtain ⟨room', rfl⟩ : ∃ n, room' = n + 1 := ⟨room' - 1, by omega⟩
    have hvalue : ∀ c, Runs c (value isConst room) (value isConst room') fun _ _ => True := fun _ => ih (by omega)
    rw [value, value]
    refine .get_bind rfl (.get_bind rfl ?_)
    dsimp only
    have hother : Runs c (do report .expectedValue ("found " ++ (← get).found); return (none : Option Value))
        (do report .expectedValue ("found " ++ (← get).found); return none) fun _ _ => True :=
      .get_bind rfl ((runs_report _ _).andThen fun _ _ => .done)
    generalize c.kind? = kind
    cases kind with
    | none => exact hother
    | some kind =>
      cases kind
      case dollar =>
        refine runs_variableName.andThen fun name _ => ?_
        cases name with
        | none => exact .done
        | some name =>
          dsimp only
          split
          · exact (runs_reportAt _ _ _).andThen fun _ _ => .done
          · exact .done
      case int => exact runs_bump.andThen fun _ _ => .done
      case float => exact runs_bump.andThen fun _ _ => .done
      case string => exact runs_bump.andThen fun t _ => (runs_stringValue t).andThen fun _ _ => .done
      case blockString =>
        refine .get_bind rfl ?_
        split
        · exact (runs_reportHere _).andThen fun _ _ => runs_bump.andThen fun _ _ => .done
        · exact runs_bump.andThen fun _ _ => .done
      case unterminatedString =>
        exact (runs_reportHere _).andThen fun _ _ => runs_skip.andThen fun _ _ => .done
      case name => exact runs_bump.andThen fun _ _ => .done
      case lBracket =>
        refine runs_bump.andThen fun opened _ =>
          (runs_collect_trivial (fun _ => rfl) fun c => ?_).andThen fun items _ =>
          (runs_close _ _ _).andThen fun _ _ => (runs_spanFrom _).andThen fun _ _ => .done
        refine (hvalue c).andThen fun item _ => ?_
        cases item with
        | some item => exact .done
        | none =>
          refine .get_bind rfl ?_
          split
          · exact runs_skip.andThen fun _ _ => .done
          · exact .done
      case lBrace =>
        refine runs_bump.andThen fun opened _ =>
          (runs_collect_trivial (fun _ => rfl) fun c => ?_).andThen fun items _ =>
          (runs_close _ _ _).andThen fun _ _ => (runs_spanFrom _).andThen fun _ _ => .done
        refine runs_expectName.andThen fun name _ => ?_
        cases name with
        | none => exact runs_skip.andThen fun _ _ => .done
        | some name =>
          refine (runs_expect _).andThen fun colon _ => ?_
          cases colon with
          | none => exact .done
          | some colon =>
            refine (hvalue _).andThen fun field _ => ?_
            cases field <;> exact .done
      all_goals exact hother

/-! ## Arguments and directives -/

theorem runs_arguments (isConst : Bool) (hroom : room ≤ room') :
    Runs c (arguments isConst room) (arguments isConst room') fun _ _ => True := by
  refine runs_bump.andThen fun opened _ => (runs_collect_trivial (fun _ => rfl) fun c => ?_).andThen fun items _ =>
    (runs_close _ _ _).andThen fun _ _ => .done
  refine .get_bind rfl ?_
  split
  · exact .get_bind rfl ((runs_reportAndSkip _ _).andThen fun _ _ => .done)
  · refine runs_expectName.andThen fun name _ => ?_
    cases name with
    | none => exact .done
    | some name =>
      refine (runs_expect _).andThen fun colon _ => ?_
      cases colon with
      | none => exact .done
      | some colon =>
        refine (runs_value isConst hroom).andThen fun given _ => ?_
        cases given <;> exact .done

theorem runs_optionalArguments (isConst : Bool) (hroom : room ≤ room') :
    Runs c (optionalArguments isConst room) (optionalArguments isConst room') fun _ _ => True := by
  refine .get_bind rfl ?_
  split
  · exact runs_arguments isConst hroom
  · exact .done

theorem runs_directives (isConst : Bool) (hroom : room ≤ room') :
    Runs c (directives isConst room) (directives isConst room') fun _ _ => True := by
  refine runs_collect_trivial (fun _ => rfl) fun c =>
    runs_bump.andThen fun sign _ => runs_expectName.andThen fun name _ => ?_
  cases name with
  | none => exact .done
  | some name =>
    exact (runs_optionalArguments isConst hroom).andThen fun _ _ => (runs_spanFrom _).andThen fun _ _ => .done

/-! ## Selections -/

theorem runs_fieldName : Runs c fieldName fieldName fun taken o => o ≠ none → c.Starts taken := by
  refine runs_expectName.bind fun first _ => ?_
  cases first with
  | none => exact .pure fun _ _ h => absurd rfl h
  | some first =>
    refine (runs_eat .colon).bind fun colon _ => ?_
    cases colon with
    | none => exact .pure fun _ _ _ hfirst _ => (hfirst nofun).append _
    | some colon =>
      refine runs_expectName.bind fun second _ => ?_
      cases second <;> exact .pure fun _ _ _ _ _ hfirst _ => (hfirst nofun).append _

/-- The fields of a selection stand at tokens that were read for it. -/
abbrev StandsIn (taken : List Token) (o : Option Selection) : Prop := ∀ s, o = some s → StandsAt taken s.fieldSpans

theorem standsIn_none {taken : List Token} : StandsIn taken none := fun _ hs => absurd hs (Option.some_ne_none _).symm

abbrev SetStandsIn (taken : List Token) (set : SelectionSet) : Prop :=
  StandsAt taken (Selection.fieldSpansIn set.selections)

variable {body body' : Parse SelectionSet}

theorem runs_field (hroom : room ≤ room') (hbody : ∀ c, Runs c body body' SetStandsIn) :
    Runs c (field room body) (field room' body') StandsIn := by
  refine .get_bind rfl (runs_fieldName.bind fun o _ => ?_)
  cases o with
  | none => exact .pure fun _ _ => standsIn_none
  | some names =>
    obtain ⟨label, name⟩ := names
    refine (runs_optionalArguments false hroom).bind fun given _ => (runs_directives false hroom).bind fun marks _ =>
      .get_bind rfl ?_
    split
    · refine (hbody _).bind fun set _ => (runs_spanFrom _).bind fun span _ => .pure ?_
      intro _ hspan _ hset _ _ _ _ _ hname s hs
      cases hs
      exact .cons (hname nofun) hspan ((((hset.append_right _).append_left _).append_left _))
    · refine (runs_spanFrom _).bind fun span _ => .pure ?_
      intro _ hspan _ _ _ _ _ hname s hs
      cases hs
      exact .cons (hname nofun) hspan (.nil _)

theorem runs_spread (start : Nat) (hroom : room ≤ room') :
    Runs c (spread room start) (spread room' start) StandsIn := by
  refine runs_expectName.bind fun name _ => ?_
  cases name with
  | none => exact .pure fun _ _ => standsIn_none
  | some name =>
    refine (runs_directives false hroom).bind fun marks _ => (runs_spanFrom _).bind fun span _ => .pure ?_
    intro _ _ _ _ _ _ s hs
    cases hs
    exact .nil _

theorem runs_optionalCondition : Runs c optionalCondition optionalCondition fun _ _ => True := by
  refine (runs_eatWord _).andThen fun on _ => ?_
  cases on with
  | none => exact .done
  | some on =>
    refine runs_expectName.andThen fun type _ => ?_
    cases type <;> exact .done

theorem runs_inlineFragment (start : Nat) (hroom : room ≤ room') (hbody : ∀ c, Runs c body body' SetStandsIn) :
    Runs c (inlineFragment room start body) (inlineFragment room' start body') StandsIn := by
  refine runs_optionalCondition.bind fun condition _ => ?_
  cases condition with
  | none => exact .pure fun _ _ => standsIn_none
  | some condition =>
    refine (runs_directives false hroom).bind fun marks _ => .get_bind rfl ?_
    split
    · refine (hbody _).bind fun set _ => .pure ?_
      intro _ hset _ _ _ _ s hs
      cases hs
      exact (((hset.append_right _).append_left _).append_left _)
    · exact .get_bind rfl ((runs_report _ _).bind fun _ _ => .pure fun _ _ _ _ _ _ => standsIn_none)

theorem runs_spreadOrInline (hroom : room ≤ room') (hbody : ∀ c, Runs c body body' SetStandsIn) :
    Runs c (spreadOrInline room body) (spreadOrInline room' body') StandsIn := by
  refine runs_bump.bind fun dots _ => .get_bind rfl (.get_bind rfl ?_)
  split
  · exact (runs_spread _ hroom).imp fun _ _ hs _ _ s h => (hs s h).append_left _
  · exact (runs_inlineFragment _ hroom hbody).imp fun _ _ hs _ _ s h => (hs s h).append_left _

theorem runs_selectionSet (hroom : room ≤ room') :
    Runs c (selectionSet room) (selectionSet room') SetStandsIn := by
  induction room generalizing c room' with
  | zero => exact .throw
  | succ room ih =>
    obtain ⟨room', rfl⟩ : ∃ n, room' = n + 1 := ⟨room' - 1, by omega⟩
    have hset : ∀ c, Runs c (selectionSet room) (selectionSet room') SetStandsIn := fun _ => ih (by omega)
    rw [selectionSet, selectionSet]
    refine runs_bump.bind fun opened _ =>
      (runs_collect (R := fun taken s => StandsAt taken s.fieldSpans) (fun _ => rfl) fun c => .get_bind rfl ?_).bind
        fun selections _ => (runs_close _ _ _).bind fun _ _ => (runs_spanFrom _).bind fun span _ => ?_
    · have hother : Runs c
          (do reportAndSkip .unexpectedToken ("expected a field or fragment spread, found " ++ (← get).found)
              return (none : Option Selection))
          (do reportAndSkip .unexpectedToken ("expected a field or fragment spread, found " ++ (← get).found)
              return none) StandsIn :=
        .get_bind rfl ((runs_reportAndSkip _ _).bind fun _ _ => .pure fun _ _ => standsIn_none)
      generalize c.kind? = kind
      cases kind with
      | none => exact hother
      | some kind =>
        cases kind
        case name => exact runs_field (by omega) hset
        case spread => exact runs_spreadOrInline (by omega) hset
        all_goals exact hother
    · dsimp only
      split
      · refine (runs_reportAt _ _ _).bind fun _ _ => .pure ?_
        intro _ _ _ _ _ _ _ hselections _ _
        exact (hselections.standsAt.append_right _).append_left _
      · refine .pure ?_
        intro _ _ _ _ _ hselections _ _
        exact (hselections.standsAt.append_right _).append_left _

/-! ## Recovery -/

theorem runs_recover : Runs c recover recover fun _ _ => True := runs_skipWhile fun _ => rfl

theorem runs_skipDefinitionBody (rounds depth : Nat) :
    Runs c (skipDefinitionBody rounds depth) (skipDefinitionBody rounds depth) fun _ _ => True := by
  induction rounds generalizing c depth with
  | zero => exact .throw
  | succ rounds ih =>
    refine .get_bind rfl ?_
    split
    · exact .done
    · refine runs_skip.andThen fun _ _ => ?_
      split
      · exact ih _
      · split
        · split
          · exact .done
          · exact ih _
        · exact ih _

theorem runs_skipTypeSystemDefinition :
    Runs c skipTypeSystemDefinition skipTypeSystemDefinition fun _ _ => True := by
  refine .get_bind rfl (.get_bind rfl ?_)
  extract_lets rest
  have hrest : ∀ d, Runs d (rest ()) (rest ()) fun _ _ => True := fun d =>
    .get_bind rfl (.get_bind rfl (runs_skip.andThen fun _ _ => .get_bind rfl ((runs_skipDefinitionBody _ _).andThen
      fun _ _ => .get_bind rfl (runs_reportAt _ _ _))))
  split
  · exact runs_skip.andThen fun _ d => hrest d
  · exact hrest c

theorem runs_skipStray : Runs c skipStray skipStray fun _ _ => True := by
  refine .get_bind rfl ?_
  split
  · exact (runs_reportAndSkip _ _).andThen fun _ _ => runs_recover
  · exact (runs_reportHere _).andThen fun _ _ => runs_skip.andThen fun _ _ => runs_recover
  · exact .get_bind rfl ((runs_reportAndSkip _ _).andThen fun _ _ => runs_recover)

theorem runs_missingSelectionSet : Runs c missingSelectionSet missingSelectionSet fun _ _ => True :=
  .get_bind rfl ((runs_report _ _).andThen fun _ _ => runs_recover)

/-! ## Definitions -/

theorem runs_optionalDefault (hroom : room ≤ room') :
    Runs c (optionalDefault room) (optionalDefault room') fun _ _ => True := by
  refine (runs_eat _).andThen fun equals _ => ?_
  cases equals with
  | none => exact .done
  | some equals =>
    refine (runs_value true hroom).andThen fun given _ => ?_
    cases given <;> exact .done

theorem runs_variableDefinition (hroom : room ≤ room') :
    Runs c (variableDefinition room) (variableDefinition room') fun _ _ => True := by
  refine runs_variableName.andThen fun name _ => ?_
  cases name with
  | none => exact .done
  | some name =>
    refine (runs_expect _).andThen fun colon _ => ?_
    cases colon with
    | none => exact .done
    | some colon =>
      refine (runs_typeRef hroom).andThen fun type _ => ?_
      cases type with
      | none => exact .done
      | some type =>
        obtain ⟨type, typeSpan⟩ := type
        refine (runs_optionalDefault hroom).andThen fun initial _ => ?_
        cases initial with
        | none => exact .done
        | some initial =>
          exact (runs_directives true hroom).andThen fun _ _ => (runs_spanFrom _).andThen fun _ _ => .done

theorem runs_variableDefinitions (hroom : room ≤ room') :
    Runs c (variableDefinitions room) (variableDefinitions room') fun _ _ => True := by
  refine runs_bump.andThen fun opened _ => (runs_collect_trivial (fun _ => rfl) fun c => .get_bind rfl ?_).andThen
    fun items _ => (runs_close _ _ _).andThen fun _ _ => .done
  split
  · exact runs_variableDefinition hroom
  · exact .get_bind rfl ((runs_reportAndSkip _ _).andThen fun _ _ => .done)

/-- The fields of a definition stand at tokens that were read for it. -/
abbrev BodyStandsIn {α : Type} (body : α → SelectionSet) (taken : List Token) (o : Option α) : Prop :=
  ∀ a, o = some a → SetStandsIn taken (body a)

theorem runs_namedOperation (hroom : room ≤ room') :
    Runs c (namedOperation room) (namedOperation room') (BodyStandsIn Operation.body) := by
  refine .get_bind rfl (runs_bump.bind fun keyword _ => .get_bind rfl ?_)
  extract_lets rest rest'
  have hrest : ∀ name d, Runs d (rest name) (rest' name) (BodyStandsIn Operation.body) := by
    intro name d
    refine .get_bind rfl ?_
    extract_lets rest rest'
    have hrest : ∀ declared d, Runs d (rest declared) (rest' declared) (BodyStandsIn Operation.body) := by
      intro declared d
      refine (runs_directives false hroom).bind fun marks _ => .get_bind rfl ?_
      split
      · refine (runs_selectionSet hroom).bind fun body _ => .pure ?_
        intro _ hbody _ _ op hop
        cases hop
        exact (hbody.append_right _).append_left _
      · exact runs_missingSelectionSet.bind fun _ _ => .pure fun _ _ _ _ => nofun
    split
    · exact (runs_variableDefinitions hroom).bind fun declared d => (hrest declared d).imp
        fun _ _ hbody _ _ op hop => (hbody op hop).append_left _
    · exact hrest [] d
  split
  · exact runs_expectName.bind fun name d => (hrest name d).imp
      fun _ _ hbody _ _ _ _ op hop => ((hbody op hop).append_left _).append_left _
  · exact (hrest none _).imp fun _ _ hbody _ _ op hop => (hbody op hop).append_left _

theorem runs_shorthandOperation (hroom : room ≤ room') :
    Runs c (shorthandOperation room) (shorthandOperation room') fun taken op => SetStandsIn taken op.body :=
  .get_bind rfl ((runs_selectionSet hroom).bind fun _ _ => .pure fun _ hbody => hbody.append_right _)

theorem runs_fragment (hroom : room ≤ room') :
    Runs c (fragment room) (fragment room') (BodyStandsIn Fragment.body) := by
  refine .get_bind rfl (runs_skip.bind fun _ d => .get_bind rfl ?_)
  split
  · exact (runs_report _ _).bind fun _ _ => runs_recover.bind fun _ _ => .pure fun _ _ _ _ _ _ => nofun
  · refine runs_expectName.bind fun name _ => ?_
    cases name with
    | none => exact runs_recover.bind fun _ _ => .pure fun _ _ _ _ _ _ => nofun
    | some name =>
      refine (runs_expectWord _).bind fun on _ => ?_
      cases on with
      | none => exact runs_recover.bind fun _ _ => .pure fun _ _ _ _ _ _ _ _ => nofun
      | some on =>
        refine runs_expectName.bind fun condition _ => ?_
        cases condition with
        | none => exact runs_recover.bind fun _ _ => .pure fun _ _ _ _ _ _ _ _ _ _ => nofun
        | some condition =>
          refine (runs_directives false hroom).bind fun marks _ => .get_bind rfl ?_
          split
          · refine (runs_selectionSet hroom).bind fun body _ => .pure ?_
            intro _ hbody _ _ _ _ _ _ _ _ _ _ frag hfrag
            cases hfrag
            exact (((((hbody.append_right _).append_left _).append_left _).append_left _).append_left _).append_left _
          · exact runs_missingSelectionSet.bind fun _ _ => .pure fun _ _ _ _ _ _ _ _ _ _ _ _ => nofun

theorem runs_definition (hroom : room ≤ room') :
    Runs c (definition room) (definition room') fun taken o => ∀ d, o = some d → StandsAt taken d.fieldSpans := by
  refine .get_bind rfl ?_
  split
  · refine (runs_shorthandOperation hroom).bind fun op _ => .pure fun taken hop d hd => ?_
    cases hd
    exact hop.append_right _
  · split
    · refine (runs_fragment hroom).bind fun o _ => .pure fun taken hfrag d hd => ?_
      obtain ⟨frag, hf, rfl⟩ := Option.map_eq_some_iff.1 hd
      exact (hfrag frag hf).append_right _
    · split
      · refine (runs_namedOperation hroom).bind fun o _ => .pure fun taken hop d hd => ?_
        obtain ⟨op, ho, rfl⟩ := Option.map_eq_some_iff.1 hd
        exact (hop op ho).append_right _
      · split
        · exact runs_skipTypeSystemDefinition.bind fun _ _ => .pure fun _ _ => nofun
        · exact runs_skipStray.bind fun _ _ => .pure fun _ _ => nofun

theorem runs_document (hroom : room ≤ room') :
    Runs c (document room) (document room')
      fun taken document => ∀ d ∈ document.definitions, StandsAt taken d.fieldSpans := by
  refine (runs_collect (fun _ => rfl) fun _ => runs_definition hroom).bind fun definitions _ => .get_bind rfl ?_
  dsimp only
  split
  · refine (runs_reportHere _).bind fun _ _ => .pure fun _ _ taken hdefinitions d hd => ?_
    exact (hdefinitions.forall_standsAt d hd).append_right _
  · refine .pure fun taken hdefinitions d hd => ?_
    exact (hdefinitions.forall_standsAt d hd).append_right _

end Nodes

end QueryBatch.Parse

namespace QueryBatch.Document

open Parse

variable {text : String} {limits limits' : Limits} {parsed parsed' : ParsedDocument}

/-- What is read within limits is read without a limit of steps in any larger room. -/
theorem exists_run_of_read (h : read text limits = .ok parsed) :
    ∃ room, ∀ room', room ≤ room' → ∃ final, document room' (.ofText text none) = .ok (parsed.document, final) ∧
      final.reports = parsed.diagnostics ∧ ∃ taken, (Cursor.ofText text none).rest = taken ++ final.rest ∧
        ∀ d ∈ parsed.document.definitions, StandsAt taken d.fieldSpans := by
  simp only [read, StateT.run] at h
  split at h
  · rename_i document final hrun
    cases h
    refine ⟨(Cursor.ofText text limits.steps).roomFor limits.nesting, fun room' hroom => ?_⟩
    obtain ⟨hfree, htaken⟩ := runs_document hroom hrun
    exact ⟨final.free, hfree, rfl, htaken⟩
  · cases h

/-- Two parses of a text that stop at no limit yield the same. -/
theorem read_agrees (h : read text limits = .ok parsed) (h' : read text limits' = .ok parsed') :
    parsed.document = parsed'.document ∧ parsed.diagnostics = parsed'.diagnostics := by
  obtain ⟨room, hroom⟩ := exists_run_of_read h
  obtain ⟨room', hroom'⟩ := exists_run_of_read h'
  obtain ⟨final, hrun, hreports, -⟩ := hroom (max room room') (Nat.le_max_left _ _)
  obtain ⟨final', hrun', hreports', -⟩ := hroom' (max room room') (Nat.le_max_right _ _)
  rw [hrun, Except.ok.injEq, Prod.mk.injEq] at hrun'
  obtain ⟨hdocument, rfl⟩ := hrun'
  exact ⟨hdocument, hreports.symm.trans hreports'⟩

/-- No two fields of a definition that is read stand in one place. -/
theorem nodup_fieldSpans_of_read (h : read text limits = .ok parsed) {d : Definition}
    (hd : d ∈ parsed.document.definitions) : d.fieldSpans.Nodup := by
  obtain ⟨room, hroom⟩ := exists_run_of_read h
  obtain ⟨final, -, -, taken, htaken, hstands⟩ := hroom room (Nat.le_refl room)
  have hplaces : (d.fieldSpans.map Span.start).Sublist ((Token.scan text).map fun t => t.span.start) := by
    have htokens : taken.Sublist (Token.scan text) := by
      refine (List.sublist_append_left taken final.rest).trans ?_
      rw [← htaken]
      exact List.filter_sublist
    exact (hstands d hd).trans (htokens.map _)
  exact List.Pairwise.of_map Span.start (fun _ _ hlt heq => Nat.ne_of_lt hlt (congrArg Span.start heq))
    ((Token.pairwise_starts_scan text).sublist hplaces)

end QueryBatch.Document
