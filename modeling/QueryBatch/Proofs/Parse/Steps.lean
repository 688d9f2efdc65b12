import QueryBatch.Proofs.Parse.Runs

/-!
# How far a parse goes

Without a limit of steps every parser comes to an end, whatever the tokens are, and no step is wasted: each of them
reads a token, save one that may be taken at the end of the text, by a parser that has read the last token.

* `Cursor.Leads`: the tokens and the steps between two cursors, with such a step; `Cursor.Paces`: without one.
* `Ends c p p' Q`: from `c` both parsers yield the same, and `Q` holds of it and of the cursor at the end. The two are
  one parser with different rooms, so that what ends does not depend on room.
* `Overruns`: the same for a parser that may take a step at the end of the text where it starts.
* `ReadsWhile`: a loop reads a token in each round. `ends_collect`: such a loop ends where it does not go on, and not
  for want of rounds. `ends_listed`: nor do items up to a closing token.
-/

namespace QueryBatch.Parse

/-! ## Steps between cursors -/

/-- Between two cursors every step has read a token. -/
structure Cursor.Paces (c d : Cursor) : Prop where
  allowance_eq : d.allowance = c.allowance
  rest_le : d.rest.length ≤ c.rest.length
  steps_eq : d.steps + d.rest.length = c.steps + c.rest.length

/-- Between two cursors every step has read a token, save one at the end of the text. -/
structure Cursor.Overruns (c d : Cursor) : Prop where
  allowance_eq : d.allowance = c.allowance
  rest_le : d.rest.length ≤ c.rest.length
  steps_eq : d.rest ≠ [] → d.steps + d.rest.length = c.steps + c.rest.length
  steps_le : d.steps + d.rest.length ≤ c.steps + c.rest.length + 1

/-- Between two cursors every step has read a token, save one at the end of the text, which only follows if a token was
read. -/
structure Cursor.Leads (c d : Cursor) : Prop extends c.Overruns d where
  still : c.rest = [] → d.steps = c.steps

namespace Cursor

variable {c d e : Cursor}

theorem eq_nil_of_rest_le (h : d.rest.length ≤ c.rest.length) (hc : c.rest = []) : d.rest = [] := by
  rw [hc] at h
  exact List.eq_nil_of_length_eq_zero (Nat.le_zero.1 h)

theorem Paces.refl (c : Cursor) : c.Paces c := ⟨rfl, Nat.le_refl _, rfl⟩

theorem Paces.trans (h : c.Paces d) (h' : d.Paces e) : c.Paces e :=
  ⟨h'.allowance_eq.trans h.allowance_eq, Nat.le_trans h'.rest_le h.rest_le, h'.steps_eq.trans h.steps_eq⟩

theorem Paces.leads (h : c.Paces d) : c.Leads d := by
  refine ⟨⟨h.allowance_eq, h.rest_le, fun _ => h.steps_eq, Nat.le_succ_of_le (Nat.le_of_eq h.steps_eq)⟩, fun hc => ?_⟩
  have heq := h.steps_eq
  rw [eq_nil_of_rest_le h.rest_le hc, hc] at heq
  exact heq

theorem Leads.refl (c : Cursor) : c.Leads c := (Paces.refl c).leads

/-- Behind a step at the end of the text there is no other. -/
theorem Overruns.trans (h : c.Overruns d) (h' : d.Leads e) : c.Overruns e := by
  refine ⟨h'.allowance_eq.trans h.allowance_eq, Nat.le_trans h'.rest_le h.rest_le, fun he => ?_, ?_⟩
  · have hd : d.rest ≠ [] := fun hd => he (eq_nil_of_rest_le h'.rest_le hd)
    exact (h'.steps_eq he).trans (h.steps_eq hd)
  · by_cases hd : d.rest = []
    · have hle := h.steps_le
      rw [eq_nil_of_rest_le h'.rest_le hd, h'.still hd, ← hd]
      exact hle
    · rw [← h.steps_eq hd]
      exact h'.steps_le

/-- From the start of a text at most one step more than there are tokens is taken. -/
theorem Leads.steps_le_of_start (h : c.Leads d) (hc : c.steps = 0) : d.steps ≤ c.rest.length + 1 := by
  have hle := h.steps_le
  omega

theorem Leads.trans (h : c.Leads d) (h' : d.Leads e) : c.Leads e :=
  ⟨h.toOverruns.trans h', fun hc => (h'.still (eq_nil_of_rest_le h.rest_le hc)).trans (h.still hc)⟩

/-- In front of a step at the end of the text every step has read a token. -/
theorem Paces.overruns (h : c.Paces d) (h' : d.Overruns e) : c.Overruns e :=
  ⟨h'.allowance_eq.trans h.allowance_eq, Nat.le_trans h'.rest_le h.rest_le,
    fun he => (h'.steps_eq he).trans h.steps_eq, h.steps_eq ▸ h'.steps_le⟩

end Cursor

/-! ## Rules -/

/-- Without a limit of steps two parsers yield the same from a cursor. What they yield has a property with the cursor at
the end, and at most one step has not read a token, at the end of the text. -/
def Overruns {α : Type} (c : Cursor) (p p' : Parse α) (Q : α → Cursor → Prop) : Prop :=
  c.allowance = none → ∃ a d, p c = .ok (a, d) ∧ p' c = .ok (a, d) ∧ c.Overruns d ∧ Q a d

/-- The same for parsers that take no step if they start at the end of the text. -/
def Ends {α : Type} (c : Cursor) (p p' : Parse α) (Q : α → Cursor → Prop) : Prop :=
  c.allowance = none → ∃ a d, p c = .ok (a, d) ∧ p' c = .ok (a, d) ∧ c.Leads d ∧ Q a d

section Rules

variable {α β : Type} {c : Cursor} {p p' : Parse α} {f f' : α → Parse β} {R : α → Cursor → Prop}
  {Q : β → Cursor → Prop}

namespace Ends

theorem pure {b : β} (h : Q b c) : Ends c (Pure.pure b) (Pure.pure b) Q := fun _ => ⟨b, c, rfl, rfl, .refl c, h⟩

theorem imp {Q' : β → Cursor → Prop} {p p' : Parse β} (h : Ends c p p' Q)
    (hq : ∀ b d, d.rest.length ≤ c.rest.length → Q b d → Q' b d) : Ends c p p' Q' := by
  intro hfree
  obtain ⟨b, d, hp, hp', hleads, hQ⟩ := h hfree
  exact ⟨b, d, hp, hp', hleads, hq b d hleads.rest_le hQ⟩

theorem bind (hp : Ends c p p' R)
    (hf : ∀ a d, d.rest.length ≤ c.rest.length → R a d → Ends d (f a) (f' a) Q) :
    Ends c (p >>= f) (p' >>= f') Q := by
  intro hfree
  obtain ⟨a, d, hp, hp', hleads, hR⟩ := hp hfree
  obtain ⟨b, e, hf, hf', hleads', hQ⟩ := hf a d hleads.rest_le hR (hleads.allowance_eq.trans hfree)
  exact ⟨b, e, bind_eq_ok.2 ⟨a, d, hp, hf⟩, bind_eq_ok.2 ⟨a, d, hp', hf'⟩, hleads.trans hleads', hQ⟩

theorem get_bind {f f' : Cursor → Parse β} (h : Ends c (f c) (f' c) Q) : Ends c (get >>= f) (get >>= f') Q := h

/-- Parsers with rooms that do not matter yield one result in all of them. -/
theorem settles {ι : Type} {I : ι → Prop} {run : ι → Parse β} {i : ι} (hi : I i)
    (h : ∀ i i', I i → I i' → Ends c (run i) (run i') Q) (hfree : c.allowance = none) :
    ∃ b d, (∀ i, I i → run i c = .ok (b, d)) ∧ c.Leads d ∧ Q b d := by
  obtain ⟨b, d, hrun, -, hleads, hQ⟩ := h i i hi hi hfree
  refine ⟨b, d, fun i' hi' => ?_, hleads, hQ⟩
  obtain ⟨b', d', hrun', hother, -⟩ := h i i' hi hi' hfree
  rwa [hrun.symm.trans hrun']

/-- A step at the end of the text comes last, behind steps that have read tokens. -/
theorem overruns (hp : Ends c p p' fun a d => c.Paces d ∧ R a d)
    (hf : ∀ a d, c.Paces d → R a d → Overruns d (f a) (f' a) Q) : Overruns c (p >>= f) (p' >>= f') Q := by
  intro hfree
  obtain ⟨a, d, hp, hp', -, hpaces, hR⟩ := hp hfree
  obtain ⟨b, e, hf, hf', hover, hQ⟩ := hf a d hpaces hR (hpaces.allowance_eq.trans hfree)
  exact ⟨b, e, bind_eq_ok.2 ⟨a, d, hp, hf⟩, bind_eq_ok.2 ⟨a, d, hp', hf'⟩, hpaces.overruns hover, hQ⟩

end Ends

namespace Overruns

theorem get_bind {f f' : Cursor → Parse β} (h : Overruns c (f c) (f' c) Q) : Overruns c (get >>= f) (get >>= f') Q := h

theorem imp {Q' : β → Cursor → Prop} {p p' : Parse β} (h : Overruns c p p' Q)
    (hq : ∀ b d, d.rest.length ≤ c.rest.length → Q b d → Q' b d) : Overruns c p p' Q' := by
  intro hfree
  obtain ⟨b, d, hp, hp', hover, hQ⟩ := h hfree
  exact ⟨b, d, hp, hp', hover, hq b d hover.rest_le hQ⟩

theorem of_ends {p p' : Parse β} (h : Ends c p p' Q) : Overruns c p p' Q := by
  intro hfree
  obtain ⟨b, d, hp, hp', hleads, hQ⟩ := h hfree
  exact ⟨b, d, hp, hp', hleads.toOverruns, hQ⟩

/-- In front of a token no step is taken at the end of the text. -/
theorem ends {p p' : Parse β} (h : Overruns c p p' Q) (hrest : c.rest ≠ []) : Ends c p p' Q := by
  intro hfree
  obtain ⟨b, d, hp, hp', hover, hQ⟩ := h hfree
  exact ⟨b, d, hp, hp', ⟨hover, fun hc => absurd hc hrest⟩, hQ⟩

theorem bind (hp : Overruns c p p' R)
    (hf : ∀ a d, d.rest.length ≤ c.rest.length → R a d → Ends d (f a) (f' a) Q) :
    Overruns c (p >>= f) (p' >>= f') Q := by
  intro hfree
  obtain ⟨a, d, hp, hp', hover, hR⟩ := hp hfree
  obtain ⟨b, e, hf, hf', hleads, hQ⟩ := hf a d hover.rest_le hR (hover.allowance_eq.trans hfree)
  exact ⟨b, e, bind_eq_ok.2 ⟨a, d, hp, hf⟩, bind_eq_ok.2 ⟨a, d, hp', hf'⟩, hover.trans hleads, hQ⟩

end Overruns

end Rules

/-! ## Moves -/

/-- A token was read if something is yielded, and nothing else was read. -/
structure Takes {α : Type} (c : Cursor) (o : Option α) (d : Cursor) : Prop where
  paces : c.Paces d
  lt : o ≠ none → d.rest.length < c.rest.length
  same : o = none → d.rest = c.rest

/-- Tokens were read if something is yielded. -/
structure Advances {α : Type} (c : Cursor) (o : Option α) (d : Cursor) : Prop where
  lt : o ≠ none → d.rest.length < c.rest.length
  same_or_lt : d.rest = c.rest ∨ d.rest.length < c.rest.length

section Moves

variable {c d : Cursor} {α β : Type}

theorem Takes.some {a : α} (h : c.Paces d) (hlt : d.rest.length < c.rest.length) : Takes c (some a) d :=
  ⟨h, fun _ => hlt, fun hnone => absurd hnone (Option.some_ne_none a)⟩

theorem Takes.none (h : c.Paces d) (hsame : d.rest = c.rest) : Takes c (none : Option α) d :=
  ⟨h, fun hne => absurd rfl hne, fun _ => hsame⟩

theorem Advances.of_lt (o : Option α) (h : d.rest.length < c.rest.length) : Advances c o d := ⟨fun _ => h, .inr h⟩

theorem Advances.none (h : d.rest = c.rest) : Advances c (none : Option α) d := ⟨fun hne => absurd rfl hne, .inl h⟩

/-- Nothing need be yielded for what was read. -/
theorem Advances.drop {o : Option α} (h : Advances c o d) : Advances c (Option.none : Option β) d :=
  ⟨fun hne => absurd rfl hne, h.same_or_lt⟩

theorem Cursor.closes_congr (h : d.rest = c.rest) (kinds : List TokenKind) : d.closes kinds = c.closes kinds := by
  have hkind : d.kind? = c.kind? := by rw [kind?, kind?, h]
  have hat : d.isAt = c.isAt := funext fun kind => by rw [isAt, isAt, hkind]
  rw [closes, closes, atEnd, atEnd, h, hat]

/-- What reading a token yields, if the allowance has a step left. -/
def Cursor.next (c : Cursor) : Token × Cursor :=
  match c.rest with
  | t :: rest => (t, { c with rest, steps := c.steps + 1, consumedEnd := t.span.stop })
  | [] => (⟨.garbage, "", .emptyAt c.textEnd⟩, { c with steps := c.steps + 1 })

theorem bump_of_free (h : c.allowance = none) : bump c = .ok c.next := by
  unfold bump Cursor.next
  rw [h]
  cases c.rest <;> rfl

theorem Cursor.rest_next (h : c.rest ≠ []) :
    c.next.2.rest.length + 1 = c.rest.length ∧ c.next.2.steps = c.steps + 1 := by
  unfold next
  cases hrest : c.rest with
  | nil => exact absurd hrest h
  | cons t rest => exact ⟨rfl, rfl⟩

theorem Cursor.allowance_next (c : Cursor) : c.next.2.allowance = c.allowance := by
  unfold next
  cases c.rest <;> rfl

theorem Cursor.next_of_nil (h : c.rest = []) : c.next.2.rest = [] ∧ c.next.2.steps = c.steps + 1 := by
  unfold next
  rw [h]
  exact ⟨rfl, rfl⟩

/-- In front of a token reading takes it off. -/
theorem ends_bump (hrest : c.rest ≠ []) : Ends c bump bump fun _ d => c.Paces d ∧ d.rest.length < c.rest.length := by
  intro hfree
  obtain ⟨hlength, hsteps⟩ := c.rest_next hrest
  have hpaces : c.Paces c.next.2 := ⟨c.allowance_next, by omega, by omega⟩
  have hlt : c.next.2.rest.length < c.rest.length := by omega
  exact ⟨_, _, bump_of_free hfree, bump_of_free hfree, hpaces.leads, hpaces, hlt⟩

theorem ends_skip (hrest : c.rest ≠ []) : Ends c skip skip fun _ d => c.Paces d ∧ d.rest.length < c.rest.length :=
  (ends_bump hrest).bind fun _ _ _ h => .pure h

/-- Reading takes a token off, or is a step at the end of the text. -/
theorem overruns_skip : Overruns c skip skip fun _ d => c.rest ≠ [] → d.rest.length < c.rest.length := by
  by_cases hrest : c.rest = []
  · intro hfree
    obtain ⟨hnil, hsteps⟩ := Cursor.next_of_nil hrest
    refine ⟨(), c.next.2, ?_, ?_, ⟨c.allowance_next, ?_, fun h => absurd hnil h, ?_⟩, fun h => absurd hrest h⟩
    · exact bind_eq_ok.2 ⟨_, _, bump_of_free hfree, rfl⟩
    · exact bind_eq_ok.2 ⟨_, _, bump_of_free hfree, rfl⟩
    · rw [hnil]
      exact Nat.zero_le _
    · rw [hnil, hrest, hsteps]
      exact Nat.le_refl _
  · exact .of_ends ((ends_skip hrest).imp fun _ _ _ h _ => h.2)

theorem ends_spanFrom (start : Nat) : Ends c (spanFrom start) (spanFrom start) fun _ d => d = c :=
  .get_bind (.pure rfl)

theorem Cursor.rest_ne_nil_of_isAtWord {word : String} (h : c.isAtWord word = true) : c.rest ≠ [] := by
  unfold isAtWord at h
  exact rest_ne_nil_of_isAt (Bool.and_eq_true_iff.1 h).1

theorem ends_eat (kind : TokenKind) : Ends c (eat kind) (eat kind) (Takes c) := by
  refine .get_bind ?_
  split
  · rename_i h
    exact (ends_bump (Cursor.rest_ne_nil_of_isAt h)).bind fun _ _ _ h => .pure (.some h.1 h.2)
  · exact .pure (.none (.refl c) rfl)

theorem ends_eatWord (word : String) : Ends c (eatWord word) (eatWord word) (Takes c) := by
  refine .get_bind ?_
  split
  · rename_i h
    exact (ends_bump (Cursor.rest_ne_nil_of_isAtWord h)).bind fun _ _ _ h => .pure (.some h.1 h.2)
  · exact .pure (.none (.refl c) rfl)

/-! ## Reports -/

theorem ends_reportOnceAt (start : Nat) (d : Diagnostic) :
    Ends c (reportOnceAt start d) (reportOnceAt start d) fun _ e => c.Paces e ∧ e.rest = c.rest := by
  intro _
  have hsame : ∀ e : Cursor, (e = if c.lastReport = some start then c else
      { c with lastReport := some start, reports := c.reports ++ [d] }) → c.Paces e ∧ e.rest = c.rest := by
    rintro e rfl
    split
    · exact ⟨.refl c, rfl⟩
    · exact ⟨⟨rfl, Nat.le_refl _, rfl⟩, rfl⟩
  obtain ⟨hpaces, hrest⟩ := hsame _ rfl
  exact ⟨(), _, reportOnceAt_run start d c, reportOnceAt_run start d c, hpaces.leads, hpaces, hrest⟩

theorem ends_reportHere (kind : Diagnostic.Kind) :
    Ends c (reportHere kind) (reportHere kind) fun _ d => c.Paces d ∧ d.rest = c.rest :=
  .get_bind (ends_reportOnceAt _ _)

theorem ends_reportAt (kind : Diagnostic.Kind) (span : Span) (detail : String) :
    Ends c (reportAt kind span detail) (reportAt kind span detail) fun _ d => c.Paces d ∧ d.rest = c.rest :=
  ends_reportOnceAt _ _

theorem ends_report (kind : Diagnostic.Kind) (detail : String) :
    Ends c (report kind detail) (report kind detail) fun _ d => c.Paces d ∧ d.rest = c.rest :=
  .get_bind (ends_reportAt _ _ _)

theorem ends_reportUnclosed (closer : String) (opened : Span) :
    Ends c (reportUnclosed closer opened) (reportUnclosed closer opened) fun _ d => c.Paces d ∧ d.rest = c.rest :=
  .get_bind (ends_reportOnceAt _ _)

theorem overruns_reportAndSkip (kind : Diagnostic.Kind) (detail : String) :
    Overruns c (reportAndSkip kind detail) (reportAndSkip kind detail) fun _ d =>
      c.rest ≠ [] → d.rest.length < c.rest.length :=
  (ends_report kind detail).overruns fun _ _ _ hsame => hsame ▸ overruns_skip

theorem ends_reportAndSkip (kind : Diagnostic.Kind) (detail : String) (hrest : c.rest ≠ []) :
    Ends c (reportAndSkip kind detail) (reportAndSkip kind detail) fun _ d => d.rest.length < c.rest.length :=
  ((overruns_reportAndSkip kind detail).ends hrest).imp fun _ _ _ h => h hrest

/-! ## Expectations -/

/-- To report what is missing reads no token. -/
theorem ends_missing (h : Takes c (none : Option α) d) (kind : Diagnostic.Kind) (detail : String) :
    Ends d (do report kind detail; return (none : Option β)) (do report kind detail; return none) (Takes c) :=
  (ends_report _ _).bind fun _ _ _ h' => .pure (.none (h.paces.trans h'.1) (h'.2.trans (h.same rfl)))

theorem ends_expect (kind : TokenKind) : Ends c (expect kind) (expect kind) (Takes c) := by
  refine (ends_eat kind).bind fun o d _ h => ?_
  cases o with
  | some t => exact .pure (.some h.paces (h.lt (Option.some_ne_none t)))
  | none => exact .get_bind (ends_missing h _ _)

theorem ends_expectWord (word : String) : Ends c (expectWord word) (expectWord word) (Takes c) := by
  refine (ends_eatWord word).bind fun o d _ h => ?_
  cases o with
  | some t => exact .pure (.some h.paces (h.lt (Option.some_ne_none t)))
  | none => exact .get_bind (ends_missing h _ _)

theorem ends_expectName : Ends c expectName expectName (Takes c) := by
  refine (ends_eat .name).bind fun o d _ h => ?_
  cases o with
  | some t => exact .pure (.some h.paces (h.lt (Option.some_ne_none t)))
  | none => exact .get_bind (ends_missing h _ _)

/-- A token that stands at a cursor is read. -/
theorem ends_eat_of_isAt {kind : TokenKind} (h : c.isAt kind = true) : Ends c (eat kind) (eat kind) fun o d =>
    o ≠ none ∧ c.Paces d ∧ d.rest.length < c.rest.length := by
  refine .get_bind ?_
  rw [if_pos h]
  exact (ends_bump (Cursor.rest_ne_nil_of_isAt h)).bind fun t _ _ ht => .pure ⟨Option.some_ne_none t, ht⟩

theorem ends_expect_of_isAt {kind : TokenKind} (h : c.isAt kind = true) : Ends c (expect kind) (expect kind) fun o d =>
    o ≠ none ∧ c.Paces d ∧ d.rest.length < c.rest.length := by
  refine (ends_eat_of_isAt h).bind fun o d _ ho => ?_
  cases o with
  | some t => exact .pure ho
  | none => exact absurd rfl ho.1

theorem ends_expectName_of_isAt (h : c.isAt .name = true) : Ends c expectName expectName fun o d =>
    o ≠ none ∧ c.Paces d ∧ d.rest.length < c.rest.length := by
  refine (ends_eat_of_isAt h).bind fun o d _ ho => ?_
  cases o with
  | some t => exact .pure ⟨Option.some_ne_none _, ho.2⟩
  | none => exact absurd rfl ho.1

theorem ends_close (kind : TokenKind) (closer : String) (opened : Span) :
    Ends c (close kind closer opened) (close kind closer opened) fun _ d => c.Paces d := by
  refine (ends_eat kind).bind fun o d _ h => ?_
  cases o with
  | some t => exact .pure h.paces
  | none => exact (ends_reportUnclosed _ _).imp fun _ _ _ h' => h.paces.trans h'.1

end Moves

/-! ## Rounds -/

section Rounds

variable {α : Type} {c d : Cursor} {more : Cursor → Bool} {step step' : Parse (Option α)}

/-- Wherever a loop goes on behind a cursor its step reads a token. -/
def ReadsWhile (more : Cursor → Bool) (step step' : Parse (Option α)) (c : Cursor) : Prop :=
  ∀ e : Cursor, e.rest.length ≤ c.rest.length → more e = true →
    Ends e step step' fun _ d => d.rest.length < e.rest.length

theorem ReadsWhile.of_le (h : ReadsWhile more step step' c) (hle : d.rest.length ≤ c.rest.length) :
    ReadsWhile more step step' d := fun e he => h e (Nat.le_trans he hle)

/-- Rounds that all read a token end where no more are to come, however many are allowed beyond the tokens. -/
theorem ends_collectRounds (h : ReadsWhile more step step' c) {rounds rounds' : Nat}
    (hrounds : c.rest.length < rounds) (hrounds' : c.rest.length < rounds') (found : List α) :
    Ends c (collectRounds more step rounds found) (collectRounds more step' rounds' found) fun _ d =>
      more d = false := by
  induction rounds generalizing c rounds' found with
  | zero => exact absurd hrounds (Nat.not_lt_zero _)
  | succ rounds ih =>
    obtain ⟨rounds', rfl⟩ := Nat.exists_eq_succ_of_ne_zero (n := rounds') (by omega)
    refine .get_bind ?_
    split
    · rename_i hgoes
      refine (h c (Nat.le_refl _) hgoes).bind fun o d _ hlt => ?_
      have hlater := @ih d (h.of_le (Nat.le_of_lt hlt)) rounds' (by omega) (by omega)
      cases o with
      | none => exact hlater found
      | some a => exact hlater (a :: found)
    · rename_i hdone
      exact .pure (eq_false_of_ne_true hdone)

theorem ends_collect (h : ReadsWhile more step step' c) :
    Ends c (collect more step) (collect more step') fun _ d => more d = false :=
  .get_bind (ends_collectRounds h (Nat.lt_succ_self _) (Nat.lt_succ_self _) [])

/-- Items end at their closing token, or where it is missing, and what is done with them goes on from there. -/
theorem ends_listed {β : Type} {f f' : List α → Parse β} {Q : β → Cursor → Prop} {kind : TokenKind} {closer : String}
    {opened : Span} (h : ReadsWhile more step step' c)
    (hf : ∀ items d, d.rest.length ≤ c.rest.length → Ends d (f items) (f' items) Q) :
    Ends c (collect more step >>= fun items => close kind closer opened >>= fun _ => f items)
      (collect more step' >>= fun items => close kind closer opened >>= fun _ => f' items) Q :=
  (ends_collect h).bind fun items _ hle _ => (ends_close kind closer opened).bind fun _ e hle' _ =>
    hf items e (Nat.le_trans hle' hle)

theorem ends_skipped (hrest : c.rest ≠ []) : Ends c skipped skipped fun _ d => d.rest.length < c.rest.length :=
  (ends_skip hrest).bind fun _ _ _ h => .pure h.2

theorem readsWhile_skipped (hend : ∀ c : Cursor, c.rest = [] → more c = false) :
    ReadsWhile more skipped skipped c := fun e _ hgoes => ends_skipped fun hnil => by
  rw [hend e hnil] at hgoes
  cases hgoes

theorem ends_skipWhile (hend : ∀ c : Cursor, c.rest = [] → more c = false) :
    Ends c (skipWhile more) (skipWhile more) fun _ _ => True :=
  (ends_collect (readsWhile_skipped hend)).bind fun _ _ _ _ => .pure trivial

end Rounds

end QueryBatch.Parse
