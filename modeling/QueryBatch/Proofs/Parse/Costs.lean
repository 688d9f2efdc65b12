import QueryBatch.Proofs.Document.Nesting
import QueryBatch.Proofs.Parse.Steps

/-!
# What a parse costs

A parser without limits always yields something. Within limits it yields the same if room and steps suffice, and stops
if they do not. As long as nothing is reported, every step passes over a token.

* `Outcome`: what a parser yields, and the room and the steps that it needs.
* `Costs room c p p' Q`: the parser `p'`, which has room for everything, has an outcome from `c` that `p` has too if it
  can afford it. If nothing is reported then steps and tokens agree, and `Q` holds of the room needed, of what is
  yielded and of the cursor at the end.
* `Fares`: the same without a look at what is yielded.
* `costs_eat`, `costs_report`, `costs_collect`, …: the moves, reports and rounds.
-/

namespace QueryBatch.Parse

/-- A number of steps is within the allowance. -/
def Cursor.Affords (c : Cursor) (steps : Nat) : Prop := ∀ k ∈ c.allowance, steps ≤ k

/-- Nothing was reported before a cursor. -/
def Cursor.Clean (c : Cursor) : Prop := c.lastReport = none

/-- What a parser without limits yields from a cursor, the room that it needs, and the cursor at the end, which tells
the steps. Another parser, with some room and the allowance of the cursor, yields the same or stops. -/
structure Outcome {α : Type} (room : Nat) (c : Cursor) (p p' : Parse α) (n : Nat) (a : α) (d : Cursor) : Prop where
  free : p' c.free = .ok (a, d.free)
  allowance_eq : d.allowance = c.allowance
  steps_le : c.steps ≤ d.steps
  rest_le : d.rest.length ≤ c.rest.length
  clean : d.Clean → c.Clean
  within : n ≤ room → c.Affords d.steps → p c = .ok (a, d)
  beyond : c.Affords c.steps → ¬ (n ≤ room ∧ c.Affords d.steps) → ∃ stop, p c = .error stop

/-- The outcome of a parser without limits is one that another parser has if it can afford it. -/
def Fares {α : Type} (room : Nat) (c : Cursor) (p p' : Parse α) : Prop := ∃ n a d, Outcome room c p p' n a d

/-- The outcome of a parser without limits is one that another parser has if it can afford it. If nothing is reported,
every step passed over a token, and what is yielded has a property. -/
def Costs {α : Type} (room : Nat) (c : Cursor) (p p' : Parse α) (Q : Nat → α → Cursor → Prop) : Prop :=
  ∃ n a d, Outcome room c p p' n a d ∧
    (d.Clean → d.steps + d.rest.length = c.steps + c.rest.length ∧ Q n a d)

/-! ## Rules -/

section Rules

variable {α β : Type} {room : Nat} {c : Cursor} {p p' : Parse α} {f f' : α → Parse β}

theorem Cursor.Affords.of_le {steps steps' : Nat} (h : c.Affords steps') (hle : steps ≤ steps') : c.Affords steps :=
  fun k hk => Nat.le_trans hle (h k hk)

namespace Outcome

variable {n m : Nat} {a : α} {b : β} {d e : Cursor}

theorem pure (c : Cursor) (a : α) : Outcome room c (Pure.pure a) (Pure.pure a) 0 a c where
  free := rfl
  allowance_eq := rfl
  steps_le := Nat.le_refl _
  rest_le := Nat.le_refl _
  clean := id
  within := fun _ _ => rfl
  beyond := fun hstart h => absurd ⟨Nat.zero_le _, hstart⟩ h

theorem run_bind {q : Parse α} {g : α → Parse β} {s t : Cursor} (h : q s = .ok (a, t)) : (q >>= g) s = g a t := by
  show (q s).bind (fun r => g r.1 r.2) = _
  rw [h]
  rfl

theorem run_bind_error {q : Parse α} {g : α → Parse β} {s : Cursor} {stop : Stop} (h : q s = .error stop) :
    (q >>= g) s = .error stop := by
  show (q s).bind (fun r => g r.1 r.2) = _
  rw [h]
  rfl

/-- One parser after another needs the room that either needs. -/
theorem bind (hp : Outcome room c p p' n a d) (hf : Outcome room d (f a) (f' a) m b e) :
    Outcome room c (p >>= f) (p' >>= f') (max n m) b e where
  free := (run_bind hp.free).trans hf.free
  allowance_eq := hf.allowance_eq.trans hp.allowance_eq
  steps_le := Nat.le_trans hp.steps_le hf.steps_le
  rest_le := Nat.le_trans hf.rest_le hp.rest_le
  clean := fun h => hp.clean (hf.clean h)
  within := by
    intro hroom hsteps
    have hfirst := hp.within (by omega) (hsteps.of_le hf.steps_le)
    refine (run_bind hfirst).trans (hf.within (by omega) ?_)
    unfold Cursor.Affords
    rw [hp.allowance_eq]
    exact hsteps
  beyond := by
    intro hstart hlacks
    by_cases hfirst : n ≤ room ∧ c.Affords d.steps
    · -- the first parser comes through, so it is the second one that lacks something
      have haffords : ∀ steps, d.Affords steps ↔ c.Affords steps := fun steps => by
        unfold Cursor.Affords
        rw [hp.allowance_eq]
      obtain ⟨stop, hstop⟩ := hf.beyond ((haffords _).2 hfirst.2) fun h =>
        hlacks ⟨Nat.max_le.2 ⟨hfirst.1, h.1⟩, (haffords _).1 h.2⟩
      exact ⟨stop, (run_bind (hp.within hfirst.1 hfirst.2)).trans hstop⟩
    · obtain ⟨stop, hstop⟩ := hp.beyond hstart hfirst
      exact ⟨stop, run_bind_error hstop⟩

/-- A look at the cursor, save its limit. -/
theorem get_bind {f f' : Cursor → Parse β} (hfree : f' c.free = f' c) (h : Outcome room c (f c) (f' c) m b e) :
    Outcome room c (get >>= f) (get >>= f') m b e := by
  refine ⟨?_, h.allowance_eq, h.steps_le, h.rest_le, h.clean, h.within, h.beyond⟩
  show f' c.free c.free = _
  rw [hfree, h.free]

/-- A node needs one unit of room more than what is inside. -/
theorem nested (h : Outcome room c p p' n a d) : Outcome (room + 1) c p p' (n + 1) a d where
  free := h.free
  allowance_eq := h.allowance_eq
  steps_le := h.steps_le
  rest_le := h.rest_le
  clean := h.clean
  within := fun hroom => h.within (by omega)
  beyond := fun hstart hlacks => h.beyond hstart fun hsuffice => hlacks ⟨by omega, hsuffice.2⟩

/-- Without room no node is read. -/
theorem lacking (h : Outcome room c p p' n a d) {stop : Stop} :
    Outcome 0 c (throw stop) p' (n + 1) a d where
  free := h.free
  allowance_eq := h.allowance_eq
  steps_le := h.steps_le
  rest_le := h.rest_le
  clean := h.clean
  within := fun hroom => absurd hroom (Nat.not_succ_le_zero n)
  beyond := fun _ _ => ⟨stop, rfl⟩

/-- What reads a token without limits has read one. -/
theorem rest_lt (h : Outcome room c p p' n a d) (hreads : Ends c.free p' p' fun _ e => e.rest.length < c.rest.length) :
    d.rest.length < c.rest.length := by
  obtain ⟨a', e, hrun, -, -, hlt⟩ := hreads rfl
  obtain ⟨-, rfl⟩ : a = a' ∧ d.free = e := by simpa using h.free.symm.trans hrun
  exact hlt

end Outcome

namespace Fares

theorem pure {a : α} : Fares room c (Pure.pure a) (Pure.pure a) := ⟨0, a, c, .pure c a⟩

theorem bind (hp : Fares room c p p')
    (hf : ∀ a d, d.rest.length ≤ c.rest.length → Fares room d (f a) (f' a)) :
    Fares room c (p >>= f) (p' >>= f') := by
  obtain ⟨n, a, d, hp⟩ := hp
  obtain ⟨m, b, e, hf⟩ := hf a d hp.rest_le
  exact ⟨max n m, b, e, hp.bind hf⟩

theorem bind_of_reads (hp : Fares room c p p') (hreads : Ends c.free p' p' fun _ d => d.rest.length < c.rest.length)
    (hf : ∀ a d, d.rest.length < c.rest.length → Fares room d (f a) (f' a)) :
    Fares room c (p >>= f) (p' >>= f') := by
  obtain ⟨n, a, d, hp⟩ := hp
  obtain ⟨m, b, e, hf⟩ := hf a d (hp.rest_lt hreads)
  exact ⟨max n m, b, e, hp.bind hf⟩

theorem get_bind {f f' : Cursor → Parse β} (hfree : f' c.free = f' c) (h : Fares room c (f c) (f' c)) :
    Fares room c (get >>= f) (get >>= f') := by
  obtain ⟨m, b, e, hf⟩ := h
  exact ⟨m, b, e, hf.get_bind hfree⟩

/-- Behind a report there is nothing to show of what is yielded. -/
theorem soiled {Q : Nat → α → Cursor → Prop} (h : Fares room c p p') (hc : ¬ c.Clean) : Costs room c p p' Q := by
  obtain ⟨n, a, d, h⟩ := h
  exact ⟨n, a, d, h, fun hclean => absurd (h.clean hclean) hc⟩

/-- What ends in a report has nothing to show, whatever comes before. -/
theorem doomed (hp : Fares room c p p')
    (hf : ∀ a d, d.rest.length ≤ c.rest.length → Costs room d (f a) (f' a) fun _ _ _ => False) :
    Costs room c (p >>= f) (p' >>= f') fun _ _ _ => False := by
  obtain ⟨n, a, d, hp⟩ := hp
  obtain ⟨m, b, e, hf, hnever⟩ := hf a d hp.rest_le
  exact ⟨max n m, b, e, hp.bind hf, fun hclean => (hnever hclean).2.elim⟩

end Fares

namespace Costs

variable {R : Nat → α → Cursor → Prop} {Q : Nat → β → Cursor → Prop}

theorem fares (h : Costs room c p p' R) : Fares room c p p' := by
  obtain ⟨n, a, d, h, -⟩ := h
  exact ⟨n, a, d, h⟩

theorem pure {b : β} (h : Q 0 b c) : Costs room c (Pure.pure b) (Pure.pure b) Q :=
  ⟨0, b, c, .pure c b, fun _ => ⟨rfl, h⟩⟩

theorem imp {Q' : Nat → β → Cursor → Prop} {p p' : Parse β} (h : Costs room c p p' Q)
    (hq : ∀ n b d, d.rest.length ≤ c.rest.length → Q n b d → Q' n b d) : Costs room c p p' Q' := by
  obtain ⟨n, b, d, h, hQ⟩ := h
  exact ⟨n, b, d, h, fun hclean => (hQ hclean).imp_right (hq n b d h.rest_le)⟩

/-- What is known of the first outcome may be used at the end, and before if nothing was reported by then. What holds of
the cursor between the two whatever was reported may be used all along. -/
theorem bind_of {S : Cursor → Prop} (hp : Costs room c p p' R) (hS : ∀ n a d, Outcome room c p p' n a d → S d)
    (hf : ∀ n a d, S d → (d.Clean → R n a d) →
      Costs room d (f a) (f' a) fun m b e => R n a d → Q (max n m) b e) :
    Costs room c (p >>= f) (p' >>= f') Q := by
  obtain ⟨n, a, d, hp, hR⟩ := hp
  obtain ⟨m, b, e, hf, hQ⟩ := hf n a d (hS n a d hp) fun hclean => (hR hclean).2
  refine ⟨max n m, b, e, hp.bind hf, fun hclean => ?_⟩
  obtain ⟨hsteps, hq⟩ := hQ hclean
  obtain ⟨hsteps', hr⟩ := hR (hf.clean hclean)
  exact ⟨hsteps.trans hsteps', hq hr⟩

theorem bind (hp : Costs room c p p' R)
    (hf : ∀ n a d, d.rest.length ≤ c.rest.length → (d.Clean → R n a d) →
      Costs room d (f a) (f' a) fun m b e => R n a d → Q (max n m) b e) :
    Costs room c (p >>= f) (p' >>= f') Q := hp.bind_of (fun _ _ _ h => h.rest_le) hf

theorem bind_of_reads (hp : Costs room c p p' R)
    (hreads : Ends c.free p' p' fun _ d => d.rest.length < c.rest.length)
    (hf : ∀ n a d, d.rest.length < c.rest.length → (d.Clean → R n a d) →
      Costs room d (f a) (f' a) fun m b e => R n a d → Q (max n m) b e) :
    Costs room c (p >>= f) (p' >>= f') Q := hp.bind_of (fun _ _ _ h => h.rest_lt hreads) hf

theorem get_bind {f f' : Cursor → Parse β} (hfree : f' c.free = f' c) (h : Costs room c (f c) (f' c) Q) :
    Costs room c (get >>= f) (get >>= f') Q := by
  obtain ⟨m, b, e, hf, hQ⟩ := h
  exact ⟨m, b, e, hf.get_bind hfree, hQ⟩

/-- Behind a report there is nothing to show of what is yielded. -/
theorem fault (hp : Costs room c p p' fun _ _ _ => False)
    (hf : ∀ a d, d.rest.length ≤ c.rest.length → Fares room d (f a) (f' a)) :
    Costs room c (p >>= f) (p' >>= f') Q := by
  obtain ⟨n, a, d, hp, hnever⟩ := hp
  obtain ⟨m, b, e, hf⟩ := hf a d hp.rest_le
  exact ⟨max n m, b, e, hp.bind hf, fun hclean => (hnever (hf.clean hclean)).2.elim⟩

/-- A node needs one unit of room more than what is inside, and without room a parse stops. -/
theorem nested {q : Nat → Parse β} {room' : Nat} (hzero : q 0 = throw .nestingExceeded)
    (h : ∀ room, Costs room c (q (room + 1)) (q (room' + 1)) fun n b d => Q (n + 1) b d) (room : Nat) :
    Costs room c (q room) (q (room' + 1)) Q := by
  cases room with
  | zero =>
    obtain ⟨n, b, d, hq, hQ⟩ := h 0
    rw [hzero]
    exact ⟨n + 1, b, d, hq.lacking, hQ⟩
  | succ room =>
    obtain ⟨n, b, d, hq, hQ⟩ := h room
    exact ⟨n + 1, b, d, hq.nested, hQ⟩

end Costs

end Rules

/-! ## Moves -/

section Moves

variable {room : Nat} {c : Cursor}

theorem bump_of_affords (h : c.Affords (c.steps + 1)) : bump c = .ok c.next := by
  have hleft : ¬ (c.allowance.any (fun k => k ≤ c.steps) = true) := by
    intro hany
    obtain ⟨k, hk, hle⟩ := (Option.any_eq_true _ _).1 hany
    have hlt := h k hk
    have hle' := of_decide_eq_true hle
    omega
  unfold bump Cursor.next
  rw [if_neg hleft]
  cases c.rest <;> rfl

theorem bump_of_not_affords (h : ¬ c.Affords (c.steps + 1)) : bump c = .error .stepsExhausted := by
  simp only [Cursor.Affords, Classical.not_forall] at h
  obtain ⟨k, hk, hlt⟩ := h
  have hspent : c.allowance.any (fun k => k ≤ c.steps) = true :=
    (Option.any_eq_true _ _).2 ⟨k, hk, decide_eq_true (by omega)⟩
  unfold bump
  rw [if_pos hspent]

/-- Reading a token takes it off, and one step, but no room. -/
theorem outcome_bump (room : Nat) (c : Cursor) : Outcome room c bump bump 0 c.next.1 c.next.2 where
  free := by
    rw [bump_of_affords (c := c.free) fun k hk => absurd hk (Option.not_mem_none k)]
    unfold Cursor.next Cursor.free
    cases c.rest <;> rfl
  allowance_eq := by
    unfold Cursor.next
    cases c.rest <;> rfl
  steps_le := by
    unfold Cursor.next
    cases c.rest <;> exact Nat.le_succ _
  rest_le := by
    unfold Cursor.next
    cases c.rest with
    | nil => exact Nat.le_refl _
    | cons t rest => exact Nat.le_succ _
  clean := by
    unfold Cursor.next
    cases c.rest <;> exact id
  within := by
    intro _ hsteps
    refine bump_of_affords ?_
    unfold Cursor.next at hsteps
    cases h : c.rest <;> simpa [h] using hsteps
  beyond := by
    intro _ hlacks
    refine ⟨_, bump_of_not_affords fun hsteps => hlacks ⟨Nat.zero_le _, ?_⟩⟩
    unfold Cursor.next
    cases c.rest <;> exact hsteps

theorem fares_bump : Fares room c bump bump := ⟨0, _, _, outcome_bump room c⟩

theorem costs_bump (h : c.rest ≠ []) :
    Costs room c bump bump fun n _ d => n = 0 ∧ d.rest.length < c.rest.length := by
  obtain ⟨hrest, hsteps⟩ := c.rest_next h
  exact ⟨0, _, _, outcome_bump room c, fun _ => ⟨by omega, rfl, by omega⟩⟩

/-- Behind a token there are fewer left, whatever was reported. -/
theorem Costs.bump_bind {β : Type} {f f' : Token → Parse β} {Q : Nat → β → Cursor → Prop} (h : c.rest ≠ [])
    (hf : ∀ t d, d.rest.length < c.rest.length → Costs room d (f t) (f' t) Q) :
    Costs room c (bump >>= f) (bump >>= f') Q := by
  obtain ⟨hrest, hsteps⟩ := c.rest_next h
  obtain ⟨m, b, e, hf, hQ⟩ := hf c.next.1 c.next.2 (by omega)
  have hbind := (outcome_bump room c).bind hf
  rw [Nat.zero_max] at hbind
  exact ⟨m, b, e, hbind, fun hclean => ⟨by have := (hQ hclean).1; omega, (hQ hclean).2⟩⟩

theorem fares_skip : Fares room c skip skip := fares_bump.bind fun _ _ _ => .pure

theorem costs_skip (h : c.rest ≠ []) : Costs room c skip skip fun n _ d => n = 0 ∧ d.rest.length < c.rest.length :=
  (costs_bump h).bind fun _ _ _ _ _ => .pure fun h => by simpa using h

theorem costs_spanFrom (start : Nat) : Costs room c (spanFrom start) (spanFrom start) fun n _ _ => n = 0 :=
  .get_bind rfl (.pure rfl)

/-- Where a token is read, there is one less. -/
theorem costs_eat (kind : TokenKind) : Costs room c (eat kind) (eat kind) fun n o d =>
    n = 0 ∧ (o ≠ none → d.rest.length < c.rest.length) := by
  refine .get_bind rfl ?_
  split
  · rename_i h
    refine (costs_bump (Cursor.rest_ne_nil_of_isAt h)).bind fun n t d _ _ => .pure fun h => ?_
    exact ⟨by omega, fun _ => h.2⟩
  · exact .pure ⟨rfl, fun h => absurd rfl h⟩

theorem costs_eatWord (word : String) : Costs room c (eatWord word) (eatWord word) fun n _ _ => n = 0 := by
  refine .get_bind rfl ?_
  split
  · rename_i h
    exact (costs_bump (Cursor.rest_ne_nil_of_isAtWord h)).bind fun n t d _ _ => .pure fun h => by omega
  · exact .pure rfl

/-! ## Reports -/

/-- A fault is reported, or one at the same place was before. -/
theorem costs_reportOnceAt (start : Nat) (d : Diagnostic) :
    Costs room c (reportOnceAt start d) (reportOnceAt start d) fun _ _ _ => False := by
  let e : Cursor :=
    if c.lastReport = some start then c else { c with lastReport := some start, reports := c.reports ++ [d] }
  have hsoiled : ¬ e.Clean := by
    show ¬ e.lastReport = none
    by_cases h : c.lastReport = some start <;> simp [e, h]
  refine ⟨0, (), e, ⟨?_, ?_, ?_, ?_, fun hclean => absurd hclean hsoiled, fun _ _ => reportOnceAt_run start d c, ?_⟩,
    fun hclean => absurd hclean hsoiled⟩
  · rw [reportOnceAt_run]
    show Except.ok ((), if c.lastReport = some start then c.free else _) = _
    by_cases h : c.lastReport = some start
    · simp only [e, if_pos h]
    · simp only [e, if_neg h]
      rfl
  · by_cases h : c.lastReport = some start <;> simp [e, h]
  · by_cases h : c.lastReport = some start <;> simp [e, h]
  · by_cases h : c.lastReport = some start <;> simp [e, h]
  · intro hstart hlacks
    refine absurd ⟨Nat.zero_le _, ?_⟩ hlacks
    by_cases h : c.lastReport = some start <;> simpa [e, h] using hstart

theorem costs_reportHere (kind : Diagnostic.Kind) :
    Costs room c (reportHere kind) (reportHere kind) fun _ _ _ => False := .get_bind rfl (costs_reportOnceAt _ _)

theorem costs_reportAt (kind : Diagnostic.Kind) (span : Span) (detail : String) :
    Costs room c (reportAt kind span detail) (reportAt kind span detail) fun _ _ _ => False := costs_reportOnceAt _ _

theorem costs_report (kind : Diagnostic.Kind) (detail : String) :
    Costs room c (report kind detail) (report kind detail) fun _ _ _ => False :=
  .get_bind rfl (costs_reportAt _ _ _)

theorem costs_reportAndSkip (kind : Diagnostic.Kind) (detail : String) :
    Costs room c (reportAndSkip kind detail) (reportAndSkip kind detail) fun _ _ _ => False :=
  (costs_report kind detail).fault fun _ _ _ => fares_skip

theorem costs_reportUnclosed (closer : String) (opened : Span) :
    Costs room c (reportUnclosed closer opened) (reportUnclosed closer opened) fun _ _ _ => False :=
  .get_bind rfl (costs_reportOnceAt _ _)

/-! ## Expectations -/

theorem costs_expect (kind : TokenKind) : Costs room c (expect kind) (expect kind) fun n o d =>
    n = 0 ∧ o ≠ none ∧ d.rest.length < c.rest.length := by
  refine (costs_eat kind).bind fun n o d _ _ => ?_
  cases o with
  | some t => exact .pure fun h => ⟨by omega, Option.some_ne_none t, h.2 (Option.some_ne_none t)⟩
  | none => exact .get_bind rfl ((costs_report _ _).fault fun _ _ _ => .pure)

theorem costs_expectWord (word : String) : Costs room c (expectWord word) (expectWord word) fun n o _ =>
    n = 0 ∧ o ≠ none := by
  refine (costs_eatWord word).bind fun n o d _ _ => ?_
  cases o with
  | some t => exact .pure fun hn => ⟨by omega, Option.some_ne_none t⟩
  | none => exact .get_bind rfl ((costs_report _ _).fault fun _ _ _ => .pure)

theorem costs_expectName : Costs room c expectName expectName fun n o d =>
    n = 0 ∧ o ≠ none ∧ d.rest.length < c.rest.length := by
  refine (costs_eat .name).bind fun n o d _ _ => ?_
  cases o with
  | some t => exact .pure fun h => ⟨by omega, Option.some_ne_none _, h.2 (Option.some_ne_none t)⟩
  | none => exact .get_bind rfl ((costs_report _ _).fault fun _ _ _ => .pure)

theorem costs_close (kind : TokenKind) (closer : String) (opened : Span) :
    Costs room c (close kind closer opened) (close kind closer opened) fun n _ _ => n = 0 := by
  refine (costs_eat kind).bind fun n o d _ _ => ?_
  cases o with
  | some t => exact .pure fun h => by omega
  | none => exact (costs_reportUnclosed _ _).imp fun _ _ _ _ h => h.elim

end Moves

/-! ## Rounds -/

section Rounds

variable {α : Type} {room : Nat} {more : Cursor → Bool} {step step' : Parse (Option α)}

theorem ReadsWhile.free {c : Cursor} (h : ReadsWhile more step' step' c) (hmore : ∀ c, more c.free = more c)
    (hgoes : more c = true) : Ends c.free step' step' fun _ d => d.rest.length < c.rest.length :=
  h c.free (Nat.le_refl _) ((hmore c).trans hgoes)

/-- Rounds of which each reads a token come to an end, so that they have an outcome. -/
theorem fares_collectRounds (hmore : ∀ c, more c.free = more c) {c : Cursor} (hreads : ReadsWhile more step' step' c)
    (h : ∀ e, e.rest.length ≤ c.rest.length → Fares room e step step') {rounds : Nat}
    (hrounds : c.rest.length < rounds) (found : List α) :
    Fares room c (collectRounds more step rounds found) (collectRounds more step' rounds found) := by
  induction rounds generalizing c found with
  | zero => exact absurd hrounds (Nat.not_lt_zero _)
  | succ rounds ih =>
    refine .get_bind (by rw [hmore]) ?_
    split
    · rename_i hgoes
      refine (h c (Nat.le_refl _)).bind_of_reads (hreads.free hmore hgoes) fun o d hlt => ?_
      have hlater := @ih d (hreads.of_le (Nat.le_of_lt hlt)) (fun e he => h e (by omega)) (by omega)
      cases o with
      | none => exact hlater found
      | some a => exact hlater (a :: found)
    · exact .pure

theorem fares_skipWhile {c : Cursor} (hmore : ∀ c, more c.free = more c)
    (hend : ∀ c : Cursor, c.rest = [] → more c = false) : Fares room c (skipWhile more) (skipWhile more) := by
  have hcollect : Fares room c (collect more skipped) (collect more skipped) :=
    .get_bind rfl (fares_collectRounds hmore (readsWhile_skipped hend) (fun e _ => fares_skip.bind fun _ _ _ => .pure)
      (Nat.lt_succ_self _) [])
  exact hcollect.bind fun _ _ _ => .pure

/-- A step yields an item that weighs the room that is needed, and reads a token. -/
def Weighs (weight : α → Nat) (c : Cursor) (n : Nat) (o : Option α) (d : Cursor) : Prop :=
  (∃ a, o = some a ∧ n = weight a) ∧ d.rest.length < c.rest.length

theorem not_exists_some_eq {P : α → Prop} : ¬ ∃ a, none = some a ∧ P a := by
  rintro ⟨a, ha, -⟩
  cases ha

theorem not_weighs_none {weight : α → Nat} {c : Cursor} {n : Nat} {d : Cursor} : ¬ Weighs weight c n none d :=
  fun h => not_exists_some_eq h.1

variable (weight : α → Nat) (hmore : ∀ c, more c.free = more c)
include hmore

theorem costs_collectRounds {c : Cursor} (hreads : ReadsWhile more step' step' c)
    (h : ∀ e, e.rest.length ≤ c.rest.length → more e = true → Costs room e step step' (Weighs weight e))
    {rounds : Nat} (hrounds : c.rest.length < rounds) (found : List α) :
    Costs room c (collectRounds more step rounds found) (collectRounds more step' rounds found) fun n items d =>
      ∃ new, items = found.reverse ++ new ∧ n = greatest weight new ∧ more d = false := by
  induction rounds generalizing c found with
  | zero => exact absurd hrounds (Nat.not_lt_zero _)
  | succ rounds ih =>
    refine .get_bind (by rw [hmore]) ?_
    split
    · rename_i hgoes
      refine (h c (Nat.le_refl _) hgoes).bind_of_reads (hreads.free hmore hgoes) fun n o d hlt _ => ?_
      have hlater := @ih d (hreads.of_le (Nat.le_of_lt hlt)) (fun e he => h e (by omega)) (by omega)
      cases o with
      | none => exact (hlater found).imp fun m items e _ _ hstep => absurd hstep not_weighs_none
      | some a =>
        refine (hlater (a :: found)).imp fun m items e _ hitems hstep => ?_
        obtain ⟨new, rfl, rfl, hdone⟩ := hitems
        obtain ⟨⟨a', ha, rfl⟩, -⟩ := hstep
        cases ha
        exact ⟨a :: new, by simp, rfl, hdone⟩
    · rename_i hdone
      exact .pure ⟨[], (List.append_nil _).symm, rfl, eq_false_of_ne_true hdone⟩

/-- The items that are collected need as much room as the one that needs most. -/
theorem costs_collect {c : Cursor} (hreads : ReadsWhile more step' step' c)
    (h : ∀ e, e.rest.length ≤ c.rest.length → more e = true → Costs room e step step' (Weighs weight e)) :
    Costs room c (collect more step) (collect more step') fun n items d =>
      n = greatest weight items ∧ more d = false := by
  refine .get_bind rfl
    ((costs_collectRounds weight hmore hreads h (Nat.lt_succ_self _) []).imp fun n items d _ hitems => ?_)
  obtain ⟨new, rfl, hn, hdone⟩ := hitems
  exact ⟨hn, hdone⟩

/-- Items up to a closing token need as much room as the one that needs most, or what is done with them. -/
theorem costs_listed {β : Type} {f f' : List α → Parse β} {Q : Nat → β → Cursor → Prop} {kind : TokenKind}
    {closer : String} {opened : Span} {c : Cursor} (hreads : ReadsWhile more step' step' c)
    (h : ∀ e, e.rest.length ≤ c.rest.length → more e = true → Costs room e step step' (Weighs weight e))
    (hf : ∀ items d, d.rest.length ≤ c.rest.length →
      Costs room d (f items) (f' items) fun n => Q (max (greatest weight items) n)) :
    Costs room c (collect more step >>= fun items => close kind closer opened >>= fun _ => f items)
      (collect more step' >>= fun items => close kind closer opened >>= fun _ => f' items) Q := by
  refine (costs_collect weight hmore hreads h).bind fun n items d hle _ => (costs_close kind closer opened).bind
    fun m _ e hle' _ => (hf items e (Nat.le_trans hle' hle)).imp fun k b e' _ hQ => ?_
  rintro ⟨rfl, -⟩ ⟨rfl, -⟩
  rwa [Nat.zero_max]

end Rounds

end QueryBatch.Parse
