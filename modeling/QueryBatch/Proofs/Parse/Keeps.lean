import QueryBatch.Proofs.Document.Canonical
import QueryBatch.Proofs.Parse.Limits

/-!
# What a parse without faults keeps

* `Keeps c p Q`: run from `c`, the parser `p` keeps the cursor valid. If nothing is reported by then, it took lexemes
  off the front, and what it yields stands in the relation `Q` to them.
* `Spells`: the lexemes taken are those of what is yielded, up to spelling.
* `keeps_value`, `keeps_selectionSet`, `keeps_document`, …: every parser keeps so what it takes. The one exception are
  parentheses with nothing in them, which leave no trace.
* `Document.canonical_lexemes_of_read`: so a text that is read without diagnostics has the lexemes of its printed
  document, up to spelling and such parentheses.
-/

namespace QueryBatch.Parse

open Token

/-- The lexemes left to read. -/
def Cursor.lexemes (c : Cursor) : List Lexeme := c.rest.map bare

/-- A parser keeps the cursor valid and takes no report back. If nothing is reported, it takes lexemes off the front,
which stand in a relation to what it yields. -/
def Keeps {α : Type} (c : Cursor) (p : Parse α) (Q : List Lexeme → α → Prop) : Prop :=
  ∀ ⦃a d⦄, c.Valid → p c = .ok (a, d) →
    d.Valid ∧ (d.reports = [] → c.reports = [] ∧ ∃ taken, c.lexemes = taken ++ d.lexemes ∧ Q taken a)

/-! ## Rules -/

namespace Keeps

variable {α β : Type} {c : Cursor} {p : Parse α} {f : α → Parse β} {R : List Lexeme → α → Prop}
  {Q : List Lexeme → β → Prop}

theorem pure {b : β} (h : Q [] b) : Keeps c (Pure.pure b : Parse β) Q := by
  intro a d hv hr
  cases hr
  exact ⟨hv, fun hn => ⟨hn, [], rfl, h⟩⟩

/-- One parser after another: what the first one takes may be used once nothing is reported by the end. -/
theorem run_bind {b : β} {d' : Cursor} (hp : Keeps c p R) (hv : c.Valid) (hr : (p >>= f) c = .ok (b, d')) :
    ∃ a d, f a d = .ok (b, d') ∧ d.Valid ∧
      (d.reports = [] → c.reports = [] ∧ ∃ taken, c.lexemes = taken ++ d.lexemes ∧ R taken a) := by
  obtain ⟨a, d, hpc, hrun⟩ := bind_eq_ok.1 hr
  exact ⟨a, d, hrun, hp hv hpc⟩

/-- What the first parser takes is in front of what the second takes. -/
theorem bind (hp : Keeps c p R) (hf : ∀ a d, Keeps d (f a) fun more b => ∀ taken, R taken a → Q (taken ++ more) b) :
    Keeps c (p >>= f) Q := by
  intro b d' hv hr
  obtain ⟨a, d, hrun, hv', hp'⟩ := hp.run_bind hv hr
  obtain ⟨hv'', hf'⟩ := hf a d hv' hrun
  refine ⟨hv'', fun hn => ?_⟩
  obtain ⟨hn', more, hmore, hQ⟩ := hf' hn
  obtain ⟨hn'', taken, htaken, hR⟩ := hp' hn'
  exact ⟨hn'', taken ++ more, by rw [htaken, hmore, List.append_assoc], hQ taken hR⟩

/-- A parser that yields something unless it reports a fault. Behind a fault there is nothing to show. -/
theorem some {p : Parse (Option α)} {f : Option α → Parse β}
    (hp : Keeps c p fun taken o => ∃ a, o = .some a ∧ R taken a)
    (hf : ∀ a d, Keeps d (f (.some a)) fun more b => ∀ taken, R taken a → Q (taken ++ more) b)
    (hnone : ∀ d, Yields d (f none) fun _ => True) : Keeps c (p >>= f) Q := by
  intro b d' hv hr
  obtain ⟨o, d, hrun, hv', hp'⟩ := hp.run_bind hv hr
  cases o with
  | none =>
    obtain ⟨hv'', hf'⟩ := hnone d hv' hrun
    refine ⟨hv'', fun hn => ?_⟩
    obtain ⟨-, taken, -, a, ha, -⟩ := hp' (hf' hn).1
    cases ha
  | some a =>
    obtain ⟨hv'', hf'⟩ := hf a d hv' hrun
    refine ⟨hv'', fun hn => ?_⟩
    obtain ⟨hn', more, hmore, hQ⟩ := hf' hn
    obtain ⟨hn'', taken, htaken, a', ha, hR⟩ := hp' hn'
    cases ha
    exact ⟨hn'', taken ++ more, by rw [htaken, hmore, List.append_assoc], hQ taken hR⟩

theorem get_bind {f : Cursor → Parse β} (h : Keeps c (f c) Q) : Keeps c (get >>= f) Q := fun _ _ hv hr => h hv hr

theorem throw {stop : Stop} : Keeps c (throw stop : Parse β) Q := nofun

theorem imp {Q' : List Lexeme → β → Prop} {p : Parse β} (h : Keeps c p Q) (hq : ∀ taken b, Q taken b → Q' taken b) :
    Keeps c p Q' := by
  intro b d hv hr
  obtain ⟨hv', h'⟩ := h hv hr
  refine ⟨hv', fun hn => ?_⟩
  obtain ⟨hn', taken, htaken, hQ⟩ := h' hn
  exact ⟨hn', taken, htaken, hq taken b hQ⟩

/-- Behind a fault there is nothing to show of what is taken. -/
theorem fault {p : Parse β} (h : Yields c p fun _ => False) : Keeps c p Q := by
  intro b d hv hr
  obtain ⟨hv', h'⟩ := h hv hr
  exact ⟨hv', fun hn => (h' hn).2.elim⟩

/-- What is known of what is yielded may be used too. -/
theorem and {P : β → Prop} {p : Parse β} (h : Keeps c p Q) (hp : Yields c p P) :
    Keeps c p fun taken b => Q taken b ∧ P b := by
  intro b d hv hr
  obtain ⟨hv', h'⟩ := h hv hr
  refine ⟨hv', fun hn => ?_⟩
  obtain ⟨hn', taken, htaken, hQ⟩ := h' hn
  exact ⟨hn', taken, htaken, hQ, ((hp hv hr).2 hn).2⟩

end Keeps

/-- Something is yielded, and the lexemes taken are those that it is written with. -/
def Spells {α : Type} (g : α → List Lexeme) (taken : List Lexeme) (o : Option α) : Prop :=
  ∃ a, o = some a ∧ Written taken (g a)

/-- Where nothing is yielded, a fault was reported. -/
theorem of_exists_none_eq {α : Type} {P : α → Prop} {q : Prop} (h : ∃ a, none = some a ∧ P a) : q := by
  obtain ⟨a, ha, -⟩ := h
  cases ha

/-! ## Moves -/

section Moves

variable {c : Cursor} {kind : TokenKind} {s : String}

theorem Cursor.kind?_eq (c : Cursor) : c.kind? = c.lexemes.head?.map Lexeme.kind := by
  unfold kind? lexemes
  cases c.rest <;> rfl

/-- The first of the lexemes taken is the next one. -/
theorem Keeps.head {α : Type} {p : Parse α} {Q : List Lexeme → α → Prop} (h : Keeps c p Q) :
    Keeps c p fun taken a => Q taken a ∧ (taken ≠ [] → taken.head?.map Lexeme.kind = c.kind?) := by
  intro a d hv hr
  obtain ⟨hv', h'⟩ := h hv hr
  refine ⟨hv', fun hn => ?_⟩
  obtain ⟨hn', taken, htaken, hQ⟩ := h' hn
  refine ⟨hn', taken, htaken, hQ, fun hne => ?_⟩
  obtain ⟨x, taken, rfl⟩ := List.exists_cons_of_ne_nil hne
  rw [c.kind?_eq, htaken]
  rfl

/-- A token is taken as it is. -/
theorem keeps_bump (hk : c.kind? = some kind) :
    Keeps c bump fun taken t => taken = [⟨kind, t.text⟩] ∧ t.kind = kind ∧ t.text = c.text ∧ t.IsSound := by
  intro t d hv hr
  obtain ⟨u, rest, hrest, hu⟩ := Cursor.kind?_eq_some.1 hk
  simp only [bump, hrest] at hr
  split at hr
  · cases hr
  · cases hr
    have hsound : ∀ v ∈ t :: rest, v.IsSound := fun v hmem => hv.sound v (by rw [hrest]; exact hmem)
    refine ⟨⟨fun v hmem => hsound v (List.mem_cons_of_mem _ hmem), hv.reported⟩, fun hn => ⟨hn, [⟨kind, t.text⟩], ?_,
      rfl, hu, by simp [Cursor.text, hrest], hsound t List.mem_cons_self⟩⟩
    simp [Cursor.lexemes, hrest, bare, hu]

theorem keeps_word {word : String} (h : c.isAtWord word = true) :
    Keeps c bump fun taken t => taken = [⟨.name, word⟩] ∧ t.text = word := by
  obtain ⟨hk, rfl⟩ := Cursor.kind?_of_isAtWord h
  refine (keeps_bump hk).imp fun taken t ht => ?_
  obtain ⟨rfl, -, htext, -⟩ := ht
  exact ⟨by rw [htext], htext⟩

/-- A token of a class with one text. -/
theorem keeps_sign (hs : kind.sign? = some s) (hk : c.kind? = some kind) :
    Keeps c bump fun taken _ => taken = [⟨kind, s⟩] := by
  refine (keeps_bump hk).imp fun taken t ht => ?_
  obtain ⟨rfl, rfl, -, hsound⟩ := ht
  rw [hsound.sign s hs]

theorem keeps_eat (kind : TokenKind) :
    Keeps c (eat kind) fun taken o => taken = o.toList.map (fun t => ⟨kind, t.text⟩) ∧
      ∀ t, o = some t → t.kind = kind ∧ t.IsSound := by
  refine .get_bind ?_
  split
  · rename_i h
    refine (keeps_bump (Cursor.isAt_iff.1 h)).bind fun t _ => .pure fun taken ht => ?_
    obtain ⟨rfl, hkind, -, hsound⟩ := ht
    refine ⟨rfl, fun u hu => ?_⟩
    cases hu
    exact ⟨hkind, hsound⟩
  · exact .pure ⟨rfl, of_none_eq_some⟩

theorem keeps_eat_sign (hs : kind.sign? = some s) :
    Keeps c (eat kind) fun taken o => taken = o.toList.map fun _ => ⟨kind, s⟩ := by
  refine (keeps_eat kind).imp fun taken o ho => ?_
  obtain ⟨rfl, ho⟩ := ho
  cases o with
  | none => rfl
  | some t =>
    obtain ⟨rfl, hsound⟩ := ho t rfl
    simp [hsound.sign s hs]

theorem keeps_eatWord (word : String) :
    Keeps c (eatWord word) fun taken o => taken = o.toList.map fun _ => ⟨.name, word⟩ := by
  refine .get_bind ?_
  split
  · rename_i h
    exact (keeps_word h).bind fun t _ => .pure fun taken ht => by rw [ht.1]; rfl
  · exact .pure rfl

theorem keeps_spanFrom (start : Nat) : Keeps c (spanFrom start) fun taken _ => taken = [] := .get_bind (.pure rfl)

/-! ## Expectations -/

theorem keeps_expect (hs : kind.sign? = some s) :
    Keeps c (expect kind) fun taken o => ∃ t, o = some t ∧ taken = [⟨kind, s⟩] := by
  refine (keeps_eat_sign hs).bind fun o _ => ?_
  cases o with
  | some t => exact .pure fun taken ht => ⟨t, rfl, by rw [ht]; rfl⟩
  | none => exact .get_bind (.fault ((yields_report _ _).fault fun _ _ => .done))

theorem keeps_expectWord (word : String) :
    Keeps c (expectWord word) fun taken o => ∃ t, o = some t ∧ taken = [⟨.name, word⟩] := by
  refine (keeps_eatWord word).bind fun o _ => ?_
  cases o with
  | some t => exact .pure fun taken ht => ⟨t, rfl, by rw [ht]; rfl⟩
  | none => exact .get_bind (.fault ((yields_report _ _).fault fun _ _ => .done))

theorem keeps_expectName :
    Keeps c expectName fun taken o => ∃ name, o = some name ∧ taken = [⟨.name, name.text⟩] := by
  refine (keeps_eat .name).bind fun o _ => ?_
  cases o with
  | some t => exact .pure fun taken ht => ⟨_, rfl, by rw [ht.1]; rfl⟩
  | none => exact .get_bind (.fault ((yields_report _ _).fault fun _ _ => .done))

theorem keeps_close (hs : kind.sign? = some s) (opened : Span) :
    Keeps c (close kind s opened) fun taken _ => taken = [⟨kind, s⟩] := by
  refine (keeps_eat_sign hs).bind fun o _ => ?_
  cases o with
  | some t => exact .pure fun taken ht => by rw [ht]; rfl
  | none => exact .fault (yields_reportUnclosed _ _)

end Moves

/-! ## Rounds -/

section Rounds

variable {α : Type} {c : Cursor} {more : Cursor → Bool} {step : Parse (Option α)} {g : α → List Lexeme}
  {W : List Lexeme → List Lexeme → Prop}

theorem keeps_collectRounds (hnil : W [] [])
    (happend : ∀ {ls ls' os os'}, W ls os → W ls' os' → W (ls ++ ls') (os ++ os'))
    (h : ∀ e, more e = true → Keeps e step fun taken o => ∃ a, o = some a ∧ W taken (g a))
    (rounds : Nat) (found : List α) :
    Keeps c (collectRounds more step rounds found) fun taken items => ∃ new, items = found.reverse ++ new ∧
      W taken (new.flatMap g) ∧ (new = [] → taken = []) ∧ (new ≠ [] → more c = true) := by
  induction rounds generalizing c found with
  | zero => exact .throw
  | succ rounds ih =>
    refine .get_bind ?_
    split
    · rename_i hmore
      refine (h c hmore).bind fun o d => ?_
      cases o with
      | none => exact (ih found).imp fun _ _ _ _ h => of_exists_none_eq h
      | some item =>
        refine (ih (item :: found)).imp fun taken items hitems first hfirst => ?_
        obtain ⟨a, ha, hw⟩ := hfirst
        cases ha
        obtain ⟨new, rfl, hnew, -, -⟩ := hitems
        exact ⟨item :: new, by simp, by rw [List.flatMap_cons]; exact happend hw hnew,
          fun hnil => absurd hnil (List.cons_ne_nil _ _), fun _ => hmore⟩
    · exact .pure ⟨[], (List.append_nil _).symm, hnil, fun _ => rfl, fun hne => absurd rfl hne⟩

/-- The items that are collected are written one after the other. -/
theorem keeps_collect (hnil : W [] []) (happend : ∀ {ls ls' os os'}, W ls os → W ls' os' → W (ls ++ ls') (os ++ os'))
    (h : ∀ e, more e = true → Keeps e step fun taken o => ∃ a, o = some a ∧ W taken (g a)) :
    Keeps c (collect more step) fun taken items => W taken (items.flatMap g) ∧ (items = [] → taken = []) ∧
      (items ≠ [] → more c = true) := by
  refine .get_bind ((keeps_collectRounds hnil happend h _ []).imp fun taken items hitems => ?_)
  obtain ⟨new, rfl, hnew⟩ := hitems
  exact hnew

theorem keeps_items (h : ∀ e, more e = true → Keeps e step (Spells g)) :
    Keeps c (collect more step) fun taken items => Written taken (items.flatMap g) :=
  (keeps_collect Written.nil Written.append h).imp fun _ _ hitems => hitems.1

/-- Items between parentheses. Where there is none, the parentheses are lost. -/
theorem keeps_parens (hg : ∀ a, g a ≠ []) (hmore : ∀ e, more e = true → e.kind? ≠ some .rParen)
    (h : ∀ e, more e = true → Keeps e step (Spells g)) (hat : c.isAt .lParen = true) :
    Keeps c (do
      let opened ← bump
      let items ← collect more step
      close .rParen ")" opened.span
      return items) fun taken items => Written taken
        (if items.isEmpty then [] else ⟨.lParen, "("⟩ :: items.flatMap g ++ [⟨.rParen, ")"⟩]) := by
  refine (keeps_sign rfl (Cursor.isAt_iff.1 hat)).bind fun opened d =>
    (keeps_collect Written.nil Written.append h).head.bind fun items _ => (keeps_close rfl _).bind fun _ _ => .pure ?_
  intro _ hclose inner hinner _ hopen
  obtain ⟨⟨hitems, hnone, hsome⟩, hhead⟩ := hinner
  rw [hopen, hclose]
  by_cases hempty : items = []
  · rw [hnone hempty, hempty]
    exact .emptyParens
  · have hne : inner ≠ [] := hitems.ne_nil (by
      obtain ⟨a, items, rfl⟩ := List.exists_cons_of_ne_nil hempty
      simp [hg a])
    rw [if_neg (by simpa using hempty)]
    have hparens := hitems.parens hne (by rw [hhead hne]; exact hmore d (hsome hempty))
    simpa using hparens

end Rounds

section Nodes

variable {c : Cursor}

/-! ## Types and values -/

theorem keeps_typeRef (room : Nat) : Keeps c (typeRef room) (Spells fun x => x.1.lexemes) := by
  induction room generalizing c with
  | zero => exact .throw
  | succ room ih =>
    rw [typeRef]
    refine .get_bind (.get_bind ?_)
    extract_lets rest
    have hrest : ∀ inner d, Keeps d (rest inner) fun more o => ∀ taken,
        (∃ t, inner = some t ∧ t.required = .nonNull t ∧ Written taken t.lexemes) →
          Spells (fun x => x.1.lexemes) (taken ++ more) o := by
      intro inner d
      cases inner with
      | none => exact .pure fun _ h => of_exists_none_eq h
      | some type =>
        refine (keeps_eat_sign (s := "!") rfl).bind fun mark _ => (keeps_spanFrom _).bind fun span _ => .pure ?_
        intro _ hspan bang hbang taken htype
        obtain ⟨t, ht, hrequired, hw⟩ := htype
        cases ht
        rw [hspan, hbang]
        cases mark with
        | none => exact ⟨_, rfl, by simpa using hw⟩
        | some mark =>
          refine ⟨_, rfl, ?_⟩
          simpa [hrequired, TypeRef.lexemes] using hw.append (.single (x := ⟨.bang, "!"⟩) (by decide) rfl)
    split
    · rename_i hk
      refine (keeps_sign (s := "[") rfl hk).bind fun opened _ => ih.bind fun item _ =>
        (keeps_close (s := "]") rfl _).bind fun _ d => (hrest _ d).imp ?_
      intro more o ho close hclose taken htaken opening hopening
      obtain ⟨x, rfl, hx⟩ := htaken
      have hlist := Written.append (.single (x := ⟨.lBracket, "["⟩) (by decide) rfl)
        (hx.append (.single (x := ⟨.rBracket, "]"⟩) (by decide) rfl))
      have := ho (opening ++ (taken ++ close)) ⟨_, rfl, rfl, by simpa [hopening, hclose, TypeRef.lexemes] using hlist⟩
      simpa using this
    · refine keeps_expectName.bind fun name d => (hrest _ d).imp ?_
      intro more o ho taken htaken
      obtain ⟨name, rfl, rfl⟩ := htaken
      exact ho _ ⟨_, rfl, rfl, .single (by simp) rfl⟩
    · exact .get_bind (.fault ((yields_report _ _).fault fun _ _ => Yields.pure fun _ => trivial))

theorem keeps_variableName :
    Keeps c variableName fun taken o => ∃ name, o = some name ∧ taken = [⟨.dollar, "$"⟩, ⟨.name, name.text⟩] := by
  refine (keeps_expect rfl).some (fun dollar _ => keeps_expectName.some (fun name _ => .pure ?_) fun _ => .done)
    fun _ => .done
  intro _ hname _ hdollar
  exact ⟨_, rfl, by rw [hname, hdollar]; rfl⟩

theorem written_wordValue {t : Token} : Written [⟨.name, t.text⟩] (wordValue t).lexemes := by
  unfold wordValue
  split
  · rename_i h
    exact .single (by simp) (by rw [h]; rfl)
  · split
    · rename_i h
      exact .single (by simp) (by rw [h]; rfl)
    · split
      · rename_i h
        exact .single (by simp) (by rw [h])
      · exact .single (by simp) rfl

theorem keeps_stringValue (t : Token) :
    Keeps c (stringValue t) fun taken v => taken = [] ∧ Written [⟨.string, t.text⟩] v.lexemes := by
  unfold stringValue
  split
  · rename_i content h
    refine .pure ⟨rfl, .single (by simp) ?_⟩
    simp [Lexeme.decoded, h, Text.Quoted.unquote_quote]
  · exact .fault ((yields_reportAt _ _ _).fault fun _ _ => .done)

/-- The lexemes of a field of an input object. -/
abbrev fieldLexemes (f : Name × Value) : List Lexeme := ⟨.name, f.1.text⟩ :: ⟨.colon, ":"⟩ :: f.2.lexemes

variable {given : Parse (Option Value)}

theorem keeps_listItem (hvalue : ∀ c, Keeps c given (Spells Value.lexemes)) :
    Keeps c (listItem given) (Spells Value.lexemes) := by
  refine (hvalue c).some (fun item _ => .pure fun taken hitem => ⟨item, rfl, by simpa using hitem⟩) fun _ =>
    .get_bind ?_
  split
  · exact yields_skip.bind fun _ _ => .pure fun _ _ => trivial
  · exact .done

theorem keeps_objectField (hvalue : ∀ c, Keeps c given (Spells Value.lexemes)) :
    Keeps c (objectField given) (Spells fieldLexemes) := by
  refine keeps_expectName.some (fun name _ => (keeps_expect rfl).some (fun colon d => (hvalue d).some
    (fun field _ => .pure ?_) fun _ => .done) fun _ => .done) fun _ =>
      yields_skip.bind fun _ _ => .pure fun _ _ => trivial
  intro _ hfield _ hcolon _ hname
  refine ⟨_, rfl, ?_⟩
  rw [hcolon, hname, List.append_nil]
  exact .cons (by simp) (.cons (by simp) hfield)

theorem keeps_value (isConst : Bool) (room : Nat) : Keeps c (value isConst room) (Spells Value.lexemes) := by
  induction room generalizing c with
  | zero => exact .throw
  | succ room ih =>
    rw [value]
    refine .get_bind (.get_bind ?_)
    dsimp only
    split
    · -- a variable
      refine keeps_variableName.some (fun name _ => ?_) fun _ => .done
      dsimp only
      split
      · exact .fault ((yields_reportAt _ _ _).fault fun _ _ => .done)
      · refine .pure fun taken hname => ⟨_, rfl, ?_⟩
        rw [hname]
        exact .cons (by simp) (.single (by simp) rfl)
    · rename_i hk
      refine (keeps_bump hk).bind fun t _ => .pure fun taken ht => ⟨_, rfl, ?_⟩
      rw [ht.1]
      exact .single (by simp) rfl
    · rename_i hk
      refine (keeps_bump hk).bind fun t _ => .pure fun taken ht => ⟨_, rfl, ?_⟩
      rw [ht.1]
      exact .single (by simp) rfl
    · rename_i hk
      refine (keeps_bump hk).bind fun t _ => (keeps_stringValue t).bind fun v _ => .pure ?_
      intro _ hv _ ht
      refine ⟨_, rfl, ?_⟩
      rw [ht.1, hv.1]
      exact hv.2
    · rename_i hk
      refine .get_bind ?_
      split
      · exact .fault ((yields_reportHere _).fault fun _ _ => yields_bump.bind fun _ _ => .pure fun _ _ => trivial)
      · refine (keeps_bump hk).bind fun t _ => .pure fun taken ht => ⟨_, rfl, ?_⟩
        rw [ht.1]
        refine .single (by simp) ?_
        simp [Lexeme.decoded, Text.Quoted.unquote_quote]
    · exact .fault ((yields_reportHere _).fault fun _ _ => yields_skip.bind fun _ _ => .pure fun _ _ => trivial)
    · rename_i hk
      refine (keeps_bump hk).bind fun t _ => .pure fun taken ht => ⟨_, rfl, ?_⟩
      rw [ht.1]
      exact written_wordValue
    · rename_i hk
      refine (keeps_sign (s := "[") rfl hk).bind fun opened _ =>
        (keeps_items fun _ _ => keeps_listItem fun _ => ih).bind fun items _ =>
        (keeps_close (s := "]") rfl _).bind fun _ _ => (keeps_spanFrom _).bind fun span _ => .pure ?_
      intro _ hspan _ hclose inner hinner _ hopen
      refine ⟨_, rfl, ?_⟩
      rw [hspan, hclose, hopen, Value.lexemes, Value.lexemesOfItems_eq]
      exact (Written.cons (by simp) hinner).append (.single (by simp) rfl)
    · rename_i hk
      refine (keeps_sign (s := "\x7b") rfl hk).bind fun opened _ =>
        (keeps_items fun _ _ => keeps_objectField fun _ => ih).bind fun fields _ =>
        (keeps_close (s := "\x7d") rfl _).bind fun _ _ => (keeps_spanFrom _).bind fun span _ => .pure ?_
      intro _ hspan _ hclose inner hinner _ hopen
      refine ⟨_, rfl, ?_⟩
      rw [hspan, hclose, hopen, Value.lexemes, Value.lexemesOfFields_eq]
      exact (Written.cons (by simp) hinner).append (.single (by simp) rfl)
    · exact .get_bind (.fault ((yields_report _ _).fault fun _ _ => .done))

/-! ## Arguments and directives -/

theorem kind?_ne_of_not_closes {kinds : List TokenKind} {kind : TokenKind} (h : (!c.closes kinds) = true)
    (hk : kind ∈ kinds) : c.kind? ≠ some kind := by
  intro heq
  simp only [Cursor.closes, Bool.not_eq_true', Bool.or_eq_false_iff, List.any_eq_false] at h
  exact h.2 kind hk (Cursor.isAt_iff.2 heq)

theorem keeps_argument (isConst : Bool) (room : Nat) : Keeps c (argument isConst room) (Spells Argument.lexemes) := by
  refine .get_bind ?_
  split
  · exact .get_bind (.fault ((yields_reportAndSkip _ _).fault fun _ _ => .done))
  · refine keeps_expectName.some (fun name _ => (keeps_expect rfl).some (fun colon _ =>
      (keeps_value isConst room).some (fun given _ => .pure ?_) fun _ => .done) fun _ => .done) fun _ => .done
    intro _ hgiven _ hcolon _ hname
    refine ⟨_, rfl, ?_⟩
    rw [hcolon, hname, List.append_nil]
    exact .cons (by simp) (.cons (by simp) hgiven)

theorem keeps_arguments (isConst : Bool) (room : Nat) (hat : c.isAt .lParen = true) :
    Keeps c (arguments isConst room) fun taken items => Written taken (argumentsLexemes items) :=
  keeps_parens (fun _ => List.cons_ne_nil _ _) (fun _ he => kind?_ne_of_not_closes he (by simp))
    (fun _ _ => keeps_argument isConst room) hat

theorem keeps_optionalArguments (isConst : Bool) (room : Nat) :
    Keeps c (optionalArguments isConst room) fun taken items => Written taken (argumentsLexemes items) := by
  refine .get_bind ?_
  split
  · rename_i hat
    exact keeps_arguments isConst room hat
  · exact .pure .nil

theorem keeps_directive (isConst : Bool) (room : Nat) (hat : c.isAt .atSign = true) :
    Keeps c (directive isConst room) (Spells Directive.lexemes) := by
  refine (keeps_sign rfl (Cursor.isAt_iff.1 hat)).bind fun sign _ => keeps_expectName.some (fun name _ =>
    (keeps_optionalArguments isConst room).bind fun given _ => (keeps_spanFrom _).bind fun span _ => .pure ?_)
      fun _ => .done
  intro _ hspan _ hgiven _ hname _ hsign
  refine ⟨_, rfl, ?_⟩
  rw [hspan, hname, hsign, List.append_nil, List.append_nil]
  exact .cons (by simp) (.cons (by simp) hgiven)

theorem keeps_directives (isConst : Bool) (room : Nat) :
    Keeps c (directives isConst room) fun taken marks => Written taken (directivesLexemes marks) :=
  keeps_items fun _ hat => keeps_directive isConst room hat

/-! ## Selections -/

/-- The lexemes of the label and the name of a field. -/
abbrev labelLexemes (x : Option Name × Name) : List Lexeme :=
  (x.1.toList.flatMap fun label => [⟨.name, label.text⟩, ⟨.colon, ":"⟩]) ++ [⟨.name, x.2.text⟩]

theorem keeps_fieldName : Keeps c fieldName (Spells labelLexemes) := by
  refine keeps_expectName.some (fun first _ => (keeps_eat_sign (s := ":") rfl).bind fun mark _ => ?_) fun _ => .done
  cases mark with
  | none =>
    refine .pure fun _ hmark _ hfirst => ⟨_, rfl, ?_⟩
    rw [hmark, hfirst]
    exact .single (by simp) rfl
  | some mark =>
    refine keeps_expectName.some (fun second _ => .pure ?_) fun _ => .done
    intro _ hsecond _ hmark _ hfirst
    refine ⟨_, rfl, ?_⟩
    rw [hsecond, hmark, hfirst]
    exact .cons (by simp) (.cons (by simp) (.single (by simp) rfl))

variable {room : Nat} {body : Parse SelectionSet}

/-- The parser of a selection set keeps what it takes. -/
abbrev KeepsBody (body : Parse SelectionSet) : Prop :=
  ∀ c : Cursor, c.isAt .lBrace = true → Keeps c body fun taken set => Written taken set.lexemes

theorem keeps_field (hbody : KeepsBody body) : Keeps c (field room body) (Spells Selection.lexemes) := by
  refine .get_bind (keeps_fieldName.some (fun x _ => ?_) fun _ => .done)
  obtain ⟨label, name⟩ := x
  refine (keeps_optionalArguments false room).bind fun given _ => (keeps_directives false room).bind fun marks _ =>
    .get_bind ?_
  have hfield : ∀ {taken taken' taken'' span}, Written taken (labelLexemes (label, name)) →
      Written taken' (argumentsLexemes given) → Written taken'' (directivesLexemes marks) →
        Written (taken ++ (taken' ++ taken'')) (Field.lexemes ⟨label, name, given, marks, span⟩) := by
    intro _ _ _ _ hlabel hgiven hmarks
    simpa [Field.lexemes] using hlabel.append (hgiven.append hmarks)
  split
  · rename_i hat
    refine (hbody _ hat).bind fun set _ => (keeps_spanFrom _).bind fun span _ => .pure ?_
    intro _ hspan _ hset _ hmarks _ hgiven _ hlabel
    refine ⟨_, rfl, ?_⟩
    rw [hspan]
    simpa [Selection.lexemes, SelectionSet.lexemes] using (hfield hlabel hgiven hmarks).append hset
  · refine (keeps_spanFrom _).bind fun span _ => .pure ?_
    intro _ hspan _ hmarks _ hgiven _ hlabel
    refine ⟨_, rfl, ?_⟩
    rw [hspan]
    simpa [Selection.lexemes] using hfield hlabel hgiven hmarks

/-- A spread, behind its dots. -/
theorem keeps_spread (start : Nat) :
    Keeps c (spread room start) fun taken o => Spells Selection.lexemes (⟨.spread, "..."⟩ :: taken) o := by
  refine keeps_expectName.some (fun name _ => (keeps_directives false room).bind fun marks _ =>
    (keeps_spanFrom _).bind fun span _ => .pure ?_) fun _ => .done
  intro _ hspan _ hmarks _ hname
  refine ⟨_, rfl, ?_⟩
  rw [hspan, hname]
  simpa [Selection.lexemes, Spread.lexemes] using
    Written.cons (x := ⟨.spread, "..."⟩) (by simp) (Written.cons (x := ⟨.name, name.text⟩) (by simp) hmarks)

theorem keeps_optionalCondition : Keeps c optionalCondition
    (Spells fun x => x.toList.flatMap fun type => [⟨.name, "on"⟩, ⟨.name, type.text⟩]) := by
  refine (keeps_eatWord _).bind fun on _ => ?_
  cases on with
  | none => exact .pure fun _ hon => ⟨_, rfl, by rw [hon]; exact .nil⟩
  | some on =>
    refine keeps_expectName.some (fun type _ => .pure ?_) fun _ => .done
    intro _ htype _ hon
    refine ⟨_, rfl, ?_⟩
    rw [htype, hon]
    exact .cons (by simp) (.single (by simp) rfl)

/-- An inline fragment, behind its dots. -/
theorem keeps_inlineFragment (start : Nat) (hbody : KeepsBody body) : Keeps c (inlineFragment room start body)
    fun taken o => Spells Selection.lexemes (⟨.spread, "..."⟩ :: taken) o := by
  refine keeps_optionalCondition.some (fun condition _ => (keeps_directives false room).bind fun marks _ =>
    .get_bind ?_) fun _ => .done
  split
  · rename_i hat
    refine (hbody _ hat).bind fun set _ => .pure ?_
    intro _ hset _ hmarks _ hcondition
    refine ⟨_, rfl, ?_⟩
    simpa [Selection.lexemes, Inline.lexemes, SelectionSet.lexemes] using
      Written.cons (x := ⟨.spread, "..."⟩) (by simp) (hcondition.append (hmarks.append hset))
  · exact .get_bind (.fault ((yields_report _ _).fault fun _ _ => .done))

theorem keeps_spreadOrInline (hk : c.kind? = some .spread) (hbody : KeepsBody body) :
    Keeps c (spreadOrInline room body) (Spells Selection.lexemes) := by
  refine (keeps_sign rfl hk).bind fun dots _ => .get_bind (.get_bind ?_)
  split
  · exact (keeps_spread _).imp fun _ _ h _ hdots => by rw [hdots]; exact h
  · exact (keeps_inlineFragment _ hbody).imp fun _ _ h _ hdots => by rw [hdots]; exact h

theorem keeps_selection (hbody : KeepsBody body) : Keeps c (selection room body) (Spells Selection.lexemes) := by
  refine .get_bind ?_
  split
  · exact keeps_field hbody
  · rename_i hk
    exact keeps_spreadOrInline hk hbody
  · exact .get_bind (.fault ((yields_reportAndSkip _ _).fault fun _ _ => .done))

theorem keeps_selectionSet (room : Nat) : KeepsBody (selectionSet room) := by
  induction room with
  | zero => exact fun _ _ => .throw
  | succ room ih =>
    intro c hat
    rw [selectionSet]
    refine (keeps_sign rfl (Cursor.isAt_iff.1 hat)).bind fun opened _ =>
      (keeps_items fun _ _ => keeps_selection ih).bind fun selections _ =>
        (keeps_close rfl _).bind fun _ _ => (keeps_spanFrom _).bind fun span _ => ?_
    dsimp only
    split
    · exact .fault ((yields_reportAt _ _ _).fault fun _ _ => .done)
    · refine .pure ?_
      intro _ hspan _ hclose _ hselections _ hopen
      rw [hspan, hclose, hopen, SelectionSet.lexemes, Selection.lexemesIn_eq]
      exact hselections.braces

/-! ## Definitions -/

theorem keeps_optionalDefault : Keeps c (optionalDefault room)
    (Spells fun x => x.toList.flatMap fun value => ⟨.equals, "="⟩ :: value.lexemes) := by
  refine (keeps_eat_sign (s := "=") rfl).bind fun equals _ => ?_
  cases equals with
  | none => exact .pure fun _ hequals => ⟨_, rfl, by rw [hequals]; exact .nil⟩
  | some equals =>
    refine (keeps_value true room).some (fun given _ => .pure ?_) fun _ => .done
    intro _ hgiven _ hequals
    refine ⟨_, rfl, ?_⟩
    simpa [hequals] using Written.cons (x := ⟨.equals, "="⟩) (by simp) hgiven

theorem keeps_variableDefinition :
    Keeps c (variableDefinition room) (Spells VariableDefinition.lexemes) := by
  refine keeps_variableName.some (fun name _ => (keeps_expect (s := ":") rfl).some (fun colon _ =>
    (keeps_typeRef room).some (fun type _ => ?_) fun _ => .done) fun _ => .done) fun _ => .done
  obtain ⟨type, typeSpan⟩ := type
  refine keeps_optionalDefault.some (fun initial _ => (keeps_directives true room).bind fun marks _ =>
    (keeps_spanFrom _).bind fun span _ => .pure ?_) fun _ => .done
  intro _ hspan _ hmarks _ hinitial _ htype _ hcolon _ hname
  refine ⟨_, rfl, ?_⟩
  rw [hspan, hcolon, hname]
  simpa [VariableDefinition.lexemes] using Written.cons (x := ⟨.dollar, "$"⟩) (by simp)
    (Written.cons (x := ⟨.name, name.text⟩) (by simp) (Written.cons (x := ⟨.colon, ":"⟩) (by simp)
      (htype.append (hinitial.append hmarks))))

theorem keeps_declaredVariable : Keeps c (declaredVariable room) (Spells VariableDefinition.lexemes) := by
  refine .get_bind ?_
  split
  · exact keeps_variableDefinition
  · exact .get_bind (.fault ((yields_reportAndSkip _ _).fault fun _ _ => .done))

theorem keeps_variableDefinitions (hat : c.isAt .lParen = true) :
    Keeps c (variableDefinitions room) fun taken items => Written taken (variablesLexemes items) :=
  keeps_parens (fun _ => List.cons_ne_nil _ _) (fun _ he => kind?_ne_of_not_closes he (by simp))
    (fun _ _ => keeps_declaredVariable) hat

theorem keeps_namedOperation (h : c.isAtAnyWord operationWords = true) :
    Keeps c (namedOperation room) (Spells fun op => op.headLexemes ++ op.body.lexemes) := by
  obtain ⟨word, hword, hat⟩ := List.any_eq_true.1 h
  refine .get_bind ((keeps_word hat).bind fun keyword _ => .get_bind ?_)
  extract_lets rest
  have hrest : ∀ name d, Keeps d (rest name) fun more o => ∀ taken taken',
      taken = [⟨.name, word⟩] ∧ keyword.text = word → taken' = (name.toList.map fun name => ⟨.name, name.text⟩) →
        Spells (fun op => op.headLexemes ++ op.body.lexemes) (taken ++ (taken' ++ more)) o := by
    intro name d
    refine .get_bind ?_
    extract_lets rest
    have hrest : ∀ declared d, Keeps d (rest declared) fun more o => ∀ taken taken' taken'',
        taken = [⟨.name, word⟩] ∧ keyword.text = word → taken' = (name.toList.map fun name => ⟨.name, name.text⟩) →
          Written taken'' (variablesLexemes declared) →
            Spells (fun op => op.headLexemes ++ op.body.lexemes) (taken ++ (taken' ++ (taken'' ++ more))) o := by
      intro declared d
      refine (keeps_directives false room).bind fun marks _ => .get_bind ?_
      split
      · rename_i hat
        refine (keeps_selectionSet room _ hat).bind fun body _ => .pure ?_
        intro _ hbody _ hmarks _ _ _ hkeyword hname hdeclared
        refine ⟨_, rfl, ?_⟩
        have hnamed : Written (name.toList.map fun name => ⟨.name, name.text⟩)
            (name.toList.map fun name => ⟨.name, name.text⟩) := by
          cases name with
          | none => exact .nil
          | some name => exact .single (by simp) rfl
        simpa [Operation.headLexemes, hkeyword, hname, keyword_operationKind hword] using
          Written.cons (x := ⟨.name, word⟩) (by simp) (hnamed.append (hdeclared.append (hmarks.append hbody)))
      · exact .fault (yields_missingSelectionSet.fault fun _ _ => .done)
    split
    · rename_i hat
      refine (keeps_variableDefinitions hat).bind fun declared d => (hrest declared d).imp ?_
      exact fun _ _ h _ hdeclared _ _ hkeyword hname => h _ _ _ hkeyword hname hdeclared
    · exact (hrest [] d).imp fun _ _ h _ _ hkeyword hname => h _ _ [] hkeyword hname .nil
  split
  · refine keeps_expectName.bind fun name d => (hrest name d).imp ?_
    intro _ _ h _ hname _ hkeyword
    obtain ⟨name, rfl, rfl⟩ := hname
    exact h _ _ hkeyword rfl
  · exact (hrest none _).imp fun _ _ h _ hkeyword => h _ [] hkeyword rfl

theorem keeps_shorthandOperation (hat : c.isAt .lBrace = true) : Keeps c (shorthandOperation room)
    fun taken op => Written taken op.lexemes := by
  refine .get_bind ((keeps_selectionSet room c hat).bind fun body _ => .pure fun _ hbody => ?_)
  rw [List.append_nil]
  exact hbody

theorem keeps_fragment (hat : c.isAtWord "fragment" = true) :
    Keeps c (fragment room) (Spells Fragment.lexemes) := by
  refine .get_bind (Keeps.bind (R := fun taken _ => taken = [⟨.name, "fragment"⟩]) ?_ fun _ d => .get_bind ?_)
  · exact (keeps_word hat).bind fun _ _ => .pure fun _ h => by rw [List.append_nil]; exact h.1
  · have hrecover : ∀ d, Yields d (do recover; return (none : Option Fragment)) fun _ => True :=
      fun _ => yields_recover.bind fun _ _ => .pure fun _ _ => trivial
    split
    · exact .fault ((yields_report _ _).fault fun _ d => hrecover d)
    · refine keeps_expectName.some (fun name _ => (keeps_expectWord _).some (fun on _ => keeps_expectName.some
        (fun condition _ => (keeps_directives false room).bind fun marks _ => .get_bind ?_) hrecover) hrecover) hrecover
      split
      · rename_i hat
        refine (keeps_selectionSet room _ hat).bind fun body _ => .pure ?_
        intro _ hbody _ hmarks _ hcondition _ hon _ hname _ hfragment
        refine ⟨_, rfl, ?_⟩
        rw [hcondition, hon, hname, hfragment, List.append_nil]
        exact .cons (by simp) (.cons (by simp) (.cons (by simp) (.cons (by simp) (hmarks.append hbody))))
      · exact .fault (yields_missingSelectionSet.fault fun _ _ => .done)

/-- A definition is written with the lexemes taken, save a keyword that it does not need. -/
theorem keeps_definition (room : Nat) :
    Keeps c (definition room) fun taken o => ∃ d, o = some d ∧ Opens taken d.lexemes := by
  refine .get_bind ?_
  split
  · rename_i hat
    refine (keeps_shorthandOperation hat).bind fun op _ => .pure fun _ hop => ⟨_, rfl, ?_⟩
    rw [List.append_nil]
    exact hop.opens (withoutKeyword_definition (.operation op))
  · split
    · rename_i hat
      refine (keeps_fragment hat).bind fun o _ => .pure ?_
      rintro _ ⟨frag, rfl, hfrag⟩
      rw [List.append_nil]
      exact ⟨_, rfl, hfrag.opens (withoutKeyword_definition (.fragment frag))⟩
    · split
      · rename_i hat
        refine (keeps_namedOperation hat).bind fun o _ => .pure ?_
        rintro _ ⟨op, rfl, hop⟩
        rw [List.append_nil]
        exact ⟨_, rfl, hop.opens (withoutKeyword_operation op)⟩
      · split
        · exact .fault (yields_skipTypeSystemDefinition.fault fun _ _ => .done)
        · exact .fault (yields_skipStray.fault fun _ _ => .done)

theorem keeps_document (room : Nat) : Keeps c (document room) fun taken document => Opens taken document.lexemes := by
  refine (keeps_collect Opens.nil Opens.append fun c _ => keeps_definition room).bind fun definitions _ => .get_bind ?_
  dsimp only
  split
  · exact .fault ((yields_reportHere _).fault fun _ _ => .done)
  · refine .pure fun _ h => ?_
    rw [List.append_nil]
    exact h.1

end Nodes

end QueryBatch.Parse

namespace QueryBatch.Document

open Parse

section Read

variable {text : String} {limits : Limits} {d : Document} {n : Nat}

/-- All lexemes of a text that is read without diagnostics are those of the document, up to spelling. -/
theorem opens_of_read (h : read text limits = .ok ⟨d, [], n⟩) : Opens (Token.lexemes text) d.lexemes := by
  obtain ⟨free, hfree, hsame, -⟩ := read_within_limits text limits
  obtain ⟨rfl, hsilent⟩ : d = free.document ∧ [] = free.diagnostics := hsame _ h
  simp only [read, StateT.run] at hfree
  split at hfree
  · rename_i document final hrun
    cases hfree
    obtain ⟨hvalid, hkeeps⟩ := keeps_document _ (Cursor.valid_ofText text none) hrun
    obtain ⟨-, taken, htaken, hopens⟩ := hkeeps hsilent.symm
    -- at the end no token is left
    obtain ⟨_, document', final', houtcome, hclean⟩ :=
      @costs_document (.ofText text none) ((Cursor.ofText text none).roomFor none)
        ((Cursor.ofText text none).roomFor none) (Nat.lt_succ_self _)
    have hfree : Except.ok (document, final) = .ok (document', final'.free) := hrun.symm.trans houtcome.free
    obtain ⟨-, rfl⟩ := Prod.mk.inj (Except.ok.inj hfree)
    have hlast : final'.Clean := Classical.byContradiction fun hlast => hvalid.reported hlast hsilent.symm
    have hrest : final'.rest = [] := (hclean hlast).2.2
    have hwhole : Token.lexemes text = taken := by
      rw [Cursor.lexemes, Cursor.lexemes, Cursor.free, hrest, List.map_nil, List.append_nil] at htaken
      exact htaken
    rw [hwhole]
    exact hopens
  · cases hfree

theorem WellFormed.canonical_lexemes_text (h : d.WellFormed) :
    canonical (Token.lexemes d.text) = d.lexemes.map Lexeme.decoded := by
  have hprinted : Token.lexemes d.text = d.lexemes := Token.bare_scan h.lexes_text
  rw [hprinted, d.canonical_lexemes]

/-- The lexemes of a text that is read without diagnostics are those of its printed document, with strings decoded,
without keywords that need not be written and without parentheses that hold nothing. -/
theorem canonical_withoutEmptyParens_of_read (h : read text limits = .ok ⟨d, [], n⟩) :
    canonical (withoutEmptyParens (Token.lexemes text)) = canonical (Token.lexemes d.text) := by
  have hopens := opens_of_read h []
  rw [List.append_nil] at hopens
  rw [(wellFormed_of_read h).canonical_lexemes_text]
  exact hopens.trans (List.append_nil _)

/-- A text that is read without diagnostics has the lexemes of its printed document, with strings decoded and without
keywords that need not be written, once the parentheses are left out that hold nothing. They are all that is lost: with
them the lexemes are the same just if there are none. -/
theorem canonical_lexemes_of_read (h : read text limits = .ok ⟨d, [], n⟩) :
    canonical (withoutEmptyParens (Token.lexemes text)) = canonical (Token.lexemes d.text) ∧
      (canonical (Token.lexemes text) = canonical (Token.lexemes d.text) ↔
        withoutEmptyParens (Token.lexemes text) = Token.lexemes text) := by
  have hkept := canonical_withoutEmptyParens_of_read h
  refine ⟨hkept, ?_⟩
  rw [← hkept, ← canonical_withoutEmptyParens_eq_iff]
  exact eq_comm

end Read

/-- An anonymous query with its keyword, a block string and a directive with empty parentheses. -/
def spelledText : String :=
  "query \x7b f(a: \"\"\" b \"\"\", c: [\"\\u0064\"]) @e() \x7d"

/-- That text keeps all but the parentheses. -/
theorem canonical_lexemes_of_spelledText : ∃ d n, read spelledText = .ok ⟨d, [], n⟩ ∧
    canonical (withoutEmptyParens (Token.lexemes spelledText)) = canonical (Token.lexemes d.text) ∧
    canonical (Token.lexemes spelledText) ≠ canonical (Token.lexemes d.text) := by
  have hread : (read spelledText).toOption.map (fun parsed => parsed.diagnostics.isEmpty) = some true := by
    decide +kernel
  have hparens : withoutEmptyParens (Token.lexemes spelledText) ≠ Token.lexemes spelledText := by decide +kernel
  cases h : read spelledText with
  | error stop =>
    rw [h] at hread
    cases hread
  | ok parsed =>
    obtain ⟨d, diagnostics, n⟩ := parsed
    rw [h] at hread
    obtain rfl := List.isEmpty_iff.1 (Option.some.inj hread)
    obtain ⟨hkept, hiff⟩ := canonical_lexemes_of_read h
    exact ⟨d, n, rfl, hkept, fun hsame => hparens (hiff.1 hsame)⟩

/-- A field with empty parentheses. -/
def emptyArgumentsText : String := "\x7b f() \x7d"

/-- That text is read without diagnostics, and the printed document has other lexemes. -/
theorem exists_canonical_lexemes_ne : ∃ d n, read emptyArgumentsText = .ok ⟨d, [], n⟩ ∧
    canonical (Token.lexemes emptyArgumentsText) ≠ canonical (Token.lexemes d.text) := by
  have hread : (read emptyArgumentsText).toOption.map (fun parsed => (parsed.diagnostics.isEmpty,
      decide (canonical (Token.lexemes emptyArgumentsText) = parsed.document.lexemes.map Lexeme.decoded))) =
        some (true, false) := by decide +kernel
  cases h : read emptyArgumentsText with
  | error stop =>
    rw [h] at hread
    cases hread
  | ok parsed =>
    obtain ⟨d, diagnostics, n⟩ := parsed
    rw [h] at hread
    obtain ⟨hnone, hlost⟩ := Prod.mk.inj (Option.some.inj hread)
    obtain rfl := List.isEmpty_iff.1 hnone
    refine ⟨d, n, rfl, ?_⟩
    rw [(wellFormed_of_read h).canonical_lexemes_text]
    exact of_decide_eq_false hlost

end QueryBatch.Document
