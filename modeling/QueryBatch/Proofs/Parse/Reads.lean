import QueryBatch.Parse.Document
import QueryBatch.Proofs.Document.Lexemes
import QueryBatch.Proofs.Document.Nesting

/-!
# Reading the lexemes of a node

* `Reads p ls more Q`: with a step for every token, `p` reads the lexemes `ls` up to `more`, reports nothing, and yields
  what has the property `Q`.
* `reads_value`, `reads_selectionSet`, `reads_definition`, …: each parser reads the lexemes of a well-formed node, and
  yields the node up to spans. The number of lexemes is room enough; for types and values their nesting is.
* `Document.WellFormed.read_text`: the printed text of a well-formed document is read as that document.
-/

namespace QueryBatch

/-! ## Lexemes and nesting -/

theorem greatest_le_flatMap {α : Type} {f : α → Nat} {g : α → List Lexeme} {items : List α}
    (h : ∀ a ∈ items, f a ≤ (g a).length) : greatest f items ≤ (items.flatMap g).length := by
  induction items with
  | nil => exact Nat.zero_le _
  | cons a items ih =>
    have hfirst := h a List.mem_cons_self
    have hothers := ih fun b hb => h b (List.mem_cons_of_mem _ hb)
    rw [greatest, List.flatMap_cons, List.length_append]
    omega

/-- A type has a lexeme for each of the types inside one another. -/
theorem TypeRef.nesting_le_length (t : TypeRef) : t.nesting ≤ t.lexemes.length := by
  induction t with
  | named name => exact Nat.le_refl 1
  | list item ih =>
    simp only [TypeRef.nesting, TypeRef.lexemes, List.length_cons, List.length_append]
    omega
  | nonNull inner ih =>
    simp only [TypeRef.nesting, TypeRef.lexemes, List.length_append]
    omega

/-- A well-formed value has a lexeme for each of the values inside one another. -/
theorem Value.WellFormed.nesting_le_length {isConst : Bool} {v : Value} (h : v.WellFormed isConst) :
    v.nesting ≤ v.lexemes.length := by
  induction h with
  | «variable» hn => exact Nat.le_add_left 1 1
  | list h ih =>
    rw [Value.nesting_list, Value.lexemes, Value.lexemesOfItems_eq, List.cons_append, List.length_cons,
      List.length_append]
    have hitems := greatest_le_flatMap ih
    omega
  | object hnames h ih =>
    rw [Value.nesting_object, Value.lexemes, Value.lexemesOfFields_eq, List.cons_append, List.length_cons,
      List.length_append]
    have hfields := greatest_le_flatMap (f := fun f : Name × Value => f.2.nesting)
      (g := fun f => ⟨.name, f.1.text⟩ :: ⟨.colon, ":"⟩ :: f.2.lexemes) fun f hf =>
        Nat.le_trans (ih f hf) (by simp only [List.length_cons]; omega)
    omega
  | _ => exact Nat.le_refl 1

end QueryBatch

namespace QueryBatch.Parse

open Token

/-- A cursor in front of lexemes, with a step left for each of them. -/
structure Cursor.Shows (c : Cursor) (ls : List Lexeme) : Prop where
  rest : c.rest.map bare = ls
  affords : ∀ k ∈ c.allowance, c.steps + c.rest.length ≤ k

/-- A parser reads the lexemes `ls` up to `more` and reports nothing. What it yields has a property. -/
def Reads {α : Type} (p : Parse α) (ls more : List Lexeme) (Q : α → Prop) : Prop :=
  ∀ c : Cursor, c.Shows ls → ∃ a c', p c = .ok (a, c') ∧ c'.Shows more ∧ c'.reports = c.reports ∧ Q a

/-- Lexemes that start with none of some classes. -/
def Avoids (kinds : List TokenKind) (ls : List Lexeme) : Prop := ∀ x, ls.head? = some x → x.kind ∉ kinds

theorem avoids_cons {kinds : List TokenKind} {x : Lexeme} (h : x.kind ∉ kinds) (ls : List Lexeme) :
    Avoids kinds (x :: ls) := by
  intro y hy
  cases hy
  exact h

theorem Avoids.mono {kinds kinds' : List TokenKind} {ls : List Lexeme} (h : Avoids kinds' ls) (hk : kinds ⊆ kinds') :
    Avoids kinds ls := fun x hx hm => h x hx (hk hm)

/-! ## Rules -/

namespace Reads

variable {α β : Type} {p : Parse α} {ls ms ns : List Lexeme} {R : α → Prop} {Q : β → Prop}

theorem pure {b : β} (h : Q b) : Reads (Pure.pure b : Parse β) ls ls Q := fun c hc => ⟨b, c, rfl, hc, rfl, h⟩

theorem bind {f : α → Parse β} (hp : Reads p ls ms R) (hf : ∀ a, R a → Reads (f a) ms ns Q) :
    Reads (p >>= f) ls ns Q := by
  intro c hc
  obtain ⟨a, c', hpc, hc', hreports, ha⟩ := hp c hc
  obtain ⟨b, c'', hfc, hc'', hreports', hb⟩ := hf a ha c' hc'
  exact ⟨b, c'', bind_eq_ok.2 ⟨a, c', hpc, hfc⟩, hc'', hreports'.trans hreports, hb⟩

theorem get_bind {f : Cursor → Parse β} (h : ∀ c, c.Shows ls → Reads (f c) ls ms Q) : Reads (get >>= f) ls ms Q :=
  fun c hc => h c hc c hc

theorem imp {Q' : β → Prop} {p : Parse β} (h : Reads p ls ms Q) (hq : ∀ b, Q b → Q' b) : Reads p ls ms Q' := by
  intro c hc
  obtain ⟨b, c', hpc, hc', hreports, hb⟩ := h c hc
  exact ⟨b, c', hpc, hc', hreports, hq b hb⟩

end Reads

/-! ## Cursors -/

namespace Cursor.Shows

variable {c : Cursor} {ls : List Lexeme} {x : Lexeme} {kinds : List TokenKind} {kind : TokenKind}

theorem kind? (h : c.Shows ls) : c.kind? = ls.head?.map Lexeme.kind := by
  obtain ⟨rfl, -⟩ := h
  cases hr : c.rest <;> simp [Cursor.kind?, hr, bare]

theorem isAt_cons (h : c.Shows (x :: ls)) : c.isAt kind = (x.kind == kind) := by
  simp [isAt, h.kind?]

theorem isAt_pos (h : c.Shows (x :: ls)) (hk : x.kind = kind) : c.isAt kind = true := by simp [h.isAt_cons, hk]

theorem isAt_neg (h : c.Shows (x :: ls)) (hk : x.kind ≠ kind) : c.isAt kind = false := by simp [h.isAt_cons, hk]

theorem not_isAt (h : c.Shows ls) (ha : Avoids kinds ls) (hk : kind ∈ kinds) : c.isAt kind = false := by
  cases ls with
  | nil => simp [isAt, h.kind?]
  | cons x ls =>
    rw [h.isAt_cons]
    have hne : x.kind ≠ kind := fun he => ha x rfl (he ▸ hk)
    simpa using hne

theorem text_cons (h : c.Shows (x :: ls)) : c.text = x.text := by
  obtain ⟨hr, -⟩ := h
  cases hrest : c.rest with
  | nil => simp [hrest] at hr
  | cons t rest =>
    simp only [hrest, List.map_cons, List.cons.injEq] at hr
    simp [Cursor.text, hrest, ← hr.1, bare]

theorem isAtWord_cons {word : String} (h : c.Shows (x :: ls)) :
    c.isAtWord word = (x.kind == .name && x.text == word) := by
  rw [isAtWord, h.isAt_cons, h.text_cons]

theorem length (h : c.Shows ls) : c.rest.length = ls.length := by
  rw [← h.rest, List.length_map]

theorem atEnd_cons (h : c.Shows (x :: ls)) : c.atEnd = false := by
  cases hrest : c.rest with
  | nil => simpa [hrest] using h.rest
  | cons t rest => simp [atEnd, hrest]

theorem closes_cons (h : c.Shows (x :: ls)) : c.closes kinds = kinds.any (x.kind == ·) := by
  rw [closes, h.atEnd_cons, Bool.false_or]
  exact congrArg kinds.any (funext fun kind => h.isAt_cons)

end Cursor.Shows

/-! ## Moves -/

section Moves

variable {x : Lexeme} {ls : List Lexeme}

theorem reads_bump : Reads bump (x :: ls) ls fun t => t.bare = x := by
  intro c hc
  obtain ⟨hrest, haffords⟩ := hc
  cases hr : c.rest with
  | nil => simp [hr] at hrest
  | cons t rest =>
    simp only [hr, List.map_cons, List.cons.injEq] at hrest
    have hleft : c.allowance.any (fun k => k ≤ c.steps) = false := by
      refine Bool.eq_false_iff.2 fun hspent => ?_
      obtain ⟨k, hk, hle⟩ := (Option.any_eq_true _ _).1 hspent
      have henough := haffords k hk
      have hle := of_decide_eq_true hle
      rw [hr, List.length_cons] at henough
      omega
    have hnext : ∀ k ∈ c.allowance, c.steps + 1 + rest.length ≤ k := fun k hk => by
      have henough := haffords k hk
      rw [hr, List.length_cons] at henough
      omega
    refine ⟨t, { c with rest, steps := c.steps + 1, consumedEnd := t.span.stop }, ?_, ⟨hrest.2, hnext⟩, rfl, hrest.1⟩
    simp [bump, hleft, hr]

theorem reads_skip : Reads skip (x :: ls) ls fun _ => True := reads_bump.bind fun _ _ => .pure trivial

theorem reads_spanFrom (start : Nat) : Reads (spanFrom start) ls ls fun _ => True := .get_bind fun _ _ => .pure trivial

theorem reads_eat {kind : TokenKind} (h : x.kind = kind) :
    Reads (eat kind) (x :: ls) ls fun o => ∃ t, o = some t ∧ t.bare = x := by
  refine .get_bind fun c hc => ?_
  rw [hc.isAt_cons, if_pos (by simpa using h)]
  exact reads_bump.bind fun t ht => .pure ⟨t, rfl, ht⟩

/-- A token of another class is left where it is. -/
theorem reads_eat_none {kind : TokenKind} {kinds : List TokenKind} (h : Avoids kinds ls) (hk : kind ∈ kinds) :
    Reads (eat kind) ls ls fun o => o = none := by
  refine .get_bind fun c hc => ?_
  rw [hc.not_isAt h hk, if_neg Bool.false_ne_true]
  exact .pure rfl

theorem reads_eatWord {word : String} :
    Reads (eatWord word) (⟨.name, word⟩ :: ls) ls fun o => ∃ t, o = some t ∧ t.bare = ⟨.name, word⟩ := by
  refine .get_bind fun c hc => ?_
  rw [hc.isAtWord_cons, if_pos (by simp)]
  exact reads_bump.bind fun t ht => .pure ⟨t, rfl, ht⟩

theorem reads_eatWord_none {word : String} (h : ∀ x, ls.head? = some x → x ≠ ⟨.name, word⟩) :
    Reads (eatWord word) ls ls fun o => o = none := by
  refine .get_bind fun c hc => ?_
  have hat : c.isAtWord word = false := by
    cases ls with
    | nil => simp [Cursor.isAtWord, Cursor.isAt, hc.kind?]
    | cons x ls =>
      rw [hc.isAtWord_cons]
      refine Bool.eq_false_iff.2 fun heq => h x rfl ?_
      simp only [Bool.and_eq_true, beq_iff_eq] at heq
      cases x
      simp_all
  rw [hat, if_neg Bool.false_ne_true]
  exact .pure rfl

theorem reads_expect {kind : TokenKind} (h : x.kind = kind) :
    Reads (expect kind) (x :: ls) ls fun o => ∃ t, o = some t ∧ t.bare = x := by
  refine (reads_eat h).bind ?_
  rintro _ ⟨t, rfl, ht⟩
  exact .pure ⟨t, rfl, ht⟩

theorem reads_expectWord {word : String} :
    Reads (expectWord word) (⟨.name, word⟩ :: ls) ls fun o => ∃ t, o = some t := by
  refine reads_eatWord.bind ?_
  rintro _ ⟨t, rfl, -⟩
  exact .pure ⟨t, rfl⟩

theorem reads_expectName {text : String} :
    Reads expectName (⟨.name, text⟩ :: ls) ls fun o => ∃ name, o = some name ∧ name.text = text := by
  refine (reads_eat rfl).bind ?_
  rintro _ ⟨t, rfl, ht⟩
  exact .pure ⟨_, rfl, congrArg Lexeme.text ht⟩

theorem reads_close {kind : TokenKind} (h : x.kind = kind) (closer : String) (opened : Span) :
    Reads (close kind closer opened) (x :: ls) ls fun _ => True := by
  refine (reads_eat h).bind ?_
  rintro _ ⟨t, rfl, -⟩
  exact .pure trivial

end Moves

/-! ## Rounds -/

theorem length_le_length_flatMap {ι : Type} {f : ι → List Lexeme} {items : List ι} (h : ∀ x ∈ items, f x ≠ []) :
    items.length ≤ (items.flatMap f).length := by
  induction items with
  | nil => exact Nat.zero_le _
  | cons x items ih =>
    have hfirst := List.length_pos_iff.2 (h x List.mem_cons_self)
    have hothers := ih fun y hy => h y (List.mem_cons_of_mem _ hy)
    rw [List.flatMap_cons, List.length_append, List.length_cons]
    omega

section Rounds

variable {ι α γ : Type} {more : Cursor → Bool} {step : Parse (Option α)} {lexemes : ι → List Lexeme} {seen : α → γ}
  {meant : ι → γ}

/-- The step reads items that start with certain classes, in front of others that start with none of the classes that
would go on with an item. What it yields is seen as what the item is meant to be. -/
structure ReadsItems (step : Parse (Option α)) (lexemes : ι → List Lexeme) (seen : α → γ) (meant : ι → γ)
    (starts follow : List TokenKind) (items : List ι) : Prop where
  start : ∀ x ∈ items, ∃ y ls, lexemes x = y :: ls ∧ y.kind ∈ starts
  disjoint : ∀ kind ∈ starts, kind ∉ follow
  reads : ∀ x ∈ items, ∀ ls, Avoids follow ls →
    Reads step (lexemes x ++ ls) ls fun o => ∃ a, o = some a ∧ seen a = meant x

/-- The step reads nodes up to their spans. -/
abbrev ReadsNodes (step : Parse (Option α)) (lexemes : α → List Lexeme) (unspanned : α → α)
    (starts follow : List TokenKind) (items : List α) : Prop :=
  ReadsItems step lexemes unspanned unspanned starts follow items

theorem reads_collectRounds {starts follow : List TokenKind} {items : List ι} {out : List Lexeme}
    (h : ReadsItems step lexemes seen meant starts follow items) (hout : Avoids follow out)
    (hmore : ∀ c y ls, c.Shows (y :: ls) → y.kind ∈ starts → more c = true)
    (hend : ∀ c, c.Shows out → more c = false) (rounds : Nat) (hr : items.length < rounds) (found : List α) :
    Reads (collectRounds more step rounds found) (items.flatMap lexemes ++ out) out fun as =>
      as.map seen = found.reverse.map seen ++ items.map meant := by
  induction items generalizing rounds found with
  | nil =>
    cases rounds with
    | zero => exact absurd hr (Nat.not_lt_zero _)
    | succ rounds =>
      refine .get_bind fun c hc => ?_
      rw [hend c hc, if_neg Bool.false_ne_true]
      exact .pure (by simp)
  | cons x items ih =>
    have hitems : ReadsItems step lexemes seen meant starts follow items :=
      ⟨fun y hy => h.start y (List.mem_cons_of_mem _ hy), h.disjoint,
        fun y hy => h.reads y (List.mem_cons_of_mem _ hy)⟩
    cases rounds with
    | zero => exact absurd hr (Nat.not_lt_zero _)
    | succ rounds =>
      rw [List.flatMap_cons, List.append_assoc]
      refine .get_bind fun c hc => ?_
      obtain ⟨y, ls, hy, hstart⟩ := h.start x List.mem_cons_self
      rw [hmore c y _ (by rw [hy] at hc; exact hc) hstart, if_pos rfl]
      -- what follows the item is the next one, or what follows all of them
      have hnext : Avoids follow (items.flatMap lexemes ++ out) := by
        cases items with
        | nil => exact hout
        | cons z items =>
          obtain ⟨w, ws, hw, hstart⟩ := hitems.start z List.mem_cons_self
          intro v hv
          rw [List.flatMap_cons, hw] at hv
          cases hv
          exact h.disjoint _ hstart
      refine (h.reads x List.mem_cons_self _ hnext).bind ?_
      rintro _ ⟨a, rfl, ha⟩
      refine (ih hitems rounds (by simpa using hr) (a :: found)).imp fun as has => ?_
      rw [has]
      simp [ha]

/-- A loop reads items up to where it ends. -/
theorem reads_collect {starts follow : List TokenKind} {items : List ι} {out : List Lexeme}
    (h : ReadsItems step lexemes seen meant starts follow items) (hout : Avoids follow out)
    (hmore : ∀ c y ls, c.Shows (y :: ls) → y.kind ∈ starts → more c = true)
    (hend : ∀ c, c.Shows out → more c = false) :
    Reads (collect more step) (items.flatMap lexemes ++ out) out fun as =>
      as.map seen = items.map meant := by
  refine .get_bind fun c hc => ?_
  have hlength : items.length ≤ c.rest.length := by
    rw [hc.length, List.length_append]
    refine Nat.le_trans (length_le_length_flatMap fun x hx he => ?_) (Nat.le_add_right _ _)
    obtain ⟨y, ls, hy, -⟩ := h.start x hx
    exact List.cons_ne_nil y ls (hy.symm.trans he)
  exact (reads_collectRounds h hout hmore hend _ (Nat.lt_succ_of_le hlength) []).imp fun as has => by simpa using has

/-- A loop up to a closing class goes on in front of every other class. -/
theorem more_of_starts {starts kinds : List TokenKind} (h : ∀ kind ∈ starts, kind ∉ kinds) (c : Cursor) (y : Lexeme)
    (ls : List Lexeme) (hc : c.Shows (y :: ls)) (hy : y.kind ∈ starts) : (!c.closes kinds) = true := by
  rw [hc.closes_cons, Bool.not_eq_true', List.any_eq_false]
  intro kind hk he
  exact h _ hy (by simpa [beq_iff_eq.1 he] using hk)

theorem not_more_of_closes {kinds : List TokenKind} {x : Lexeme} {ls : List Lexeme} (h : x.kind ∈ kinds) (c : Cursor)
    (hc : c.Shows (x :: ls)) : (!c.closes kinds) = false := by
  rw [hc.closes_cons, Bool.not_eq_false', List.any_eq_true]
  exact ⟨_, h, beq_self_eq_true _⟩

end Rounds

/-! ## Types and values -/

theorem length_le_flatMap {α : Type} {f : α → List Lexeme} {items : List α} {x : α} (h : x ∈ items) :
    (f x).length ≤ (items.flatMap f).length := by
  induction items with
  | nil => cases h
  | cons y items ih =>
    rw [List.flatMap_cons, List.length_append]
    rcases List.mem_cons.1 h with rfl | h
    · omega
    · have := ih h
      omega

/-- What a type is read as, given what follows it: itself, or the non-null type if a mark follows. -/
inductive Marked (t : TypeRef) : (ls more : List Lexeme) → TypeRef → Prop
  | plain {ls : List Lexeme} : Avoids [.bang] ls → Marked t ls ls t
  | mark {ls : List Lexeme} : t.isNonNull = false → Marked t (⟨.bang, "!"⟩ :: ls) ls (.nonNull t)

theorem Marked.reads_eat {t u : TypeRef} {ls more : List Lexeme} (h : Marked t ls more u) :
    Reads (eat .bang) ls more fun o => (if o.isSome then t.required else t) = u := by
  cases h with
  | plain ha =>
    refine (reads_eat_none ha (by decide)).imp ?_
    rintro _ rfl
    rfl
  | mark hn =>
    refine (Parse.reads_eat rfl).imp ?_
    rintro _ ⟨_, rfl, -⟩
    cases t with
    | named name => rfl
    | list item => rfl
    | nonNull inner => simp [TypeRef.isNonNull] at hn

theorem reads_marked {t u : TypeRef} (h : t.WellFormed) {room : Nat} (hroom : t.nesting ≤ room)
    {ls more : List Lexeme} (hm : Marked t ls more u) :
    Reads (typeRef room) (t.lexemes ++ ls) more fun o => ∃ span, o = some (u, span) := by
  induction h generalizing room ls more u with
  | named hn =>
    cases room with
    | zero => simp [TypeRef.nesting] at hroom
    | succ room =>
      rw [typeRef]
      refine .get_bind fun c _ => .get_bind fun c' hc' => ?_
      have hk : c'.kind? = some .name := by rw [hc'.kind?]; rfl
      simp only [hk]
      refine reads_expectName.bind ?_
      rintro _ ⟨name, rfl, hname⟩
      refine Reads.bind (.pure rfl) ?_
      rintro _ rfl
      refine hm.reads_eat.bind fun o ho => (reads_spanFrom _).bind fun span _ => .pure ⟨span, ?_⟩
      simp only [← ho, hname]
  | @list item _ ih =>
    cases room with
    | zero => simp [TypeRef.nesting] at hroom
    | succ room =>
      rw [typeRef, TypeRef.lexemes, List.cons_append, List.cons_append, List.append_assoc]
      refine .get_bind fun c _ => .get_bind fun c' hc' => ?_
      have hk : c'.kind? = some .lBracket := by rw [hc'.kind?]; rfl
      simp only [hk]
      refine reads_bump.bind fun opened _ =>
        (ih (Nat.le_of_succ_le_succ hroom) (.plain (avoids_cons (by decide) _))).bind ?_
      rintro _ ⟨span, rfl⟩
      refine (reads_close rfl _ _).bind fun _ _ => Reads.bind (.pure rfl) ?_
      rintro _ rfl
      refine hm.reads_eat.bind fun o ho => (reads_spanFrom _).bind fun span _ => .pure ⟨span, ?_⟩
      rw [← ho]
  | nonNull hn _ ih =>
    cases hm with
    | plain ha =>
      rw [TypeRef.lexemes, List.append_assoc]
      exact ih hroom (.mark hn)
    | mark hn' => cases hn'

theorem reads_typeRef {t : TypeRef} (h : t.WellFormed) {room : Nat} (hroom : t.nesting ≤ room)
    {ls : List Lexeme} (hls : Avoids [.bang] ls) :
    Reads (typeRef room) (t.lexemes ++ ls) ls fun o => ∃ span, o = some (t, span) := reads_marked h hroom (.plain hls)

/-- What the lexemes of values start with. -/
def valueStarts : List TokenKind := [.dollar, .int, .float, .string, .name, .lBracket, .lBrace]

theorem start_value (v : Value) : ∃ y ls, v.lexemes = y :: ls ∧ y.kind ∈ valueStarts := by
  cases v <;> exact ⟨_, _, rfl, by simp [valueStarts]⟩

theorem reads_variableName {text : String} {ls : List Lexeme} :
    Reads variableName (⟨.dollar, "$"⟩ :: ⟨.name, text⟩ :: ls) ls fun o =>
      ∃ name, o = some name ∧ name.text = text := by
  refine (reads_expect rfl).bind ?_
  rintro _ ⟨dollar, rfl, -⟩
  refine reads_expectName.bind ?_
  rintro _ ⟨name, rfl, hname⟩
  exact .pure ⟨_, rfl, hname⟩

/-- A value of one token. -/
theorem reads_token {x : Lexeme} {ls : List Lexeme} {f : Token → Value} {v : Value}
    (h : ∀ t : Token, t.text = x.text → (f t).unspanned = v) :
    Reads (do return some (f (← bump))) (x :: ls) ls fun o => ∃ w, o = some w ∧ w.unspanned = v :=
  reads_bump.bind fun t ht => .pure ⟨_, rfl, h t (congrArg Lexeme.text ht)⟩

/-- The word of a literal stands for it, and every other name for an enum value. -/
theorem reads_word {isConst : Bool} {room : Nat} {text : String} {ls : List Lexeme} {v : Value}
    (h : ∀ t : Token, t.text = text → (wordValue t).unspanned = v) :
    Reads (value isConst (room + 1)) (⟨.name, text⟩ :: ls) ls fun o => ∃ w, o = some w ∧ w.unspanned = v := by
  rw [value]
  refine .get_bind fun c _ => .get_bind fun c' hc' => ?_
  have hk : c'.kind? = some .name := by rw [hc'.kind?]; rfl
  simp only [hk]
  exact reads_token h

/-- A value with items between brackets. -/
theorem reads_bracketed {α : Type} {step : Parse (Option α)} {lexemes : α → List Lexeme} {g : α → α}
    {starts : List TokenKind} {items : List α} {o x : Lexeme} {ls : List Lexeme} {start : Nat} {closer : String}
    {f : List α → Span → Value} {v : Value} (h : ReadsNodes step lexemes g starts [] items)
    (hx : ∀ kind ∈ starts, kind ∉ [x.kind])
    (hf : ∀ as span, as.map g = items.map g → (f as span).unspanned = v) :
    Reads (do
        let opened ← bump
        let items ← collect (fun c => !c.closes [x.kind]) step
        close x.kind closer opened.span
        return some (f items (← spanFrom start))) (o :: (items.flatMap lexemes ++ x :: ls)) ls fun o =>
      ∃ w, o = some w ∧ w.unspanned = v :=
  reads_bump.bind fun _ _ => (reads_collect h (fun _ _ => List.not_mem_nil) (more_of_starts hx)
    (not_more_of_closes (List.mem_singleton_self _))).bind fun as has => (reads_close rfl _ _).bind fun _ _ =>
      (reads_spanFrom _).bind fun span _ => .pure ⟨_, rfl, hf as span has⟩

theorem room_of_value {v : Value} {room : Nat} (h : v.nesting ≤ room) : ∃ n, room = n + 1 :=
  Nat.exists_eq_succ_of_ne_zero (Nat.ne_of_gt (Nat.lt_of_lt_of_le v.nesting_pos h))

theorem reads_listItem {given : Parse (Option Value)} {v : Value} {ls more : List Lexeme}
    (h : Reads given ls more fun o => ∃ w, o = some w ∧ w.unspanned = v) :
    Reads (listItem given) ls more fun o => ∃ w, o = some w ∧ w.unspanned = v := by
  refine h.bind ?_
  rintro _ ⟨w, rfl, hw⟩
  exact .pure ⟨w, rfl, hw⟩

theorem reads_objectField {given : Parse (Option Value)} {f : Name × Value} {ls : List Lexeme}
    (h : Reads given (f.2.lexemes ++ ls) ls fun o => ∃ w, o = some w ∧ w.unspanned = f.2.unspanned) :
    Reads (objectField given) (⟨.name, f.1.text⟩ :: ⟨.colon, ":"⟩ :: (f.2.lexemes ++ ls)) ls fun o =>
      ∃ g, o = some g ∧ (g.1.unspanned, g.2.unspanned) = (f.1.unspanned, f.2.unspanned) := by
  refine reads_expectName.bind ?_
  rintro _ ⟨name, rfl, hname⟩
  refine (reads_expect rfl).bind ?_
  rintro _ ⟨t, rfl, -⟩
  refine h.bind ?_
  rintro _ ⟨w, rfl, hw⟩
  exact .pure ⟨_, rfl, by simp only [Name.unspanned_eq hname, hw]⟩

theorem reads_value {isConst : Bool} {v : Value} (h : v.WellFormed isConst) {room : Nat}
    (hroom : v.nesting ≤ room) {ls : List Lexeme} :
    Reads (value isConst room) (v.lexemes ++ ls) ls fun o => ∃ w, o = some w ∧ w.unspanned = v.unspanned := by
  obtain ⟨room, rfl⟩ := room_of_value hroom
  induction h generalizing room ls with
  | «variable» hn =>
    rw [value]
    refine .get_bind fun c _ => .get_bind fun c' hc' => ?_
    have hk : c'.kind? = some .dollar := by rw [hc'.kind?]; rfl
    simp only [hk]
    refine reads_variableName.bind ?_
    rintro _ ⟨name, rfl, hname⟩
    exact .pure ⟨_, rfl, by simp only [Value.unspanned, hname]⟩
  | int hn =>
    rw [value]
    refine .get_bind fun c _ => .get_bind fun c' hc' => ?_
    have hk : c'.kind? = some .int := by rw [hc'.kind?]; rfl
    simp only [hk]
    exact reads_token fun t ht => by simp only [Value.unspanned, ht]
  | float hn =>
    rw [value]
    refine .get_bind fun c _ => .get_bind fun c' hc' => ?_
    have hk : c'.kind? = some .float := by rw [hc'.kind?]; rfl
    simp only [hk]
    exact reads_token fun t ht => by simp only [Value.unspanned, ht]
  | string content _ =>
    rw [value]
    refine .get_bind fun c _ => .get_bind fun c' hc' => ?_
    have hk : c'.kind? = some .string := by rw [hc'.kind?]; rfl
    simp only [hk]
    refine reads_bump.bind fun t ht => ?_
    have htext : t.text = Text.Quoted.quote content := congrArg Lexeme.text ht
    refine Reads.bind (R := fun w => w.unspanned = .string content .blank) ?_ fun w hw => .pure ⟨w, rfl, hw⟩
    simp only [stringValue, htext, Text.Quoted.unquote_quote]
    exact .pure rfl
  | boolean holds _ =>
    cases holds with
    | true => exact reads_word fun t ht => by simp [wordValue, ht, Value.unspanned]
    | false => exact reads_word fun t ht => by simp [wordValue, ht, Value.unspanned]
  | null _ => exact reads_word fun t ht => by simp [wordValue, ht, Value.unspanned]
  | enum hn h1 h2 h3 => exact reads_word fun t ht => by simp [wordValue, ht, h1, h2, h3, Value.unspanned]
  | @list isConst items _ _ ih =>
    rw [value, Value.lexemes, Value.lexemesOfItems_eq, List.cons_append, List.cons_append, List.append_assoc]
    refine .get_bind fun c _ => .get_bind fun c' hc' => ?_
    have hk : c'.kind? = some .lBracket := by rw [hc'.kind?]; rfl
    simp only [hk]
    rw [Value.nesting_list] at hroom
    refine reads_bracketed (x := ⟨.rBracket, "]"⟩)
      (⟨fun v _ => start_value v, fun _ _ => List.not_mem_nil, fun v hv ls _ => ?_⟩ :
        ReadsNodes _ Value.lexemes Value.unspanned valueStarts [] items) (by decide) fun as span has => by
          simp only [Value.unspanned, Value.unspannedItems_eq_map, has]
    have hle : v.nesting ≤ room := Nat.le_trans (le_greatest hv) (Nat.le_of_succ_le_succ hroom)
    obtain ⟨n, rfl⟩ := room_of_value hle
    exact reads_listItem (ih v hv n hle)
  | @object isConst fields _ _ _ ih =>
    rw [value, Value.lexemes, Value.lexemesOfFields_eq, List.cons_append, List.cons_append, List.append_assoc]
    refine .get_bind fun c _ => .get_bind fun c' hc' => ?_
    have hk : c'.kind? = some .lBrace := by rw [hc'.kind?]; rfl
    simp only [hk]
    rw [Value.nesting_object] at hroom
    refine reads_bracketed (x := ⟨.rBrace, "\x7d"⟩)
      (⟨fun f _ => ⟨_, _, rfl, List.mem_singleton_self _⟩, fun _ _ => List.not_mem_nil, fun f hf ls _ => ?_⟩ :
        ReadsNodes _ _ (fun f : Name × Value => (f.1.unspanned, f.2.unspanned)) [.name] [] fields)
      (by decide) fun as span has => by simp only [Value.unspanned, Value.unspannedFields_eq_map, has]
    have hle : f.2.nesting ≤ room :=
      Nat.le_trans (le_greatest (f := fun f : Name × Value => f.2.nesting) hf) (Nat.le_of_succ_le_succ hroom)
    obtain ⟨n, rfl⟩ := room_of_value hle
    exact reads_objectField (ih f hf n hle)

/-! ## Arguments and directives -/

theorem reads_argument {isConst : Bool} {a : Argument} (h : a.WellFormed isConst) {room : Nat}
    (hroom : a.value.lexemes.length ≤ room) {ls : List Lexeme} :
    Reads (argument isConst room) (a.lexemes ++ ls) ls fun o => ∃ b, o = some b ∧ b.unspanned = a.unspanned := by
  rw [Argument.lexemes, List.cons_append, List.cons_append]
  refine .get_bind fun c hc => ?_
  rw [hc.isAt_pos rfl, if_neg (by decide)]
  refine reads_expectName.bind ?_
  rintro _ ⟨name, rfl, hname⟩
  refine (reads_expect rfl).bind ?_
  rintro _ ⟨t, rfl, -⟩
  refine (reads_value h.value (Nat.le_trans h.value.nesting_le_length hroom)).bind ?_
  rintro _ ⟨w, rfl, hw⟩
  exact .pure ⟨_, rfl, by simp only [Argument.unspanned, Name.unspanned_eq hname, hw]⟩

theorem reads_optionalArguments {isConst : Bool} {as : List Argument} (h : ∀ a ∈ as, a.WellFormed isConst) {room : Nat}
    (hroom : (argumentsLexemes as).length ≤ room) {ls : List Lexeme} (hls : Avoids [.lParen] ls) :
    Reads (optionalArguments isConst room) (argumentsLexemes as ++ ls) ls fun items =>
      items.map Argument.unspanned = as.map Argument.unspanned := by
  refine .get_bind fun c hc => ?_
  by_cases he : as.isEmpty = true
  · rw [argumentsLexemes, if_pos he, List.nil_append] at hc ⊢
    rw [hc.not_isAt hls (List.mem_singleton_self _), if_neg Bool.false_ne_true, List.isEmpty_iff.1 he]
    exact .pure rfl
  · rw [argumentsLexemes, if_neg he] at hc hroom ⊢
    rw [List.cons_append, List.cons_append, List.append_assoc] at hc ⊢
    rw [hc.isAt_pos rfl, if_pos rfl]
    refine reads_bump.bind fun opened _ => (reads_collect
      (⟨fun a _ => ⟨_, _, rfl, List.mem_singleton_self _⟩, fun _ _ => List.not_mem_nil,
        fun a ha ls _ => reads_argument (h a ha) ?_⟩ : ReadsNodes _ Argument.lexemes Argument.unspanned [.name] [] as)
      (fun _ _ => List.not_mem_nil) (more_of_starts (by decide)) (not_more_of_closes (by decide))).bind
      fun items hitems =>
      (reads_close rfl _ _).bind fun _ _ => .pure hitems
    have hle := length_le_flatMap (f := Argument.lexemes) ha
    simp only [Argument.lexemes, List.length_cons, List.length_append] at hroom hle
    omega

theorem avoids_arguments {kinds : List TokenKind} (h : .lParen ∉ kinds) (as : List Argument) {ls : List Lexeme}
    (hls : Avoids kinds ls) : Avoids kinds (argumentsLexemes as ++ ls) := by
  unfold argumentsLexemes
  split
  · exact hls
  · exact avoids_cons h _

theorem reads_directive {isConst : Bool} {d : Directive} (h : d.WellFormed isConst) {room : Nat}
    (hroom : (argumentsLexemes d.arguments).length ≤ room) {ls : List Lexeme} (hls : Avoids [.lParen] ls) :
    Reads (directive isConst room) (d.lexemes ++ ls) ls fun o => ∃ e, o = some e ∧ e.unspanned = d.unspanned := by
  refine reads_bump.bind fun sign _ => reads_expectName.bind ?_
  rintro _ ⟨name, rfl, hname⟩
  refine (reads_optionalArguments h.arguments hroom hls).bind fun given hgiven =>
    (reads_spanFrom _).bind fun span _ => .pure ⟨_, rfl, ?_⟩
  simp only [Directive.unspanned, Name.unspanned_eq hname, hgiven]

theorem reads_directives {isConst : Bool} {ds : List Directive} (h : ∀ d ∈ ds, d.WellFormed isConst) {room : Nat}
    (hroom : (directivesLexemes ds).length ≤ room) {ls : List Lexeme} (hls : Avoids [.lParen, .atSign] ls) :
    Reads (directives isConst room) (directivesLexemes ds ++ ls) ls fun marks =>
      marks.map Directive.unspanned = ds.map Directive.unspanned := by
  refine reads_collect
    (⟨fun d _ => ⟨_, _, rfl, List.mem_singleton_self _⟩, by decide,
        fun d hd ls hls => reads_directive (h d hd) ?_ hls⟩ :
      ReadsNodes _ Directive.lexemes Directive.unspanned [.atSign] [.lParen] ds)
    (hls.mono (by decide)) (fun c y ls hc hy => by rw [hc.isAt_cons, List.mem_singleton.1 hy]; rfl)
    fun c hc => hc.not_isAt hls (by decide)
  have hle := length_le_flatMap (f := Directive.lexemes) hd
  simp only [directivesLexemes] at hroom
  simp only [Directive.lexemes, List.length_cons] at hle
  omega

theorem avoids_directives {kinds : List TokenKind} (h : .atSign ∉ kinds) (ds : List Directive) {ls : List Lexeme}
    (hls : Avoids kinds ls) : Avoids kinds (directivesLexemes ds ++ ls) := by
  cases ds with
  | nil => exact hls
  | cons d ds => exact avoids_cons h _

/-! ## Selections -/

theorem reads_fieldName {f : Field} {ls : List Lexeme} (hls : Avoids [.colon] ls) :
    Reads fieldName ((f.label.toList.flatMap fun label => [⟨.name, label.text⟩, ⟨.colon, ":"⟩]) ++
      ⟨.name, f.name.text⟩ :: ls) ls fun o =>
        ∃ label name, o = some (label, name) ∧ label.map Name.unspanned = f.label.map Name.unspanned ∧
          name.unspanned = f.name.unspanned := by
  cases hl : f.label with
  | none =>
    refine reads_expectName.bind ?_
    rintro _ ⟨first, rfl, hfirst⟩
    refine (reads_eat_none hls (List.mem_singleton_self _)).bind ?_
    rintro _ rfl
    exact .pure ⟨_, _, rfl, rfl, Name.unspanned_eq hfirst⟩
  | some label =>
    refine reads_expectName.bind ?_
    rintro _ ⟨first, rfl, hfirst⟩
    refine (reads_eat rfl).bind ?_
    rintro _ ⟨t, rfl, -⟩
    refine reads_expectName.bind ?_
    rintro _ ⟨second, rfl, hsecond⟩
    exact .pure ⟨_, _, rfl, congrArg some (Name.unspanned_eq hfirst), Name.unspanned_eq hsecond⟩

/-- The classes that go on with a selection. -/
def selectionFollow : List TokenKind := [.colon, .lParen, .atSign, .lBrace]

/-- A parser reads the braces around selections. -/
def ReadsBraced (body : Parse SelectionSet) (selections : List Selection) : Prop :=
  ∀ ls, Reads body (bracedLexemes (Selection.lexemesIn selections) ++ ls) ls fun set =>
    Selection.unspannedAll set.selections = Selection.unspannedAll selections

/-- A field, with a selection set or not. -/
theorem reads_field {f : Field} (h : f.WellFormed) {room : Nat} (hroom : f.lexemes.length ≤ room)
    {body : Parse SelectionSet} {s : Selection}
    (hs : s = .field f ∨ ∃ selections span, s = .group f selections span ∧ ReadsBraced body selections)
    {ls : List Lexeme} (hls : Avoids selectionFollow ls) :
    Reads (field room body) (s.lexemes ++ ls) ls fun o => ∃ a, o = some a ∧ a.unspanned = s.unspanned := by
  obtain ⟨tail, htail, havoids⟩ : ∃ tail, s.lexemes ++ ls = f.lexemes ++ tail ∧
      Avoids [.colon, .lParen, .atSign] tail := by
    rcases hs with rfl | ⟨selections, span, rfl, -⟩
    · exact ⟨ls, rfl, hls.mono (by decide)⟩
    · exact ⟨_, List.append_assoc _ _ _, avoids_cons (by decide) _⟩
  have harguments : (argumentsLexemes f.arguments).length ≤ room := by
    simp only [Field.lexemes, List.length_append, List.length_cons] at hroom
    omega
  have hdirectives : (directivesLexemes f.directives).length ≤ room := by
    simp only [Field.lexemes, List.length_append, List.length_cons] at hroom
    omega
  have hdirective : Avoids [.lParen] (directivesLexemes f.directives ++ tail) :=
    avoids_directives (by decide) _ (havoids.mono (by decide))
  have hargument : Avoids [.colon] (argumentsLexemes f.arguments ++ (directivesLexemes f.directives ++ tail)) :=
    avoids_arguments (by decide) _ (avoids_directives (by decide) _ (havoids.mono (by decide)))
  rw [htail, Field.lexemes, List.append_assoc, List.cons_append, List.append_assoc]
  refine .get_bind fun c _ => (reads_fieldName hargument).bind ?_
  rintro _ ⟨label, name, rfl, hlabel, hname⟩
  refine (reads_optionalArguments h.arguments harguments hdirective).bind fun given hgiven =>
    (reads_directives h.directives hdirectives (havoids.mono (by decide))).bind fun marks hmarks =>
      .get_bind fun c' hc' => ?_
  have hfield : ∀ span, (Field.mk label name given marks span).unspanned = f.unspanned := by
    intro span
    simp only [Field.unspanned, hlabel, hname, hgiven, hmarks]
  rcases hs with rfl | ⟨selections, span, rfl, hbody⟩
  · obtain rfl := List.append_cancel_left htail
    rw [hc'.not_isAt hls (by decide), if_neg Bool.false_ne_true]
    exact (reads_spanFrom _).bind fun span _ => .pure ⟨_, rfl, by simp only [Selection.unspanned, hfield]⟩
  · rw [Selection.lexemes, List.append_assoc] at htail
    obtain rfl := List.append_cancel_left htail
    rw [bracedLexemes, List.cons_append, List.cons_append] at hc'
    rw [hc'.isAt_pos rfl, if_pos rfl]
    refine (hbody ls).bind fun set hset => (reads_spanFrom _).bind fun span _ => .pure ⟨_, rfl, ?_⟩
    simp only [Selection.unspanned, hfield, hset]

/-- A spread behind its dots. -/
theorem reads_spread {sp : Spread} (h : sp.WellFormed) {room start : Nat}
    (hroom : (directivesLexemes sp.directives).length ≤ room) {ls : List Lexeme} (hls : Avoids selectionFollow ls) :
    Reads (spread room start) (⟨.name, sp.name.text⟩ :: (directivesLexemes sp.directives ++ ls)) ls fun o =>
      ∃ a, o = some a ∧ a.unspanned = (Selection.spread sp).unspanned := by
  refine reads_expectName.bind ?_
  rintro _ ⟨name, rfl, hname⟩
  refine (reads_directives h.directives hroom (hls.mono (by decide))).bind fun marks hmarks =>
    (reads_spanFrom _).bind fun span _ => .pure ⟨_, rfl, ?_⟩
  simp only [Selection.unspanned, Spread.unspanned, Name.unspanned_eq hname, hmarks]

theorem reads_optionalCondition {condition : Option Name} {ls : List Lexeme}
    (hls : Avoids [.name] ls) :
    Reads optionalCondition ((condition.toList.flatMap fun type => [⟨.name, "on"⟩, ⟨.name, type.text⟩]) ++ ls) ls
      fun o => ∃ type, o = some type ∧ type.map Name.unspanned = condition.map Name.unspanned := by
  cases condition with
  | none =>
    refine (reads_eatWord_none fun x hx he => hls x hx (by simp [he])).bind ?_
    rintro _ rfl
    exact .pure ⟨_, rfl, rfl⟩
  | some type =>
    refine reads_eatWord.bind ?_
    rintro _ ⟨t, rfl, -⟩
    refine reads_expectName.bind ?_
    rintro _ ⟨name, rfl, hname⟩
    exact .pure ⟨_, rfl, congrArg some (Name.unspanned_eq hname)⟩

/-- An inline fragment behind its dots. -/
theorem reads_inlineFragment {i : Inline} (h : i.WellFormed) {room start : Nat}
    (hroom : (directivesLexemes i.directives).length ≤ room) {body : Parse SelectionSet} {selections : List Selection}
    (hbody : ReadsBraced body selections) (span : Span) {ls : List Lexeme} :
    Reads (inlineFragment room start body)
      ((i.condition.toList.flatMap fun type => [⟨.name, "on"⟩, ⟨.name, type.text⟩]) ++
        (directivesLexemes i.directives ++ (bracedLexemes (Selection.lexemesIn selections) ++ ls))) ls fun o =>
      ∃ a, o = some a ∧ a.unspanned = (Selection.inline i selections span).unspanned := by
  refine (reads_optionalCondition (avoids_directives (by decide) _ (avoids_cons (by decide) _))).bind ?_
  rintro _ ⟨type, rfl, htype⟩
  refine (reads_directives h.directives hroom (avoids_cons (by decide) _)).bind fun marks hmarks =>
    .get_bind fun c hc => ?_
  rw [hc.isAt_pos rfl, if_pos rfl]
  refine (hbody ls).bind fun set hset => .pure ⟨_, rfl, ?_⟩
  simp only [Selection.unspanned, Inline.unspanned, htype, hmarks, hset]

theorem reads_spreadOrInline_spread {sp : Spread} (h : sp.WellFormed) {room : Nat} (hroom : sp.lexemes.length ≤ room)
    (body : Parse SelectionSet) {ls : List Lexeme} (hls : Avoids selectionFollow ls) :
    Reads (spreadOrInline room body) (sp.lexemes ++ ls) ls fun o =>
      ∃ a, o = some a ∧ a.unspanned = (Selection.spread sp).unspanned := by
  have hdirectives : (directivesLexemes sp.directives).length ≤ room := by
    simp only [Spread.lexemes, List.length_cons] at hroom
    omega
  refine reads_bump.bind fun dots _ => .get_bind fun c hc => .get_bind fun c' hc' => ?_
  rw [hc.isAt_pos rfl, hc'.isAtWord_cons, if_pos (by simpa using h.ne_on)]
  exact reads_spread h hdirectives hls

theorem reads_spreadOrInline_inline {i : Inline} (h : i.WellFormed) {room : Nat} (hroom : i.lexemes.length ≤ room)
    {body : Parse SelectionSet} {selections : List Selection} (hbody : ReadsBraced body selections) (span : Span)
    {ls : List Lexeme} :
    Reads (spreadOrInline room body) (i.lexemes ++ (bracedLexemes (Selection.lexemesIn selections) ++ ls)) ls fun o =>
      ∃ a, o = some a ∧ a.unspanned = (Selection.inline i selections span).unspanned := by
  have hdirectives : (directivesLexemes i.directives).length ≤ room := by
    simp only [Inline.lexemes, List.length_cons, List.length_append] at hroom
    omega
  rw [Inline.lexemes, List.cons_append, List.append_assoc]
  refine reads_bump.bind fun dots _ => .get_bind fun c hc => .get_bind fun c' hc' => ?_
  -- a name behind the dots is the word of the condition
  have hnot : (c.isAt .name && !c'.isAtWord "on") = false := by
    cases hcond : i.condition with
    | none =>
      rw [hcond] at hc
      have havoids : Avoids [.name] (directivesLexemes i.directives ++
        (bracedLexemes (Selection.lexemesIn selections) ++ ls)) :=
        avoids_directives (by decide) _ (avoids_cons (by decide) _)
      rw [hc.not_isAt havoids (List.mem_singleton_self _), Bool.false_and]
    | some type =>
      rw [hcond] at hc'
      have hon : c'.isAtWord "on" = true := hc'.isAtWord_cons
      rw [hon, Bool.not_true, Bool.and_false]
  rw [hnot, if_neg Bool.false_ne_true]
  exact reads_inlineFragment h hdirectives hbody span

theorem start_field (f : Field) : ∃ y ls, f.lexemes = y :: ls ∧ y.kind = .name := by
  cases h : f.label <;> exact ⟨_, _, by simp only [Field.lexemes, h]; rfl, rfl⟩

theorem start_selection (s : Selection) : ∃ y ls, s.lexemes = y :: ls ∧ y.kind ∈ [TokenKind.name, .spread] := by
  cases s with
  | field f =>
    obtain ⟨y, ls, hy, hk⟩ := start_field f
    exact ⟨y, ls, hy, by simp [hk]⟩
  | group f selections span =>
    obtain ⟨y, ls, hy, hk⟩ := start_field f
    exact ⟨y, _, by rw [Selection.lexemes, hy]; rfl, by simp [hk]⟩
  | spread sp => exact ⟨_, _, rfl, by decide⟩
  | inline i selections span => exact ⟨_, _, rfl, by decide⟩

theorem Cursor.Shows.kind?_field {c : Cursor} {f : Field} {ls : List Lexeme} (hc : c.Shows (f.lexemes ++ ls)) :
    c.kind? = some .name := by
  obtain ⟨y, ys, hy, hk⟩ := start_field f
  rw [hc.kind?, hy, List.cons_append, List.head?_cons, Option.map_some, hk]

/-- A selection, if the selection sets inside are read. -/
theorem reads_selection {s : Selection} (h : s.WellFormed) {room : Nat} (hroom : s.lexemes.length ≤ room)
    {body : Parse SelectionSet} (hbody : ∀ inner : List Selection, inner ≠ [] → (∀ s ∈ inner, s.WellFormed) →
      (bracedLexemes (Selection.lexemesIn inner)).length ≤ s.lexemes.length → ReadsBraced body inner)
    {ls : List Lexeme} (hls : Avoids selectionFollow ls) :
    Reads (selection room body) (s.lexemes ++ ls) ls fun o => ∃ a, o = some a ∧ a.unspanned = s.unspanned := by
  refine .get_bind fun c hc => ?_
  cases h with
  | field hf =>
    simp only [Cursor.Shows.kind?_field hc]
    exact reads_field hf hroom (.inl rfl) hls
  | group hf hne hinner =>
    rw [Selection.lexemes, List.length_append] at hroom hbody
    rw [Selection.lexemes, List.append_assoc] at hc
    simp only [Cursor.Shows.kind?_field hc]
    exact reads_field hf (by omega) (.inr ⟨_, _, rfl, hbody _ hne hinner (by omega)⟩) hls
  | spread hsp =>
    have hk : c.kind? = some .spread := by rw [hc.kind?]; rfl
    simp only [hk]
    exact reads_spreadOrInline_spread hsp hroom _ hls
  | inline hi hne hinner =>
    have hk : c.kind? = some .spread := by rw [hc.kind?]; rfl
    simp only [hk]
    rw [Selection.lexemes, List.length_append] at hroom hbody
    rw [Selection.lexemes, List.append_assoc]
    exact reads_spreadOrInline_inline hi (by omega) (hbody _ hne hinner (by omega)) _

theorem reads_selectionSet (room : Nat) {selections : List Selection} (hne : selections ≠ [])
    (h : ∀ s ∈ selections, s.WellFormed) (hroom : (bracedLexemes (Selection.lexemesIn selections)).length ≤ room) :
    ReadsBraced (selectionSet room) selections := by
  induction room generalizing selections with
  | zero => simp [bracedLexemes] at hroom
  | succ room ih =>
    intro ls
    rw [selectionSet, bracedLexemes, Selection.lexemesIn_eq, List.cons_append, List.cons_append, List.append_assoc]
    refine reads_bump.bind fun opened _ => (reads_collect
      (⟨fun s _ => start_selection s, by decide, fun s hs ls hls => ?_⟩ :
        ReadsNodes _ Selection.lexemes Selection.unspanned [.name, .spread] selectionFollow selections)
      (avoids_cons (by decide) _) (more_of_starts (by decide)) (not_more_of_closes (by decide))).bind
      fun items hitems => (reads_close rfl _ _).bind fun _ _ => (reads_spanFrom _).bind fun span _ => ?_
    · have hle : s.lexemes.length ≤ room := by
        have := length_le_flatMap (f := Selection.lexemes) hs
        simp only [bracedLexemes, Selection.lexemesIn_eq, List.length_cons, List.length_append] at hroom
        omega
      exact reads_selection (h s hs) hle (fun inner hne h hlength => ih hne h (Nat.le_trans hlength hle)) hls
    · have hne' : items.isEmpty = false := by
        have hl := congrArg List.length hitems
        simp only [List.length_map] at hl
        cases items with
        | nil => exact absurd (List.length_eq_zero_iff.1 hl.symm) hne
        | cons item items => rfl
      dsimp only
      rw [hne', if_neg Bool.false_ne_true]
      exact .pure (by rw [Selection.unspannedAll_eq_map, Selection.unspannedAll_eq_map, hitems])

theorem reads_body {set : SelectionSet} (h : set.WellFormed) {room : Nat} (hroom : set.lexemes.length ≤ room)
    {ls : List Lexeme} : Reads (selectionSet room) (set.lexemes ++ ls) ls fun a => a.unspanned = set.unspanned :=
  (reads_selectionSet room h.ne_nil h.selections hroom ls).imp fun a ha => by simp only [SelectionSet.unspanned, ha]

/-! ## Definitions -/

theorem reads_optionalDefault {initial : Option Value} (h : ∀ v, initial = some v → v.WellFormed true) {room : Nat}
    (hroom : ∀ v, initial = some v → v.nesting ≤ room) {ls : List Lexeme} (hls : Avoids [.equals] ls) :
    Reads (optionalDefault room) ((initial.toList.flatMap fun v => ⟨.equals, "="⟩ :: v.lexemes) ++ ls) ls fun o =>
      ∃ given, o = some given ∧ given.map Value.unspanned = initial.map Value.unspanned := by
  cases initial with
  | none =>
    refine (reads_eat_none hls (List.mem_singleton_self _)).bind ?_
    rintro _ rfl
    exact .pure ⟨_, rfl, rfl⟩
  | some v =>
    rw [Option.toList_some, List.flatMap_singleton]
    refine (reads_eat rfl).bind ?_
    rintro _ ⟨t, rfl, -⟩
    refine (reads_value (h v rfl) (hroom v rfl)).bind ?_
    rintro _ ⟨w, rfl, hw⟩
    exact .pure ⟨_, rfl, congrArg some hw⟩

/-- The classes that go on with the declaration of a variable. -/
def declarationFollow : List TokenKind := [.bang, .equals, .lParen, .atSign]

theorem reads_variableDefinition {v : VariableDefinition} (h : v.WellFormed) {room : Nat}
    (hroom : v.lexemes.length ≤ room) {ls : List Lexeme} (hls : Avoids declarationFollow ls) :
    Reads (variableDefinition room) (v.lexemes ++ ls) ls fun o => ∃ w, o = some w ∧ w.unspanned = v.unspanned := by
  simp only [VariableDefinition.lexemes, List.length_cons, List.length_append] at hroom
  have hdirectives : Avoids [.equals] (directivesLexemes v.directives ++ ls) :=
    avoids_directives (by decide) _ (hls.mono (by decide))
  have hdefault : Avoids [.bang] ((v.defaultValue.toList.flatMap fun v => ⟨.equals, "="⟩ :: v.lexemes) ++
      (directivesLexemes v.directives ++ ls)) := by
    cases v.defaultValue with
    | none => exact avoids_directives (by decide) _ (hls.mono (by decide))
    | some value => exact avoids_cons (by decide) _
  have hvalue : ∀ value, v.defaultValue = some value → value.nesting ≤ room := by
    intro value hv
    have hle := (h.defaultValue value hv).nesting_le_length
    simp only [hv, Option.toList_some, List.flatMap_singleton, List.length_cons] at hroom
    omega
  simp only [VariableDefinition.lexemes, List.cons_append, List.append_assoc]
  refine reads_variableName.bind ?_
  rintro _ ⟨name, rfl, hname⟩
  refine (reads_expect rfl).bind ?_
  rintro _ ⟨t, rfl, -⟩
  refine (reads_typeRef h.type (Nat.le_trans v.type.nesting_le_length (by omega)) hdefault).bind ?_
  rintro _ ⟨typeSpan, rfl⟩
  refine (reads_optionalDefault h.defaultValue hvalue hdirectives).bind ?_
  rintro _ ⟨given, rfl, hgiven⟩
  refine (reads_directives h.directives (by omega) (hls.mono (by decide))).bind fun marks hmarks =>
    (reads_spanFrom _).bind fun span _ => .pure ⟨_, rfl, ?_⟩
  simp only [VariableDefinition.unspanned, Name.unspanned_eq hname, hgiven, hmarks]

/-- The declarations of an operation, or nothing. -/
theorem reads_variableDefinitions {vs : List VariableDefinition} (h : ∀ v ∈ vs, v.WellFormed) (hne : vs ≠ [])
    {room : Nat} (hroom : (variablesLexemes vs).length ≤ room) {ls : List Lexeme} :
    Reads (variableDefinitions room) (variablesLexemes vs ++ ls) ls fun items =>
      items.map VariableDefinition.unspanned = vs.map VariableDefinition.unspanned := by
  rw [variablesLexemes, if_neg (by simpa using hne)] at hroom ⊢
  rw [List.cons_append, List.cons_append, List.append_assoc]
  refine reads_bump.bind fun opened _ => (reads_collect
    (⟨fun v _ => ⟨_, _, rfl, List.mem_singleton_self _⟩, by decide, fun v hv ls hls => .get_bind fun c hc => ?_⟩ :
      ReadsNodes _ VariableDefinition.lexemes VariableDefinition.unspanned [.dollar] declarationFollow vs)
    (avoids_cons (by decide) _) (more_of_starts (by decide)) (not_more_of_closes (by decide))).bind
    fun items hitems => (reads_close rfl _ _).bind fun _ _ => .pure hitems
  have hle : v.lexemes.length ≤ room := by
    have := length_le_flatMap (f := VariableDefinition.lexemes) hv
    simp only [List.length_cons, List.length_append] at hroom
    omega
  have hdollar : c.isAt .dollar = true := by
    rw [VariableDefinition.lexemes, List.cons_append] at hc
    exact hc.isAt_pos rfl
  rw [hdollar, if_pos rfl]
  exact reads_variableDefinition (h v hv) hle hls

theorem operationKind_keyword (kind : OperationKind) : operationKind kind.keyword = kind := by
  cases kind <;> rfl

theorem reads_namedOperation {op : Operation} (h : op.WellFormed) {room : Nat}
    (hroom : (op.headLexemes ++ op.body.lexemes).length ≤ room) {ls : List Lexeme} :
    Reads (namedOperation room) (op.headLexemes ++ op.body.lexemes ++ ls) ls fun o =>
      ∃ a, o = some a ∧ a.unspanned = op.unspanned := by
  simp only [Operation.headLexemes, List.length_cons, List.length_append] at hroom
  simp only [Operation.headLexemes, List.cons_append, List.append_assoc]
  refine .get_bind fun c _ => reads_bump.bind fun keyword hkeyword => .get_bind fun c' hc' => ?_
  extract_lets rest
  have hrest : ∀ name : Option Name, name.map Name.unspanned = op.name.map Name.unspanned →
      Reads (rest name) (variablesLexemes op.variableDefinitions ++ (directivesLexemes op.directives ++
        (op.body.lexemes ++ ls))) ls fun o => ∃ a, o = some a ∧ a.unspanned = op.unspanned := by
    intro name hname
    refine .get_bind fun c hc => ?_
    extract_lets rest
    have hrest : ∀ declared : List VariableDefinition,
        declared.map VariableDefinition.unspanned = op.variableDefinitions.map VariableDefinition.unspanned →
        Reads (rest declared) (directivesLexemes op.directives ++ (op.body.lexemes ++ ls)) ls fun o =>
          ∃ a, o = some a ∧ a.unspanned = op.unspanned := by
      intro declared hdeclared
      refine (reads_directives h.directives (by omega) (avoids_cons (by decide) _)).bind fun marks hmarks =>
        .get_bind fun c hc => ?_
      rw [hc.isAt_pos rfl, if_pos rfl]
      refine (reads_body h.body (by omega)).bind fun body hbody => .pure ⟨_, rfl, ?_⟩
      have hkind : operationKind keyword.text = op.kind := by
        rw [show keyword.text = _ from congrArg Lexeme.text hkeyword, operationKind_keyword]
      simp only [Operation.unspanned, hkind, hname, hdeclared, hmarks, hbody]
    by_cases hv : op.variableDefinitions = []
    · rw [hv] at hc ⊢
      have havoids : Avoids [.lParen] (directivesLexemes op.directives ++ (op.body.lexemes ++ ls)) :=
        avoids_directives (by decide) _ (avoids_cons (by decide) _)
      rw [hc.not_isAt havoids (List.mem_singleton_self _), if_neg Bool.false_ne_true]
      exact hrest [] (by rw [hv])
    · have hat : c.isAt .lParen = true := by
        rw [variablesLexemes, if_neg (by simpa using hv)] at hc
        exact hc.isAt_pos rfl
      rw [hat, if_pos rfl]
      exact (reads_variableDefinitions h.variableDefinitions hv (by omega)).bind hrest
  cases hn : op.name with
  | none =>
    rw [hn] at hc'
    have havoids : Avoids [.name] (variablesLexemes op.variableDefinitions ++ (directivesLexemes op.directives ++
        (op.body.lexemes ++ ls))) := by
      unfold variablesLexemes
      split
      · exact avoids_directives (by decide) _ (avoids_cons (by decide) _)
      · exact avoids_cons (by decide) _
    rw [hc'.not_isAt havoids (List.mem_singleton_self _), if_neg Bool.false_ne_true]
    exact hrest none (by rw [hn])
  | some name =>
    rw [hn] at hc'
    rw [hc'.isAt_pos rfl, if_pos rfl]
    refine reads_expectName.bind ?_
    rintro _ ⟨read, rfl, hread⟩
    exact hrest (some read) (by rw [hn]; exact congrArg some (Name.unspanned_eq hread))

theorem reads_fragment {frag : Fragment} (h : frag.WellFormed) {room : Nat} (hroom : frag.lexemes.length ≤ room)
    {ls : List Lexeme} :
    Reads (fragment room) (frag.lexemes ++ ls) ls fun o => ∃ a, o = some a ∧ a.unspanned = frag.unspanned := by
  simp only [Fragment.lexemes, List.length_cons, List.length_append] at hroom
  simp only [Fragment.lexemes, List.cons_append, List.append_assoc]
  refine .get_bind fun c _ => reads_skip.bind fun _ _ => .get_bind fun c' hc' => ?_
  rw [hc'.isAtWord_cons, if_neg (by simpa using h.ne_on)]
  refine reads_expectName.bind ?_
  rintro _ ⟨name, rfl, hname⟩
  refine reads_expectWord.bind ?_
  rintro _ ⟨t, rfl⟩
  refine reads_expectName.bind ?_
  rintro _ ⟨condition, rfl, hcondition⟩
  refine (reads_directives h.directives (by omega) (avoids_cons (by decide) _)).bind fun marks hmarks =>
    .get_bind fun c'' hc'' => ?_
  rw [hc''.isAt_pos rfl, if_pos rfl]
  refine (reads_body h.body (by omega)).bind fun body hbody => .pure ⟨_, rfl, ?_⟩
  simp only [Fragment.unspanned, Name.unspanned_eq hname, Name.unspanned_eq hcondition, hmarks, hbody]

theorem reads_shorthandOperation {op : Operation} (h : op.WellFormed) (hs : op.isShorthand = true) {room : Nat}
    (hroom : op.body.lexemes.length ≤ room) {ls : List Lexeme} :
    Reads (shorthandOperation room) (op.body.lexemes ++ ls) ls fun a => a.unspanned = op.unspanned := by
  refine .get_bind fun c _ => (reads_body h.body hroom).bind fun body hbody => .pure ?_
  simp only [Operation.isShorthand, Bool.and_eq_true, beq_iff_eq, List.isEmpty_iff, Option.isNone_iff_eq_none] at hs
  obtain ⟨⟨⟨hkind, hname⟩, hvariables⟩, hdirectives⟩ := hs
  simp only [Operation.unspanned, hkind, hname, hvariables, hdirectives, hbody, Option.map_none, List.map_nil]

theorem reads_definition {d : Definition} (h : d.WellFormed) {room : Nat} (hroom : d.lexemes.length ≤ room)
    {ls : List Lexeme} :
    Reads (definition room) (d.lexemes ++ ls) ls fun o => ∃ a, o = some a ∧ a.unspanned = d.unspanned := by
  cases h with
  | @operation op h =>
    by_cases hs : op.isShorthand = true
    · simp only [Definition.lexemes, Operation.lexemes, if_pos hs] at hroom ⊢
      refine .get_bind fun c hc => ?_
      rw [hc.isAt_pos rfl, if_pos rfl]
      refine (reads_shorthandOperation h hs hroom).bind fun a ha => .pure ⟨_, rfl, ?_⟩
      simp only [Definition.unspanned, ha]
    · simp only [Definition.lexemes, Operation.lexemes, if_neg hs] at hroom ⊢
      refine .get_bind fun c hc => ?_
      rw [Operation.headLexemes, List.cons_append, List.cons_append] at hc
      have hfragment : c.isAtWord "fragment" = false := by
        rw [hc.isAtWord_cons]
        cases op.kind <;> decide
      have hword : c.isAtAnyWord operationWords = true :=
        List.any_eq_true.2 ⟨op.kind.keyword, by cases op.kind <;> decide, by rw [hc.isAtWord_cons]; simp⟩
      rw [hc.isAt_neg (by simp), if_neg Bool.false_ne_true, hfragment, if_neg Bool.false_ne_true, hword, if_pos rfl]
      refine (reads_namedOperation h hroom).bind ?_
      rintro _ ⟨a, rfl, ha⟩
      exact .pure ⟨_, rfl, by simp only [Definition.unspanned, ha]⟩
  | @fragment frag h =>
    refine .get_bind fun c hc => ?_
    rw [Definition.lexemes, Fragment.lexemes, List.cons_append] at hc
    rw [hc.isAt_neg (by decide), if_neg Bool.false_ne_true, hc.isAtWord_cons, if_pos (by decide)]
    refine (reads_fragment h hroom).bind ?_
    rintro _ ⟨a, rfl, ha⟩
    exact .pure ⟨_, rfl, by simp only [Definition.unspanned, ha]⟩

theorem start_definition (d : Definition) : ∃ y ls, d.lexemes = y :: ls ∧ y.kind ∈ [TokenKind.lBrace, .name] := by
  cases d with
  | operation op =>
    by_cases hs : op.isShorthand = true
    · exact ⟨_, _, by rw [Definition.lexemes, Operation.lexemes, if_pos hs]; rfl, by decide⟩
    · exact ⟨_, _, by rw [Definition.lexemes, Operation.lexemes, if_neg hs]; rfl, by simp⟩
  | fragment frag => exact ⟨_, _, rfl, by simp⟩

/-- The definitions of a document are read up to the end. -/
theorem reads_document {d : Document} (h : d.WellFormed) {room : Nat} (hroom : d.lexemes.length ≤ room) :
    Reads (document room) d.lexemes [] fun a => a.unspanned = d.unspanned := by
  have hnone : Avoids [] ([] : List Lexeme) := nofun
  rw [← List.append_nil d.lexemes, Document.lexemes]
  refine (reads_collect
    (⟨fun x _ => start_definition x, fun _ _ => List.not_mem_nil, fun x hx ls _ => ?_⟩ :
      ReadsNodes _ Definition.lexemes Definition.unspanned [.lBrace, .name] [] d.definitions)
    hnone (fun c y ls hc _ => ?_) (fun c hc => ?_)).bind fun definitions hdefinitions => .get_bind fun c _ => ?_
  · exact reads_definition (h.definitions x hx) (Nat.le_trans (length_le_flatMap hx) hroom)
  · rw [hc.atEnd_cons, Bool.not_false]
  · simpa [Cursor.atEnd] using hc.rest
  · have hne : definitions.isEmpty = false := by
      have hl := congrArg List.length hdefinitions
      simp only [List.length_map] at hl
      cases definitions with
      | nil => exact absurd (List.length_eq_zero_iff.1 hl.symm) h.ne_nil
      | cons x definitions => rfl
    rw [hne, Bool.false_and, if_neg Bool.false_ne_true]
    exact .pure (by simp only [Document.unspanned, hdefinitions])

/-- The start of a text, with a step for each of its lexemes. -/
theorem Cursor.shows_ofText (text : String) {allowance : Option Nat}
    (h : ∀ k ∈ allowance, (Token.lexemes text).length ≤ k) :
    (Cursor.ofText text allowance).Shows (Token.lexemes text) where
  rest := rfl
  affords k hk := by
    have hle := h k hk
    rw [Token.lexemes, List.length_map] at hle
    exact (Nat.zero_add _).symm ▸ hle

end QueryBatch.Parse

namespace QueryBatch

/-- The printed text of a well-formed document is read without diagnostics as that document, up to spans. -/
theorem Document.WellFormed.read_text {d : Document} (h : d.WellFormed) :
    ∃ d', Document.read d.text ⟨none, none⟩ = .ok ⟨d', [], 0⟩ ∧ d'.unspanned = d.unspanned := by
  have hshows : (Parse.Cursor.ofText d.text none).Shows d.lexemes :=
    Token.bare_scan h.lexes_text ▸ Parse.Cursor.shows_ofText d.text fun _ hk => absurd hk (Option.not_mem_none _)
  have hroom : d.lexemes.length ≤ (Parse.Cursor.ofText d.text none).roomFor none := by
    rw [Parse.Cursor.roomFor, hshows.length]
    exact Nat.le_succ _
  obtain ⟨d', final, hrun, -, hreports, hd⟩ := Parse.reads_document h hroom _ hshows
  refine ⟨d', ?_, hd⟩
  have hnone : final.reports = [] := hreports
  simp only [Document.read, StateT.run, hrun, hnone]
  rfl

end QueryBatch
