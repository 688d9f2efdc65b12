import Mathlib.Data.List.Forall2
import QueryBatch.Parse.Document
import QueryBatch.Proofs.Document.Unspanned
import QueryBatch.Proofs.Token.Lexeme

/-!
# Parses of texts with the same lexemes

Two texts whose lexemes are the same differ in layout alone. A parse looks at places only to see whether two faults in
a row start at one place, so two parses of such texts run in step once their places are paired off.

* `Pairs`: a relation between the places of two texts that pairs each place with one.
* `Cursor.Abreast`: two cursors that stand at the same lexeme and agree in all but places.
* `Agrees place p q R`: from such cursors the parsers `p` and `q` stop at the same limit, or yield what is related by
  `R` and leave such cursors.
* `agrees_value`, `agrees_selectionSet`, `agrees_document`, …: every parser runs in step with itself, and yields the
  same up to spans.
* `Document.read_of_lexemes_eq`: texts with the same lexemes are read alike.
-/

namespace QueryBatch

/-- What a diagnostic says, apart from where. -/
def Diagnostic.wording (d : Diagnostic) : Diagnostic.Kind × String := (d.kind, d.message)

namespace Parse

open Token

/-- A relation between places that pairs each place with at most one. -/
def Pairs (place : Nat → Nat → Prop) : Prop := ∀ ⦃m n m' n'⦄, place m n → place m' n' → (m = m' ↔ n = n')

/-- Tokens that are the same but for their places, which are paired. -/
structure TokensMatch (place : Nat → Nat → Prop) (t u : Token) : Prop where
  bare : t.bare = u.bare
  start : place t.span.start u.span.start

theorem TokensMatch.text {place : Nat → Nat → Prop} {t u : Token} (h : TokensMatch place t u) : t.text = u.text :=
  congrArg Lexeme.text h.bare

/-- Cursors that stand at the same lexeme and agree in all but places, which are paired. -/
structure Cursor.Abreast (place : Nat → Nat → Prop) (c d : Cursor) : Prop where
  rest : List.Forall₂ (TokensMatch place) c.rest d.rest
  textEnd : place c.textEnd d.textEnd
  allowance : c.allowance = d.allowance
  steps : c.steps = d.steps
  lastReport : Option.Rel place c.lastReport d.lastReport
  reports : c.reports.map Diagnostic.wording = d.reports.map Diagnostic.wording

/-- Two runs that stop at the same limit, or yield what is related and leave cursors abreast. -/
inductive RunsAgree {α β : Type} (place : Nat → Nat → Prop) (R : α → β → Prop) :
    Except Stop (α × Cursor) → Except Stop (β × Cursor) → Prop
  | ok {a : α} {b : β} {c d : Cursor} : R a b → c.Abreast place d → RunsAgree place R (.ok (a, c)) (.ok (b, d))
  | error (stop : Stop) : RunsAgree place R (.error stop) (.error stop)

/-- From cursors abreast two parsers stop at the same limit, or yield what is related and leave cursors abreast. -/
def Agrees {α β : Type} (place : Nat → Nat → Prop) (p : Parse α) (q : Parse β) (R : α → β → Prop) : Prop :=
  ∀ ⦃c d⦄, c.Abreast place d → RunsAgree place R (p c) (q d)

/-- Two values that are the same once something is forgotten. -/
def SameUpTo {α γ : Type} (f : α → γ) (a b : α) : Prop := f a = f b

theorem isEmpty_congr {α γ : Type} {f : α → γ} {as bs : List α} (h : SameUpTo (List.map f) as bs) :
    as.isEmpty = bs.isEmpty := by
  simpa using congrArg List.isEmpty h

/-! ## Rules -/

namespace Agrees

variable {α β α' β' : Type} {place : Nat → Nat → Prop} {p p' : Parse α} {q q' : Parse β} {R : α → β → Prop}
  {S : α' → β' → Prop}

theorem pure {a : α} {b : β} (h : R a b) : Agrees place (Pure.pure a) (Pure.pure b) R := fun _ _ hcd => .ok h hcd

theorem bind {f : α → Parse α'} {g : β → Parse β'} (hp : Agrees place p q R)
    (hf : ∀ a b, R a b → Agrees place (f a) (g b) S) : Agrees place (p >>= f) (q >>= g) S := by
  intro c d hcd
  have hfirst := hp hcd
  show RunsAgree place S ((p c).bind fun r => f r.1 r.2) ((q d).bind fun r => g r.1 r.2)
  generalize p c = x, q d = y at hfirst
  cases hfirst with
  | ok hab hcd => exact hf _ _ hab hcd
  | error stop => exact .error stop

theorem get_bind {f : Cursor → Parse α} {g : Cursor → Parse β}
    (h : ∀ c d, c.Abreast place d → Agrees place (f c) (g d) R) : Agrees place (get >>= f) (get >>= g) R :=
  fun c d hcd => h c d hcd hcd

theorem throw (stop : Stop) : Agrees place (throw stop : Parse α) (throw stop : Parse β) R := fun _ _ _ => .error stop

theorem imp {R' : α → β → Prop} (h : Agrees place p q R) (hR : ∀ a b, R a b → R' a b) : Agrees place p q R' := by
  intro c d hcd
  have hrun := h hcd
  generalize p c = x, q d = y at hrun ⊢
  cases hrun with
  | ok hab hcd => exact .ok (hR _ _ hab) hcd
  | error stop => exact .error stop

theorem ite {P P' : Prop} [Decidable P] [Decidable P'] (hP : P ↔ P') (ht : P → Agrees place p q R)
    (he : ¬ P → Agrees place p' q' R) : Agrees place (if P then p else p') (if P' then q else q') R := by
  by_cases h : P
  · rw [if_pos h, if_pos (hP.1 h)]
    exact ht h
  · rw [if_neg h, if_neg fun h' => h (hP.2 h')]
    exact he h

end Agrees

/-! ## Cursors abreast -/

namespace Cursor.Abreast

variable {place : Nat → Nat → Prop} {c d : Cursor}

theorem kind? (h : c.Abreast place d) : c.kind? = d.kind? := by
  have hrest := h.rest
  unfold Cursor.kind?
  generalize c.rest = ts, d.rest = us at hrest ⊢
  cases hrest with
  | nil => rfl
  | cons ht _ => exact congrArg some (congrArg Lexeme.kind ht.bare)

theorem text (h : c.Abreast place d) : c.text = d.text := by
  have hrest := h.rest
  unfold Cursor.text
  generalize c.rest = ts, d.rest = us at hrest ⊢
  cases hrest with
  | nil => rfl
  | cons ht _ => exact congrArg Lexeme.text ht.bare

theorem start (h : c.Abreast place d) : place c.span.start d.span.start := by
  have hrest := h.rest
  unfold Cursor.span
  generalize c.rest = ts, d.rest = us at hrest ⊢
  cases hrest with
  | nil => exact h.textEnd
  | cons ht _ => exact ht.start

theorem length (h : c.Abreast place d) : c.rest.length = d.rest.length := h.rest.length_eq

theorem atEnd (h : c.Abreast place d) : c.atEnd = d.atEnd := by
  rw [Bool.eq_iff_iff, Cursor.atEnd, Cursor.atEnd, List.isEmpty_iff_length_eq_zero, List.isEmpty_iff_length_eq_zero,
    h.length]

theorem isAt (h : c.Abreast place d) (kind : TokenKind) : c.isAt kind = d.isAt kind := by
  rw [Cursor.isAt, h.kind?, Cursor.isAt]

theorem isAtWord (h : c.Abreast place d) (word : String) : c.isAtWord word = d.isAtWord word := by
  rw [Cursor.isAtWord, h.isAt, h.text, Cursor.isAtWord]

theorem isAtAnyWord (h : c.Abreast place d) (words : List String) : c.isAtAnyWord words = d.isAtAnyWord words :=
  congrArg words.any (funext h.isAtWord)

theorem closes (h : c.Abreast place d) (kinds : List TokenKind) : c.closes kinds = d.closes kinds := by
  rw [Cursor.closes, h.atEnd, show c.isAt = d.isAt from funext h.isAt, Cursor.closes]

theorem found (h : c.Abreast place d) : c.found = d.found := by
  rw [Cursor.found, h.kind?, h.text, Cursor.found]

theorem isAtDescription (h : c.Abreast place d) : c.isAtDescription = d.isAtDescription := by
  rw [Cursor.isAtDescription, h.isAt, h.isAt, Cursor.isAtDescription]

theorem isAtDefinitionWord (h : c.Abreast place d) : c.isAtDefinitionWord = d.isAtDefinitionWord := by
  rw [Cursor.isAtDefinitionWord, h.isAtAnyWord, h.isAtWord, h.isAtAnyWord, h.isAtDescription,
    Cursor.isAtDefinitionWord]

theorem isAtDefinition (h : c.Abreast place d) : c.isAtDefinition = d.isAtDefinition := by
  rw [Cursor.isAtDefinition, h.isAt, h.isAtDefinitionWord, Cursor.isAtDefinition]

end Cursor.Abreast

/-! ## Moves -/

section Moves

variable {place : Nat → Nat → Prop}

theorem agrees_bump : Agrees place bump bump (TokensMatch place) := by
  intro c d h
  obtain ⟨hrest, hend, hallowance, hsteps, hlast, hreports⟩ := h
  unfold bump
  rw [hallowance, hsteps]
  split
  · exact .error _
  · generalize c.rest = ts, d.rest = us at hrest ⊢
    cases hrest with
    | nil => exact .ok ⟨rfl, hend⟩ ⟨.nil, hend, rfl, rfl, hlast, hreports⟩
    | cons ht hrest => exact .ok ht ⟨hrest, hend, rfl, rfl, hlast, hreports⟩

theorem agrees_skip : Agrees place skip skip fun _ _ => True := agrees_bump.bind fun _ _ _ => .pure trivial

theorem agrees_eat (kind : TokenKind) : Agrees place (eat kind) (eat kind) (Option.Rel (TokensMatch place)) :=
  .get_bind fun c d h => .ite (by rw [h.isAt]) (fun _ => agrees_bump.bind fun _ _ ht => .pure (.some ht))
    fun _ => .pure .none

theorem agrees_eatWord (word : String) :
    Agrees place (eatWord word) (eatWord word) (Option.Rel (TokensMatch place)) :=
  .get_bind fun c d h => .ite (by rw [h.isAtWord]) (fun _ => agrees_bump.bind fun _ _ ht => .pure (.some ht))
    fun _ => .pure .none

theorem agrees_spanFrom {m n : Nat} (h : place m n) :
    Agrees place (spanFrom m) (spanFrom n) fun s s' => place s.start s'.start := .get_bind fun _ _ _ => .pure h

/-! ## Reports -/

section Reports

variable (hplace : Pairs place)
include hplace

theorem agrees_reportOnceAt {m n : Nat} {a b : Diagnostic} (h : place m n) (hab : a.wording = b.wording) :
    Agrees place (reportOnceAt m a) (reportOnceAt n b) fun _ _ => True := by
  intro c d hcd
  obtain ⟨hrest, hend, hallowance, hsteps, hlast, hreports⟩ := hcd
  rw [reportOnceAt_run, reportOnceAt_run]
  have hsame : c.lastReport = some m ↔ d.lastReport = some n := by
    generalize c.lastReport = last, d.lastReport = last' at hlast ⊢
    cases hlast with
    | none => simp
    | some hl => simpa using hplace hl h
  refine .ok trivial ?_
  by_cases hc : c.lastReport = some m
  · rw [if_pos hc, if_pos (hsame.1 hc)]
    exact ⟨hrest, hend, hallowance, hsteps, hlast, hreports⟩
  · rw [if_neg hc, if_neg fun hd => hc (hsame.2 hd)]
    refine ⟨hrest, hend, hallowance, hsteps, .some h, ?_⟩
    simp only [List.map_append, hreports, List.map_cons, hab, List.map_nil]

theorem agrees_reportHere (kind : Diagnostic.Kind) :
    Agrees place (reportHere kind) (reportHere kind) fun _ _ => True :=
  .get_bind fun _ _ h => agrees_reportOnceAt hplace h.start rfl

theorem agrees_reportAt (kind : Diagnostic.Kind) {s s' : Span} (h : place s.start s'.start) {detail detail' : String}
    (hd : detail = detail') : Agrees place (reportAt kind s detail) (reportAt kind s' detail') fun _ _ => True :=
  agrees_reportOnceAt hplace h (by rw [hd]; rfl)

theorem agrees_report (kind : Diagnostic.Kind) {detail detail' : String} (hd : detail = detail') :
    Agrees place (report kind detail) (report kind detail') fun _ _ => True :=
  .get_bind fun _ _ h => agrees_reportAt hplace kind h.start hd

theorem agrees_reportAndSkip (kind : Diagnostic.Kind) {detail detail' : String} (hd : detail = detail') :
    Agrees place (reportAndSkip kind detail) (reportAndSkip kind detail') fun _ _ => True :=
  (agrees_report hplace kind hd).bind fun _ _ _ => agrees_skip

theorem agrees_reportUnclosed (closer : String) (opened opened' : Span) :
    Agrees place (reportUnclosed closer opened) (reportUnclosed closer opened') fun _ _ => True :=
  .get_bind fun _ _ h => agrees_reportOnceAt hplace h.start rfl

/-! ## Expectations -/

theorem agrees_expect (kind : TokenKind) :
    Agrees place (expect kind) (expect kind) (Option.Rel (TokensMatch place)) := by
  refine (agrees_eat kind).bind fun o o' ho => ?_
  cases ho with
  | some ht => exact .pure (.some ht)
  | none => exact .get_bind fun _ _ h => (agrees_report hplace _ (by rw [h.found])).bind fun _ _ _ => .pure .none

theorem agrees_expectWord (word : String) :
    Agrees place (expectWord word) (expectWord word) (Option.Rel (TokensMatch place)) := by
  refine (agrees_eatWord word).bind fun o o' ho => ?_
  cases ho with
  | some ht => exact .pure (.some ht)
  | none => exact .get_bind fun _ _ h => (agrees_report hplace _ (by rw [h.found])).bind fun _ _ _ => .pure .none

/-- Names that are the same but for their places, which are paired. -/
structure NamesMatch (place : Nat → Nat → Prop) (n m : Name) : Prop where
  text : n.text = m.text
  start : place n.span.start m.span.start

omit hplace in
theorem NamesMatch.unspanned {n m : Name} (h : NamesMatch place n m) : n.unspanned = m.unspanned :=
  Name.unspanned_eq h.text

theorem agrees_expectName : Agrees place expectName expectName (Option.Rel (NamesMatch place)) := by
  refine (agrees_eat .name).bind fun o o' ho => ?_
  cases ho with
  | some ht => exact .pure (.some ⟨ht.text, ht.start⟩)
  | none => exact .get_bind fun _ _ h => (agrees_report hplace _ (by rw [h.found])).bind fun _ _ _ => .pure .none

theorem agrees_close (kind : TokenKind) (closer : String) (opened opened' : Span) :
    Agrees place (close kind closer opened) (close kind closer opened') fun _ _ => True := by
  refine (agrees_eat kind).bind fun o o' ho => ?_
  cases ho with
  | some _ => exact .pure trivial
  | none => exact agrees_reportUnclosed hplace _ _ _

end Reports

end Moves

/-! ## Rounds -/

section Rounds

variable {place : Nat → Nat → Prop} {α γ : Type} {more : Cursor → Bool} {step step' : Parse (Option α)} {f : α → γ}

theorem agrees_collectRounds (hmore : ∀ c d, c.Abreast place d → more c = more d)
    (h : Agrees place step step' (Option.Rel (SameUpTo f))) (rounds : Nat) {found found' : List α}
    (hfound : found.map f = found'.map f) :
    Agrees place (collectRounds more step rounds found) (collectRounds more step' rounds found')
      (SameUpTo (List.map f)) := by
  have hdone : found.reverse.map f = found'.reverse.map f := by rw [List.map_reverse, hfound, List.map_reverse]
  induction rounds generalizing found found' with
  | zero => exact .throw _
  | succ rounds ih =>
    refine .get_bind fun c d hcd => .ite (by rw [hmore c d hcd]) (fun _ => h.bind fun o o' ho => ?_)
      fun _ => .pure hdone
    cases ho with
    | none => exact ih hfound hdone
    | some hab =>
      have hnew : (_ :: found).map f = (_ :: found').map f := congrArg₂ List.cons hab hfound
      exact ih hnew (by rw [List.map_reverse, hnew, List.map_reverse])

theorem agrees_collect (hmore : ∀ c d, c.Abreast place d → more c = more d)
    (h : Agrees place step step' (Option.Rel (SameUpTo f))) :
    Agrees place (collect more step) (collect more step') (SameUpTo (List.map f)) :=
  .get_bind fun _ _ hcd => by
    rw [hcd.length]
    exact agrees_collectRounds hmore h _ rfl

theorem agrees_skipWhile (hmore : ∀ c d, c.Abreast place d → more c = more d) :
    Agrees place (skipWhile more) (skipWhile more) fun _ _ => True :=
  (agrees_collect (f := id) hmore (agrees_skip.bind fun _ _ _ => .pure .none)).bind fun _ _ _ => .pure trivial

end Rounds

section Nodes

variable {place : Nat → Nat → Prop} (hplace : Pairs place)
include hplace

/-! ## Types and values -/

theorem agrees_typeRef (room : Nat) :
    Agrees place (typeRef room) (typeRef room) (Option.Rel (SameUpTo Prod.fst)) := by
  induction room with
  | zero => exact .throw _
  | succ room ih =>
    rw [typeRef]
    refine .get_bind fun c d hcd => .get_bind fun c' d' hcd' => ?_
    rw [hcd'.kind?]
    extract_lets rest rest'
    have hrest : ∀ inner inner', inner = inner' →
        Agrees place (rest inner) (rest' inner') (Option.Rel (SameUpTo Prod.fst)) := by
      rintro inner _ rfl
      cases inner with
      | none => exact .pure .none
      | some type =>
        refine (agrees_eat .bang).bind fun o o' ho => (agrees_spanFrom hcd.start).bind fun _ _ _ => .pure (.some ?_)
        cases ho <;> rfl
    have hother : Agrees place (do report .expectedType ("found " ++ (← get).found); rest none)
        (do report .expectedType ("found " ++ (← get).found); rest' none) (Option.Rel (SameUpTo Prod.fst)) :=
      .get_bind fun _ _ h => (agrees_report hplace _ (by rw [h.found])).bind fun _ _ _ => hrest none none rfl
    generalize d'.kind? = kind
    cases kind with
    | none => exact hother
    | some kind =>
      cases kind
      case lBracket =>
        refine agrees_bump.bind fun t t' ht => ih.bind fun o o' ho => (agrees_close hplace _ _ _ _).bind fun _ _ _ =>
          (Agrees.pure (R := Eq) ?_).bind hrest
        cases ho with
        | none => rfl
        | some h => exact congrArg (fun type => some (TypeRef.list type)) h
      case name =>
        refine (agrees_expectName hplace).bind fun o o' ho => (Agrees.pure (R := Eq) ?_).bind hrest
        cases ho with
        | none => rfl
        | some h => exact congrArg (fun text => some (TypeRef.named text)) h.text
      all_goals exact hother

theorem agrees_variableName : Agrees place variableName variableName (Option.Rel (NamesMatch place)) := by
  refine (agrees_expect hplace .dollar).bind fun o o' ho => ?_
  cases ho with
  | none => exact .pure .none
  | some hdollar =>
    refine (agrees_expectName hplace).bind fun o o' ho => ?_
    cases ho with
    | none => exact .pure .none
    | some hname => exact .pure (.some ⟨hname.text, hdollar.start⟩)

omit hplace in
theorem wordValue_unspanned {t u : Token} (h : t.text = u.text) :
    (wordValue t).unspanned = (wordValue u).unspanned := by
  unfold wordValue
  rw [h]
  split
  · rfl
  · split
    · rfl
    · split <;> rfl

theorem agrees_stringValue {t u : Token} (h : TokensMatch place t u) :
    Agrees place (stringValue t) (stringValue u) (SameUpTo Value.unspanned) := by
  unfold stringValue
  rw [h.text]
  generalize Text.Quoted.unquote u.text = content
  cases content with
  | ok content => exact .pure rfl
  | error escape => exact (agrees_reportAt hplace _ h.start rfl).bind fun _ _ _ => .pure rfl

omit hplace in
theorem agrees_listItem {given : Parse (Option Value)}
    (hgiven : Agrees place given given (Option.Rel (SameUpTo Value.unspanned))) :
    Agrees place (listItem given) (listItem given) (Option.Rel (SameUpTo Value.unspanned)) := by
  refine hgiven.bind fun o o' ho => ?_
  cases ho with
  | some h => exact .pure (.some h)
  | none =>
    exact .get_bind fun c d h => .ite (by rw [h.closes]) (fun _ => agrees_skip.bind fun _ _ _ => .pure .none)
      fun _ => .pure .none

theorem agrees_objectField {given : Parse (Option Value)}
    (hgiven : Agrees place given given (Option.Rel (SameUpTo Value.unspanned))) :
    Agrees place (objectField given) (objectField given)
      (Option.Rel (SameUpTo fun f : Name × Value => (f.1.unspanned, f.2.unspanned))) := by
  refine (agrees_expectName hplace).bind fun o o' ho => ?_
  cases ho with
  | none => exact agrees_skip.bind fun _ _ _ => .pure .none
  | some hname =>
    refine (agrees_expect hplace _).bind fun o o' ho => ?_
    cases ho with
    | none => exact .pure .none
    | some _ =>
      refine hgiven.bind fun o o' ho => ?_
      cases ho with
      | none => exact .pure .none
      | some hvalue => exact .pure (.some (Prod.ext hname.unspanned hvalue))

theorem agrees_value (isConst : Bool) (room : Nat) :
    Agrees place (value isConst room) (value isConst room) (Option.Rel (SameUpTo Value.unspanned)) := by
  induction room with
  | zero => exact .throw _
  | succ room ih =>
    rw [value]
    refine .get_bind fun c d hcd => .get_bind fun c' d' hcd' => ?_
    rw [hcd'.kind?]
    have hother : Agrees place (do report .expectedValue ("found " ++ (← get).found); return none)
        (do report .expectedValue ("found " ++ (← get).found); return none)
        (Option.Rel (SameUpTo Value.unspanned)) :=
      .get_bind fun _ _ h => (agrees_report hplace _ (by rw [h.found])).bind fun _ _ _ => .pure .none
    generalize d'.kind? = kind
    cases kind with
    | none => exact hother
    | some kind =>
      cases kind
      case dollar =>
        refine (agrees_variableName hplace).bind fun o o' ho => ?_
        cases ho with
        | none => exact .pure .none
        | some h =>
          have hvalue := congrArg (Value.variable · .blank) h.text
          refine .ite Iff.rfl (fun _ => ?_) fun _ => .pure (.some hvalue)
          exact (agrees_reportAt hplace _ h.start rfl).bind fun _ _ _ => .pure (.some hvalue)
      case int =>
        exact agrees_bump.bind fun t u h => .pure (.some (congrArg (Value.int · .blank) h.text))
      case float =>
        exact agrees_bump.bind fun t u h => .pure (.some (congrArg (Value.float · .blank) h.text))
      case string =>
        exact agrees_bump.bind fun t u h => (agrees_stringValue hplace h).bind fun _ _ hv => .pure (.some hv)
      case blockString =>
        have hvalue : Agrees place (do let t ← bump; return some (Value.string (Text.BlockString.value t.text) t.span))
            (do let t ← bump; return some (Value.string (Text.BlockString.value t.text) t.span))
            (Option.Rel (SameUpTo Value.unspanned)) :=
          agrees_bump.bind fun t u h => .pure (.some
            (congrArg (fun text => Value.string (Text.BlockString.value text) .blank) h.text))
        refine .get_bind fun c d h => .ite (by rw [h.text]) (fun _ => ?_) fun _ => hvalue
        exact (agrees_reportHere hplace _).bind fun _ _ _ => hvalue
      case unterminatedString =>
        exact (agrees_reportHere hplace _).bind fun _ _ _ => agrees_skip.bind fun _ _ _ => .pure .none
      case name =>
        exact agrees_bump.bind fun t u h => .pure (.some (wordValue_unspanned h.text))
      case lBracket =>
        refine agrees_bump.bind fun t u _ => (agrees_collect (fun c d h => by rw [h.closes])
          (agrees_listItem ih)).bind fun items items' hitems => (agrees_close hplace _ _ _ _).bind fun _ _ _ =>
            (agrees_spanFrom hcd.start).bind fun _ _ _ => .pure (.some ?_)
        show Value.list _ _ = Value.list _ _
        rw [Value.unspannedItems_eq_map, Value.unspannedItems_eq_map]
        exact congrArg (fun items => Value.list items .blank) hitems
      case lBrace =>
        refine agrees_bump.bind fun t u _ => (agrees_collect (fun c d h => by rw [h.closes])
          (agrees_objectField hplace ih)).bind fun fields fields' hfields =>
            (agrees_close hplace _ _ _ _).bind fun _ _ _ =>
              (agrees_spanFrom hcd.start).bind fun _ _ _ => .pure (.some ?_)
        show Value.object _ _ = Value.object _ _
        rw [Value.unspannedFields_eq_map, Value.unspannedFields_eq_map]
        exact congrArg (fun fields => Value.object fields .blank) hfields
      all_goals exact hother

/-! ## Arguments and directives -/

theorem agrees_argument (isConst : Bool) (room : Nat) :
    Agrees place (argument isConst room) (argument isConst room) (Option.Rel (SameUpTo Argument.unspanned)) := by
  refine .get_bind fun c d h => .ite (by rw [h.isAt]) (fun _ => ?_) fun _ => ?_
  · exact .get_bind fun _ _ h => (agrees_reportAndSkip hplace _ (by rw [h.found])).bind fun _ _ _ => .pure .none
  · refine (agrees_expectName hplace).bind fun o o' ho => ?_
    cases ho with
    | none => exact .pure .none
    | some hname =>
      refine (agrees_expect hplace _).bind fun o o' ho => ?_
      cases ho with
      | none => exact .pure .none
      | some _ =>
        refine (agrees_value hplace isConst room).bind fun o o' ho => ?_
        cases ho with
        | none => exact .pure .none
        | some hvalue =>
          exact .pure (.some (congrArg₂ (fun name value => Argument.mk name value .blank) hname.unspanned hvalue))

theorem agrees_arguments (isConst : Bool) (room : Nat) :
    Agrees place (arguments isConst room) (arguments isConst room) (SameUpTo (List.map Argument.unspanned)) :=
  agrees_bump.bind fun _ _ _ => (agrees_collect (fun _ _ h => by rw [h.closes])
    (agrees_argument hplace isConst room)).bind fun _ _ hitems => (agrees_close hplace _ _ _ _).bind
      fun _ _ _ => .pure hitems

theorem agrees_optionalArguments (isConst : Bool) (room : Nat) :
    Agrees place (optionalArguments isConst room) (optionalArguments isConst room)
      (SameUpTo (List.map Argument.unspanned)) :=
  .get_bind fun c d h => .ite (by rw [h.isAt]) (fun _ => agrees_arguments hplace isConst room) fun _ => .pure rfl

theorem agrees_directive (isConst : Bool) (room : Nat) :
    Agrees place (directive isConst room) (directive isConst room) (Option.Rel (SameUpTo Directive.unspanned)) := by
  refine agrees_bump.bind fun sign sign' hsign => (agrees_expectName hplace).bind fun o o' ho => ?_
  cases ho with
  | none => exact .pure .none
  | some hname =>
    refine (agrees_optionalArguments hplace isConst room).bind fun given given' hgiven =>
      (agrees_spanFrom hsign.start).bind fun _ _ _ => .pure (.some ?_)
    exact congrArg₂ (fun name given => Directive.mk name given .blank) hname.unspanned hgiven

theorem agrees_directives (isConst : Bool) (room : Nat) :
    Agrees place (directives isConst room) (directives isConst room) (SameUpTo (List.map Directive.unspanned)) :=
  agrees_collect (fun _ _ h => by rw [h.isAt]) (agrees_directive hplace isConst room)

/-! ## Selections -/

theorem agrees_fieldName : Agrees place fieldName fieldName
    (Option.Rel (SameUpTo fun x => (x.1.map Name.unspanned, x.2.unspanned))) := by
  refine (agrees_expectName hplace).bind fun o o' ho => ?_
  cases ho with
  | none => exact .pure .none
  | some hfirst =>
    refine (agrees_eat .colon).bind fun o o' ho => ?_
    cases ho with
    | none => exact .pure (.some (Prod.ext rfl hfirst.unspanned))
    | some _ =>
      refine (agrees_expectName hplace).bind fun o o' ho => ?_
      cases ho with
      | none => exact .pure .none
      | some hsecond => exact .pure (.some (Prod.ext (congrArg some hfirst.unspanned) hsecond.unspanned))

omit hplace in
/-- Selection sets that are equal up to spans hold the same selections up to spans. -/
theorem unspannedAll_eq {set set' : SelectionSet} (h : SameUpTo SelectionSet.unspanned set set') :
    Selection.unspannedAll set.selections = Selection.unspannedAll set'.selections :=
  congrArg SelectionSet.selections h

theorem agrees_field {body : Parse SelectionSet} (hbody : Agrees place body body (SameUpTo SelectionSet.unspanned))
    (room : Nat) : Agrees place (field room body) (field room body) (Option.Rel (SameUpTo Selection.unspanned)) := by
  refine .get_bind fun c d hcd => (agrees_fieldName hplace).bind fun o o' ho => ?_
  cases ho with
  | none => exact .pure .none
  | some hname =>
    rename_i x y
    obtain ⟨label, name⟩ := x
    obtain ⟨label', name'⟩ := y
    refine (agrees_optionalArguments hplace false room).bind fun given given' hgiven =>
      (agrees_directives hplace false room).bind fun marks marks' hmarks => ?_
    obtain ⟨hlabel, hname⟩ := Prod.ext_iff.1 hname
    have hfield : ∀ s s', Field.unspanned ⟨label, name, given, marks, s⟩ =
        Field.unspanned ⟨label', name', given', marks', s'⟩ := by
      intro s s'
      simp only [Field.unspanned, Field.mk.injEq, and_true]
      exact ⟨hlabel, hname, hgiven, hmarks⟩
    refine .get_bind fun _ _ h => .ite (by rw [h.isAt]) (fun _ => hbody.bind fun set set' hset =>
      (agrees_spanFrom hcd.start).bind fun s s' _ => .pure (.some ?_)) fun _ =>
      (agrees_spanFrom hcd.start).bind fun s s' _ => .pure (.some (congrArg Selection.field (hfield s s')))
    exact congrArg₂ (fun field selections => Selection.group field selections .blank) (hfield s s')
      (unspannedAll_eq hset)

theorem agrees_spread (room : Nat) {m n : Nat} (h : place m n) :
    Agrees place (spread room m) (spread room n) (Option.Rel (SameUpTo Selection.unspanned)) := by
  refine (agrees_expectName hplace).bind fun o o' ho => ?_
  cases ho with
  | none => exact .pure .none
  | some hname =>
    refine (agrees_directives hplace false room).bind fun marks marks' hmarks =>
      (agrees_spanFrom h).bind fun _ _ _ => .pure (.some ?_)
    exact congrArg₂ (fun name marks => Selection.spread ⟨name, marks, .blank⟩) hname.unspanned hmarks

theorem agrees_optionalCondition : Agrees place optionalCondition optionalCondition
    (Option.Rel (SameUpTo (Option.map Name.unspanned))) := by
  refine (agrees_eatWord "on").bind fun o o' ho => ?_
  cases ho with
  | none => exact .pure (.some rfl)
  | some _ =>
    refine (agrees_expectName hplace).bind fun o o' ho => ?_
    cases ho with
    | none => exact .pure .none
    | some hname => exact .pure (.some (congrArg some hname.unspanned))

theorem agrees_inlineFragment {body : Parse SelectionSet}
    (hbody : Agrees place body body (SameUpTo SelectionSet.unspanned)) (room m n : Nat) :
    Agrees place (inlineFragment room m body) (inlineFragment room n body)
      (Option.Rel (SameUpTo Selection.unspanned)) := by
  refine (agrees_optionalCondition hplace).bind fun o o' ho => ?_
  cases ho with
  | none => exact .pure .none
  | some hcondition =>
    refine (agrees_directives hplace false room).bind fun marks marks' hmarks =>
      .get_bind fun _ _ h => .ite (by rw [h.isAt]) (fun _ => hbody.bind fun set set' hset => .pure (.some ?_)) fun _ =>
        .get_bind fun _ _ h => (agrees_report hplace _ (by rw [h.found])).bind fun _ _ _ => .pure .none
    have hinline : ∀ s s', Inline.unspanned ⟨_, marks, s⟩ = Inline.unspanned ⟨_, marks', s'⟩ := fun s s' =>
      congrArg₂ (fun condition marks => Inline.mk condition marks .blank) hcondition hmarks
    exact congrArg₂ (fun inline selections => Selection.inline inline selections .blank) (hinline _ _)
      (unspannedAll_eq hset)

theorem agrees_spreadOrInline {body : Parse SelectionSet}
    (hbody : Agrees place body body (SameUpTo SelectionSet.unspanned)) (room : Nat) :
    Agrees place (spreadOrInline room body) (spreadOrInline room body) (Option.Rel (SameUpTo Selection.unspanned)) :=
  agrees_bump.bind fun dots dots' hdots => .get_bind fun _ _ h => .get_bind fun _ _ h' =>
    .ite (by rw [h.isAt, h'.isAtWord]) (fun _ => agrees_spread hplace room hdots.start)
      fun _ => agrees_inlineFragment hplace hbody room _ _

theorem agrees_selection {body : Parse SelectionSet}
    (hbody : Agrees place body body (SameUpTo SelectionSet.unspanned)) (room : Nat) :
    Agrees place (selection room body) (selection room body) (Option.Rel (SameUpTo Selection.unspanned)) := by
  have hother : Agrees place
      (do reportAndSkip .unexpectedToken ("expected a field or fragment spread, found " ++ (← get).found)
          return (none : Option Selection))
      (do reportAndSkip .unexpectedToken ("expected a field or fragment spread, found " ++ (← get).found)
          return none) (Option.Rel (SameUpTo Selection.unspanned)) :=
    .get_bind fun _ _ h => (agrees_reportAndSkip hplace _ (by rw [h.found])).bind fun _ _ _ => .pure .none
  refine .get_bind fun c d h => ?_
  rw [h.kind?]
  generalize d.kind? = kind
  cases kind with
  | none => exact hother
  | some kind =>
    cases kind
    case name => exact agrees_field hplace hbody room
    case spread => exact agrees_spreadOrInline hplace hbody room
    all_goals exact hother

theorem agrees_selectionSet (room : Nat) :
    Agrees place (selectionSet room) (selectionSet room) (SameUpTo SelectionSet.unspanned) := by
  induction room with
  | zero => exact .throw _
  | succ room ih =>
    rw [selectionSet]
    refine agrees_bump.bind fun opened opened' hopened => (agrees_collect (fun c d h => by rw [h.closes])
      (agrees_selection hplace ih room)).bind fun items items' hitems => (agrees_close hplace _ _ _ _).bind
        fun _ _ _ => (agrees_spanFrom hopened.start).bind fun span span' hspan => ?_
    have hset : SameUpTo SelectionSet.unspanned ⟨items, span⟩ ⟨items', span'⟩ := by
      show SelectionSet.mk (Selection.unspannedAll items) _ = SelectionSet.mk (Selection.unspannedAll items') _
      rw [Selection.unspannedAll_eq_map, Selection.unspannedAll_eq_map]
      exact congrArg (SelectionSet.mk · .blank) hitems
    exact .ite (by rw [isEmpty_congr hitems])
      (fun _ => (agrees_reportAt hplace _ hspan rfl).bind fun _ _ _ => .pure hset) fun _ => .pure hset

/-! ## Recovery -/

omit hplace in
theorem agrees_recover : Agrees place recover recover fun _ _ => True :=
  agrees_skipWhile fun c d h => by rw [h.atEnd, h.isAtDefinition]

omit hplace in
theorem agrees_skipDefinitionBody (rounds depth : Nat) :
    Agrees place (skipDefinitionBody rounds depth) (skipDefinitionBody rounds depth) fun _ _ => True := by
  induction rounds generalizing depth with
  | zero => exact .throw _
  | succ rounds ih =>
    refine .get_bind fun c d h => .ite (by rw [h.atEnd, h.isAtDefinitionWord]) (fun _ => .pure trivial) fun _ =>
      agrees_skip.bind fun _ _ _ => .ite (by rw [h.isAt, h.isAt]) (fun _ => ih _) fun _ =>
        .ite (by rw [h.isAt, h.isAt])
          (fun _ => .ite (by rw [h.isAt]) (fun _ => .pure trivial) fun _ => ih _) fun _ => ih _

theorem agrees_skipTypeSystemDefinition :
    Agrees place skipTypeSystemDefinition skipTypeSystemDefinition fun _ _ => True := by
  refine .get_bind fun c d hcd => .get_bind fun c' d' hcd' => ?_
  extract_lets rest rest'
  have hrest : Agrees place (rest ()) (rest' ()) fun _ _ => True := by
    refine .get_bind fun c d h => .get_bind fun c' d' h' => agrees_skip.bind fun _ _ _ => .get_bind fun _ _ h'' => ?_
    rw [h''.length]
    refine (agrees_skipDefinitionBody _ _).bind fun _ _ _ => .get_bind fun _ _ _ =>
      agrees_reportOnceAt hplace hcd.start ?_
    rw [h.text]
    rfl
  exact .ite (by rw [hcd'.isAtDescription]) (fun _ => agrees_skip.bind fun _ _ _ => hrest) fun _ => hrest

theorem agrees_skipStray : Agrees place skipStray skipStray fun _ _ => True := by
  refine .get_bind fun c d hcd => ?_
  rw [hcd.kind?]
  have hother : Agrees place (do reportAndSkip .expectedDefinition ("found " ++ (← get).found); recover)
      (do reportAndSkip .expectedDefinition ("found " ++ (← get).found); recover) fun _ _ => True :=
    .get_bind fun _ _ h => (agrees_reportAndSkip hplace _ (by rw [h.found])).bind fun _ _ _ => agrees_recover
  generalize d.kind? = kind
  cases kind with
  | none => exact hother
  | some kind =>
    cases kind
    case garbage => exact (agrees_reportAndSkip hplace _ rfl).bind fun _ _ _ => agrees_recover
    case unterminatedString =>
      exact (agrees_reportHere hplace _).bind fun _ _ _ => agrees_skip.bind fun _ _ _ => agrees_recover
    all_goals exact hother

theorem agrees_missingSelectionSet : Agrees place missingSelectionSet missingSelectionSet fun _ _ => True :=
  .get_bind fun _ _ h => (agrees_report hplace _ (by rw [h.found])).bind fun _ _ _ => agrees_recover

/-! ## Definitions -/

theorem agrees_optionalDefault (room : Nat) : Agrees place (optionalDefault room) (optionalDefault room)
    (Option.Rel (SameUpTo (Option.map Value.unspanned))) := by
  refine (agrees_eat .equals).bind fun o o' ho => ?_
  cases ho with
  | none => exact .pure (.some rfl)
  | some _ =>
    refine (agrees_value hplace true room).bind fun o o' ho => ?_
    cases ho with
    | none => exact .pure .none
    | some hvalue => exact .pure (.some (congrArg some hvalue))

theorem agrees_variableDefinition (room : Nat) : Agrees place (variableDefinition room) (variableDefinition room)
    (Option.Rel (SameUpTo VariableDefinition.unspanned)) := by
  refine (agrees_variableName hplace).bind fun o o' ho => ?_
  cases ho with
  | none => exact .pure .none
  | some hname =>
    refine (agrees_expect hplace _).bind fun o o' ho => ?_
    cases ho with
    | none => exact .pure .none
    | some _ =>
      refine (agrees_typeRef hplace room).bind fun o o' ho => ?_
      cases ho with
      | none => exact .pure .none
      | some htype =>
        rename_i x y
        obtain ⟨type, typeSpan⟩ := x
        obtain ⟨type', typeSpan'⟩ := y
        refine (agrees_optionalDefault hplace room).bind fun o o' ho => ?_
        cases ho with
        | none => exact .pure .none
        | some hinitial =>
          refine (agrees_directives hplace true room).bind fun marks marks' hmarks =>
            (agrees_spanFrom hname.start).bind fun _ _ _ => .pure (.some ?_)
          simp only [SameUpTo, VariableDefinition.unspanned, VariableDefinition.mk.injEq, and_true, true_and]
          exact ⟨hname.unspanned, htype, hinitial, hmarks⟩

theorem agrees_declaredVariable (room : Nat) : Agrees place (declaredVariable room) (declaredVariable room)
    (Option.Rel (SameUpTo VariableDefinition.unspanned)) := by
  refine .get_bind fun c d h => .ite (by rw [h.isAt]) (fun _ => ?_) fun _ => ?_
  · exact agrees_variableDefinition hplace room
  · exact .get_bind fun _ _ h => (agrees_reportAndSkip hplace _ (by rw [h.found])).bind fun _ _ _ => .pure .none

theorem agrees_variableDefinitions (room : Nat) :
    Agrees place (variableDefinitions room) (variableDefinitions room)
      (SameUpTo (List.map VariableDefinition.unspanned)) :=
  agrees_bump.bind fun _ _ _ => (agrees_collect (fun _ _ h => by rw [h.closes])
    (agrees_declaredVariable hplace room)).bind fun _ _ hitems => (agrees_close hplace _ _ _ _).bind
      fun _ _ _ => .pure hitems

theorem agrees_namedOperation (room : Nat) : Agrees place (namedOperation room) (namedOperation room)
    (Option.Rel (SameUpTo Operation.unspanned)) := by
  refine .get_bind fun c d hcd => agrees_bump.bind fun keyword keyword' hkeyword => .get_bind fun c' d' hcd' => ?_
  extract_lets rest rest'
  have hrest : ∀ name name', Option.map Name.unspanned name = name'.map Name.unspanned →
      Agrees place (rest name) (rest' name') (Option.Rel (SameUpTo Operation.unspanned)) := by
    intro name name' hname
    refine .get_bind fun c d h => ?_
    extract_lets rest rest'
    have hrest : ∀ declared declared',
        List.map VariableDefinition.unspanned declared = declared'.map VariableDefinition.unspanned →
          Agrees place (rest declared) (rest' declared') (Option.Rel (SameUpTo Operation.unspanned)) := by
      intro declared declared' hdeclared
      refine (agrees_directives hplace false room).bind fun marks marks' hmarks => .get_bind fun _ _ h =>
        .ite (by rw [h.isAt]) (fun _ => (agrees_selectionSet hplace room).bind fun body body' hbody => .pure (.some ?_))
          fun _ => (agrees_missingSelectionSet hplace).bind fun _ _ _ => .pure .none
      simp only [SameUpTo, Operation.unspanned, Operation.mk.injEq, and_true]
      exact ⟨by rw [hkeyword.text], hname, hdeclared, hmarks, hbody⟩
    exact .ite (by rw [h.isAt]) (fun _ => (agrees_variableDefinitions hplace room).bind hrest) fun _ => hrest _ _ rfl
  refine .ite (by rw [hcd'.isAt]) (fun _ => (agrees_expectName hplace).bind fun o o' ho => hrest _ _ ?_)
    fun _ => hrest _ _ rfl
  cases ho with
  | none => rfl
  | some hname => exact congrArg some hname.unspanned

theorem agrees_shorthandOperation (room : Nat) :
    Agrees place (shorthandOperation room) (shorthandOperation room) (SameUpTo Operation.unspanned) := by
  refine .get_bind fun c d _ => (agrees_selectionSet hplace room).bind fun body body' hbody => .pure ?_
  exact congrArg (fun body => Operation.mk .query none [] [] body .blank) hbody

theorem agrees_fragment (room : Nat) :
    Agrees place (fragment room) (fragment room) (Option.Rel (SameUpTo Fragment.unspanned)) := by
  have hgivesUp : Agrees place (do recover; return (none : Option Fragment)) (do recover; return none)
      (Option.Rel (SameUpTo Fragment.unspanned)) := agrees_recover.bind fun _ _ _ => .pure .none
  refine .get_bind fun c d _ => agrees_skip.bind fun _ _ _ => .get_bind fun c' d' h =>
    .ite (by rw [h.isAtWord]) (fun _ => (agrees_report hplace _ rfl).bind fun _ _ _ => hgivesUp) fun _ =>
      (agrees_expectName hplace).bind fun o o' ho => ?_
  cases ho with
  | none => exact hgivesUp
  | some hname =>
    refine (agrees_expectWord hplace _).bind fun o o' ho => ?_
    cases ho with
    | none => exact hgivesUp
    | some _ =>
      refine (agrees_expectName hplace).bind fun o o' ho => ?_
      cases ho with
      | none => exact hgivesUp
      | some hcondition =>
        refine (agrees_directives hplace false room).bind fun marks marks' hmarks => .get_bind fun _ _ h =>
          .ite (by rw [h.isAt])
            (fun _ => (agrees_selectionSet hplace room).bind fun body body' hbody => .pure (.some ?_))
            fun _ => (agrees_missingSelectionSet hplace).bind fun _ _ _ => .pure .none
        simp only [SameUpTo, Fragment.unspanned, Fragment.mk.injEq, and_true]
        exact ⟨hname.unspanned, hcondition.unspanned, hmarks, hbody⟩

theorem agrees_definition (room : Nat) :
    Agrees place (definition room) (definition room) (Option.Rel (SameUpTo Definition.unspanned)) := by
  refine .get_bind fun c d h => .ite (by rw [h.isAt]) (fun _ => ?_) fun _ => .ite (by rw [h.isAtWord]) (fun _ => ?_)
    fun _ => .ite (by rw [h.isAtAnyWord]) (fun _ => ?_) fun _ =>
      .ite (by rw [h.isAtDescription, h.isAtAnyWord]) (fun _ => ?_) fun _ => ?_
  · exact (agrees_shorthandOperation hplace room).bind fun _ _ hop => .pure (.some (congrArg Definition.operation hop))
  · refine (agrees_fragment hplace room).bind fun o o' ho => .pure ?_
    cases ho with
    | none => exact .none
    | some hfrag => exact .some (congrArg Definition.fragment hfrag)
  · refine (agrees_namedOperation hplace room).bind fun o o' ho => .pure ?_
    cases ho with
    | none => exact .none
    | some hop => exact .some (congrArg Definition.operation hop)
  · exact (agrees_skipTypeSystemDefinition hplace).bind fun _ _ _ => .pure .none
  · exact (agrees_skipStray hplace).bind fun _ _ _ => .pure .none

theorem agrees_document (room : Nat) :
    Agrees place (document room) (document room) (SameUpTo Document.unspanned) := by
  refine (agrees_collect (f := Definition.unspanned) (fun c d h => by rw [h.atEnd])
    (agrees_definition hplace room)).bind fun items items' hitems => .get_bind fun c d h => ?_
  have hdocument : SameUpTo Document.unspanned ⟨items⟩ ⟨items'⟩ := congrArg Document.mk hitems
  exact .ite (by rw [isEmpty_congr hitems, isEmpty_congr h.reports])
    (fun _ => (agrees_reportHere hplace _).bind fun _ _ _ => .pure hdocument) fun _ => .pure hdocument

end Nodes

/-! ## Texts with the same lexemes -/

/-- The places of a text that a parse looks at: where tokens start, and the end. -/
def placesOf (text : String) : List Nat :=
  (((scan text).filter fun t => !t.kind.isTrivia).map fun t => t.span.start) ++ [text.utf8ByteSize]

theorem nodup_placesOf (text : String) : (placesOf text).Nodup :=
  ((pairwise_places_scan text).sublist ((List.filter_sublist.map _).append (.refl _))).imp Nat.ne_of_lt

/-- The places of two texts that stand at the same position in the lists of their places. -/
def SamePosition (s t : String) (m n : Nat) : Prop := ∃ i : Nat, (placesOf s)[i]? = some m ∧ (placesOf t)[i]? = some n

theorem pairs_samePosition (s t : String) : Pairs (SamePosition s t) := by
  rintro m n m' n' ⟨i, hm, hn⟩ ⟨j, hm', hn'⟩
  have same : ∀ {text : String} {k l : Nat}, (placesOf text)[i]? = some k → (placesOf text)[j]? = some l →
      (k = l ↔ i = j) := by
    intro text k l hk hl
    refine ⟨?_, ?_⟩
    · rintro rfl
      obtain ⟨hi, -⟩ := List.getElem?_eq_some_iff.1 hk
      exact (List.getElem?_inj hi (nodup_placesOf text)).1 (hk.trans hl.symm)
    · rintro rfl
      exact Option.some.inj (hk.symm.trans hl)
  rw [same hm hm', same hn hn']

/-- Parses of two texts with the same lexemes start abreast. -/
theorem Cursor.abreast_ofText {s t : String} (h : Token.lexemes s = Token.lexemes t) (allowance : Option Nat) :
    (Cursor.ofText s allowance).Abreast (SamePosition s t) (Cursor.ofText t allowance) := by
  have hbare : (Cursor.ofText s allowance).rest.map bare = (Cursor.ofText t allowance).rest.map bare := h
  have hlength : (Cursor.ofText s allowance).rest.length = (Cursor.ofText t allowance).rest.length := by
    simpa using congrArg List.length hbare
  have hplaces : ∀ text, placesOf text = ((Cursor.ofText text allowance).rest.map fun t => t.span.start) ++
      [text.utf8ByteSize] := fun _ => rfl
  refine ⟨List.forall₂_iff_get.2 ⟨hlength, fun i hi hi' => ⟨?_, i, ?_, ?_⟩⟩,
    ⟨(Cursor.ofText s allowance).rest.length, ?_, ?_⟩, rfl, rfl, .none, rfl⟩
  · simpa [hi, hi'] using congrArg (fun ls => ls[i]?) hbare
  · simp [hplaces, List.getElem?_append_left, hi]
  · simp [hplaces, List.getElem?_append_left, hi']
  · rw [hplaces, List.getElem?_append_right (by simp)]
    simp [Cursor.ofText]
  · rw [hplaces, hlength, List.getElem?_append_right (by simp)]
    simp [Cursor.ofText]

end Parse

open Parse

/-- Two texts with the same lexemes are read alike under all limits: both parses stop at the same one, or yield the
same document up to spans in the same number of steps, with diagnostics of the same wording in the same order. So the
printed texts of the definitions are the same. -/
theorem Document.read_of_lexemes_eq {s t : String} (h : Token.lexemes s = Token.lexemes t) (limits : Limits) :
    (∃ stop, Document.read s limits = .error stop ∧ Document.read t limits = .error stop) ∨
    ∃ a b, Document.read s limits = .ok a ∧ Document.read t limits = .ok b ∧
      a.document.unspanned = b.document.unspanned ∧ a.steps = b.steps ∧
      a.diagnostics.map Diagnostic.wording = b.diagnostics.map Diagnostic.wording ∧
      a.document.definitions.map Definition.text = b.document.definitions.map Definition.text := by
  have habreast := Cursor.abreast_ofText h limits.steps
  have hrun := agrees_document (pairs_samePosition s t) ((Cursor.ofText s limits.steps).roomFor limits.nesting) habreast
  have hroom : (Cursor.ofText s limits.steps).roomFor limits.nesting =
      (Cursor.ofText t limits.steps).roomFor limits.nesting := by
    rw [Cursor.roomFor, habreast.length, Cursor.roomFor]
  simp only [Document.read, StateT.run]
  rw [← hroom]
  generalize Parse.document _ (Cursor.ofText s limits.steps) = x, Parse.document _ (Cursor.ofText t limits.steps) = y
    at hrun ⊢
  cases hrun with
  | error stop => exact .inl ⟨stop, rfl, rfl⟩
  | ok hdocument hfinal =>
    refine .inr ⟨_, _, rfl, rfl, hdocument, ?_, hfinal.reports, ?_⟩
    · rw [hfinal.steps]
    · have htexts := congrArg (fun d => d.definitions.map Definition.text) hdocument
      simpa [Document.unspanned, Function.comp_def, Definition.text_unspanned] using htexts

/-- A text of several lines with a comment and commas, and two faults. -/
def spacedText : String :=
  "# all of it\nquery All($first: Int,)\n\x7b\n  users(first: $first,,) \x7b id, name \x7d\n\x7d )\nfragment on on T"

/-- The same lexemes on one line. -/
def denseText : String :=
  "query All($first:Int)\x7busers(first:$first)\x7bid name\x7d\x7d)fragment on on T"

/-- The two texts are read with the same two diagnostics, and stopped by the same limit. -/
theorem Document.read_spacedText :
    Token.lexemes spacedText = Token.lexemes denseText ∧
    (∃ a b, Document.read spacedText = .ok a ∧ Document.read denseText = .ok b ∧
      a.document.unspanned = b.document.unspanned ∧ a.steps = b.steps ∧ a.diagnostics.length = 2 ∧
      a.diagnostics.map Diagnostic.wording = b.diagnostics.map Diagnostic.wording) ∧
    ∃ stop, Document.read spacedText ⟨some 9, none⟩ = .error stop ∧
      Document.read denseText ⟨some 9, none⟩ = .error stop := by
  have hsame : Token.lexemes spacedText = Token.lexemes denseText := by decide +kernel
  have hcount : (Document.read spacedText).toOption.map (fun parsed => parsed.diagnostics.length) = some 2 := by
    decide +kernel
  have hstop : (Document.read spacedText ⟨some 9, none⟩).toOption.isNone = true := by decide +kernel
  refine ⟨hsame, ?_, ?_⟩
  · obtain ⟨stop, hs, -⟩ | ⟨a, b, hs, ht, hdocument, hsteps, hwording, -⟩ := Document.read_of_lexemes_eq hsame {}
    · rw [hs] at hcount
      cases hcount
    · rw [hs] at hcount
      exact ⟨a, b, hs, ht, hdocument, hsteps, Option.some.inj hcount, hwording⟩
  · obtain h | ⟨a, b, hs, -⟩ := Document.read_of_lexemes_eq hsame ⟨some 9, none⟩
    · exact h
    · rw [hs] at hstop
      cases hstop

end QueryBatch
