import QueryBatch.Proofs.Document.Names
import QueryBatch.Proofs.Parse.Runs
import QueryBatch.Proofs.Parse.Yields
import QueryBatch.Proofs.Token.Place

/-!
# Where names come from

Whatever a parse reports, the names in what it yields are name tokens of the text, each at its place.

* `Draws text c p Q`: from a cursor `c` over tokens of a text, the parser `p` goes on over tokens of it, and what it
  yields has the property `Q`. `Draws.of_runs`: every parser that takes tokens off the front goes on so.
* `draws_value`, `draws_selectionSet`, `draws_definition`, …: the names in what each parser yields are tokens.
* `Document.names_of_read`: so are the names in a document that is read.
-/

namespace QueryBatch

/-- A name token reaches from its start over its text. -/
theorem Name.span_eq_of_token {n : Name} {text : String} (h : n.token ∈ Token.scan text) :
    n.span = ⟨n.span.start, n.span.start + n.text.utf8ByteSize⟩ := by
  have hstop := Span.HasText.stop_eq (((Token.laid_scan text).fits n.token h).hasText (by simp [token]))
  have hstop' : n.span.stop = n.span.start + n.text.utf8ByteSize := hstop
  rw [← hstop']

namespace Parse

/-- From a cursor over tokens of a text a parser goes on over tokens of it. What it yields has a property. -/
def Draws {α : Type} (text : String) (c : Cursor) (p : Parse α) (Q : α → Prop) : Prop :=
  c.rest ⊆ Token.scan text → ∀ ⦃a d⦄, p c = .ok (a, d) → d.rest ⊆ Token.scan text ∧ Q a

/-- The names in what is yielded, if there is something, are tokens of a text. -/
abbrev Drawn {α : Type} (text : String) (names : α → List Name) (o : Option α) : Prop :=
  ∀ a, o = some a → AreTokens (Token.scan text) (names a)

/-! ## Rules -/

namespace Draws

variable {α β : Type} {text : String} {c : Cursor} {p : Parse α} {R : α → Prop} {Q : β → Prop}

theorem pure {b : β} (h : Q b) : Draws text c (Pure.pure b : Parse β) Q := by
  intro hc a d hr
  cases hr
  exact ⟨hc, h⟩

theorem bind {f : α → Parse β} (hp : Draws text c p R) (hf : ∀ a d, R a → Draws text d (f a) Q) :
    Draws text c (p >>= f) Q := by
  intro hc b e hr
  obtain ⟨a, d, hpc, hrun⟩ := bind_eq_ok.1 hr
  obtain ⟨hd, ha⟩ := hp hc hpc
  exact hf a d ha hd hrun

theorem get_bind {f : Cursor → Parse β} (h : Draws text c (f c) Q) : Draws text c (get >>= f) Q := h

theorem throw {stop : Stop} : Draws text c (throw stop : Parse β) Q := nofun

theorem imp {R' : α → Prop} (h : Draws text c p R) (hR : ∀ a, R a → R' a) : Draws text c p R' := by
  intro hc a d hr
  obtain ⟨hd, ha⟩ := h hc hr
  exact ⟨hd, hR a ha⟩

/-- A parser that takes tokens off the front leaves tokens of the text. -/
theorem of_runs {p' : Parse α} {S : List Token → α → Prop} (h : Runs c p p' S) :
    Draws text c p fun a => ∃ taken, S taken a := by
  intro hc a d hr
  obtain ⟨-, taken, htaken, hS⟩ := h hr
  refine ⟨List.Subset.trans ?_ hc, taken, hS⟩
  rw [htaken]
  exact List.subset_append_right _ _

/-- What a parser yields need not be looked at. -/
theorem after {p' : Parse α} {S : List Token → α → Prop} {f : α → Parse β} (h : Runs c p p' S)
    (hf : ∀ a d, Draws text d (f a) Q) : Draws text c (p >>= f) Q :=
  (of_runs h).bind fun a d _ => hf a d

/-- Where nothing is yielded, there is nothing to show of it. -/
theorem none {P : β → Prop} : Draws text c (Pure.pure .none : Parse (Option β)) fun o => ∀ b, o = some b → P b :=
  .pure fun _ h => absurd h (Option.some_ne_none _).symm

end Draws

/-! ## Moves -/

section Moves

variable {text : String} {c : Cursor}

/-- The next token is one of the text, and stands where the cursor stands. -/
theorem draws_bump : Draws text c bump fun t =>
    c.rest ≠ [] → t ∈ Token.scan text ∧ c.kind? = some t.kind ∧ t.span = c.span := by
  intro hc t d hr
  simp only [bump] at hr
  split at hr
  · cases hr
  · split at hr
    · rename_i u rest hrest
      cases hr
      have ht : t ∈ c.rest := hrest ▸ List.mem_cons_self
      have hsub : rest ⊆ c.rest := hrest ▸ List.subset_cons_self _ _
      refine ⟨List.Subset.trans hsub hc, fun _ => ⟨hc ht, ?_, ?_⟩⟩
      · simp [Cursor.kind?, hrest]
      · simp [Cursor.span, hrest]
    · rename_i hrest
      cases hr
      exact ⟨hc, fun hne => absurd hrest hne⟩

theorem draws_eat (kind : TokenKind) : Draws text c (eat kind) fun o => ∀ t, o = some t →
    t ∈ Token.scan text ∧ t.kind = kind ∧ t.span = c.span := by
  refine .get_bind ?_
  split
  · rename_i h
    have hk := Cursor.isAt_iff.1 h
    refine draws_bump.bind fun t d ht => .pure fun u hu => ?_
    cases hu
    obtain ⟨hmem, hkind, hspan⟩ := ht (Cursor.rest_ne_nil_of_kind? hk)
    exact ⟨hmem, Option.some.inj (hkind.symm.trans hk), hspan⟩
  · exact .none

/-- A name is a token. -/
theorem draws_expectName : Draws text c expectName fun o => ∀ name, o = some name →
    name.token ∈ Token.scan text ∧ name.span = c.span := by
  refine (draws_eat .name).bind fun o d ho => ?_
  split
  · rename_i t
    refine .pure fun name hname => ?_
    cases hname
    obtain ⟨hmem, hkind, hspan⟩ := ho t rfl
    exact ⟨by rw [Name.token, ← hkind]; exact hmem, hspan⟩
  · exact .get_bind (.after (runs_report _ _) fun _ _ => .none)

/-! ## Rounds -/

section Rounds

variable {α : Type} {more : Cursor → Bool} {step : Parse (Option α)}

theorem draws_collectRounds {names : α → List Name} (h : ∀ c, more c = true → Draws text c step (Drawn text names))
    (rounds : Nat) {found : List α} (hfound : ∀ a ∈ found, AreTokens (Token.scan text) (names a)) :
    Draws text c (collectRounds more step rounds found) fun items =>
      ∀ a ∈ items, AreTokens (Token.scan text) (names a) := by
  induction rounds generalizing c found with
  | zero => exact .throw
  | succ rounds ih =>
    refine .get_bind ?_
    split
    · rename_i hmore
      refine (h c hmore).bind fun o d ho => ?_
      cases o with
      | none => exact ih hfound
      | some a => exact ih (List.forall_mem_cons.2 ⟨ho a rfl, hfound⟩)
    · exact .pure fun a ha => hfound a (List.mem_reverse.1 ha)

theorem draws_collect (names : α → List Name) (h : ∀ c, more c = true → Draws text c step (Drawn text names)) :
    Draws text c (collect more step) fun items => AreTokens (Token.scan text) (items.flatMap names) :=
  .get_bind ((draws_collectRounds h _ fun _ ha => absurd ha List.not_mem_nil).imp fun _ => areTokens_flatMap.2)

end Rounds

end Moves

section Nodes

variable {text : String} {c : Cursor} {room : Nat}

/-! ## Types and values -/

theorem draws_typeRef : Draws text c (typeRef room) fun o => ∀ t, o = some t →
    AreTokens (Token.scan text) (t.1.leadingNames t.2) := by
  induction room generalizing c with
  | zero => exact .throw
  | succ room ih =>
    rw [typeRef]
    refine .get_bind (.get_bind ?_)
    extract_lets rest
    have hrest : ∀ (inner : Option TypeRef) d, (∀ type, inner = some type → ∀ span : Span,
        span.start = c.span.start → AreTokens (Token.scan text) (type.leadingNames span)) →
        Draws text d (rest inner) fun o => ∀ t, o = some t → AreTokens (Token.scan text) (t.1.leadingNames t.2) := by
      intro inner d hinner
      cases inner with
      | none => exact .none
      | some type =>
        refine (draws_eat .bang).bind fun mark e _ => (Draws.of_runs (runs_spanFrom _)).bind fun span f hspan =>
          .pure fun t ht => ?_
        cases ht
        obtain ⟨-, hstart⟩ := hspan
        have htype := hinner type rfl span hstart
        dsimp only
        split
        · rwa [TypeRef.leadingNames_required]
        · exact htype
    have hother : Draws text c (do report .expectedType ("found " ++ (← get).found); rest none) fun o =>
        ∀ t, o = some t → AreTokens (Token.scan text) (t.1.leadingNames t.2) :=
      .get_bind (.after (runs_report _ _) fun _ d => hrest none d fun _ h => absurd h.symm (Option.some_ne_none _))
    split
    · refine draws_bump.bind fun opened d _ => ih.bind fun item e _ =>
        .after (runs_close _ _ _) fun _ f => hrest _ f fun type htype span _ => ?_
      obtain ⟨x, -, rfl⟩ := Option.map_eq_some_iff.1 htype
      exact areTokens_nil
    · refine draws_expectName.bind fun name d hname => hrest _ d fun type htype span hspan => ?_
      obtain ⟨n, hn, rfl⟩ := Option.map_eq_some_iff.1 htype
      obtain ⟨htoken, hn⟩ := hname n hn
      refine areTokens_cons.2 ⟨?_, areTokens_nil⟩
      have hplace := Name.span_eq_of_token htoken
      rw [hn, ← hspan] at hplace
      rw [← hplace, ← hn]
      exact htoken
    · exact hother

theorem draws_wordValue {t : Token} (h : t ∈ Token.scan text) (hk : t.kind = .name) :
    AreTokens (Token.scan text) (wordValue t).names := by
  unfold wordValue
  split
  · exact areTokens_nil
  · split
    · exact areTokens_nil
    · split
      · exact areTokens_nil
      · refine areTokens_cons.2 ⟨?_, areTokens_nil⟩
        rw [Name.token, ← hk]
        exact h

theorem draws_stringValue (t : Token) : Draws text c (stringValue t) fun v => v.names = [] := by
  unfold stringValue
  split
  · exact .pure rfl
  · exact .after (runs_reportAt _ _ _) fun _ _ => .pure rfl

variable {given : Parse (Option Value)}

theorem draws_listItem (hvalue : ∀ c, Draws text c given (Drawn text Value.names)) :
    Draws text c (listItem given) (Drawn text Value.names) := by
  refine (hvalue c).bind fun item d hitem => ?_
  cases item with
  | some item => exact .pure hitem
  | none =>
    refine .get_bind ?_
    split
    · exact .after runs_skip fun _ _ => .none
    · exact .none

theorem draws_objectField (hvalue : ∀ c, Draws text c given (Drawn text Value.names)) :
    Draws text c (objectField given) (Drawn text fun x => x.1 :: x.2.names) := by
  refine draws_expectName.bind fun name d hname => ?_
  cases name with
  | none => exact .after runs_skip fun _ _ => .none
  | some name =>
    refine .after (runs_expect _) fun colon e => ?_
    cases colon with
    | none => exact .none
    | some colon =>
      refine (hvalue e).bind fun field f hfield => ?_
      cases field with
      | none => exact .none
      | some field =>
        refine .pure fun x hx => ?_
        cases hx
        exact areTokens_cons.2 ⟨(hname name rfl).1, hfield field rfl⟩

theorem draws_value (isConst : Bool) : Draws text c (value isConst room) (Drawn text Value.names) := by
  induction room generalizing c with
  | zero => exact .throw
  | succ room ih =>
    rw [value]
    refine .get_bind (.get_bind ?_)
    dsimp only
    have hleaf : ∀ leaf : Token → Value, (∀ t, (leaf t).names = []) →
        Draws text c (do let t ← bump; return some (leaf t)) (Drawn text Value.names) := by
      refine fun leaf hleaf => draws_bump.bind fun t d _ => .pure fun v hv => ?_
      cases hv
      rw [hleaf]
      exact areTokens_nil
    split
    · refine .after runs_variableName fun name d => ?_
      cases name with
      | none => exact .none
      | some name =>
        have hvariable : AreTokens (Token.scan text) (Value.variable name.text name.span).names := areTokens_nil
        have hyields : ∀ d, Draws text d (Pure.pure (some (.variable name.text name.span)) : Parse (Option Value))
            (Drawn text Value.names) := fun d => .pure fun v hv => Option.some.inj hv ▸ hvariable
        dsimp only
        split
        · exact .after (runs_reportAt _ _ _) fun _ e => hyields e
        · exact hyields d
    · exact hleaf _ fun _ => rfl
    · exact hleaf _ fun _ => rfl
    · refine draws_bump.bind fun t d _ => (draws_stringValue t).bind fun v e hv => .pure fun w hw => ?_
      cases hw
      rw [hv]
      exact areTokens_nil
    · refine .get_bind ?_
      split
      · refine .after (runs_reportHere _) fun _ d => draws_bump.bind fun t e _ => .pure fun v hv => ?_
        cases hv
        exact areTokens_nil
      · exact hleaf _ fun _ => rfl
    · exact .after (runs_reportHere _) fun _ _ => .after runs_skip fun _ _ => .none
    · rename_i hk
      refine draws_bump.bind fun t d ht => .pure fun v hv => ?_
      cases hv
      obtain ⟨hmem, hkind, -⟩ := ht (Cursor.rest_ne_nil_of_kind? hk)
      exact draws_wordValue hmem (Option.some.inj (hkind.symm.trans hk))
    · refine draws_bump.bind fun opened d _ => (draws_collect Value.names fun _ _ =>
        draws_listItem fun _ => ih).bind fun items e hitems => .after (runs_close _ _ _) fun _ f =>
        .after (runs_spanFrom _) fun span g => .pure fun v hv => ?_
      cases hv
      rwa [Value.names, Value.namesInItems_eq]
    · refine draws_bump.bind fun opened d _ => (draws_collect (fun x : Name × Value => x.1 :: x.2.names) fun _ _ =>
        draws_objectField fun _ => ih).bind fun fields e hfields => .after (runs_close _ _ _) fun _ f =>
        .after (runs_spanFrom _) fun span g => .pure fun v hv => ?_
      cases hv
      rwa [Value.names, Value.namesInFields_eq]
    · exact .get_bind (.after (runs_report _ _) fun _ _ => .none)

/-! ## Arguments and directives -/

theorem draws_argument (isConst : Bool) : Draws text c (argument isConst room) (Drawn text Argument.names) := by
  refine .get_bind ?_
  split
  · exact .get_bind (.after (runs_reportAndSkip _ _) fun _ _ => .none)
  · refine draws_expectName.bind fun name f hname => ?_
    cases name with
    | none => exact .none
    | some name =>
      refine .after (runs_expect _) fun colon g => ?_
      cases colon with
      | none => exact .none
      | some colon =>
        refine (draws_value isConst).bind fun given e hgiven => ?_
        cases given with
        | none => exact .none
        | some given =>
          refine .pure fun a ha => ?_
          cases ha
          exact areTokens_cons.2 ⟨(hname name rfl).1, hgiven given rfl⟩

theorem draws_arguments (isConst : Bool) : Draws text c (arguments isConst room) fun items =>
    AreTokens (Token.scan text) (items.flatMap Argument.names) :=
  draws_bump.bind fun _ _ _ => (draws_collect Argument.names fun _ _ => draws_argument isConst).bind
    fun _ _ hitems => .after (runs_close _ _ _) fun _ _ => .pure hitems

theorem draws_optionalArguments (isConst : Bool) : Draws text c (optionalArguments isConst room) fun items =>
    AreTokens (Token.scan text) (items.flatMap Argument.names) := by
  refine .get_bind ?_
  split
  · exact draws_arguments isConst
  · exact .pure areTokens_nil

theorem draws_directive (isConst : Bool) : Draws text c (directive isConst room) (Drawn text Directive.names) := by
  refine draws_bump.bind fun sign d _ => draws_expectName.bind fun name e hname => ?_
  cases name with
  | none => exact .none
  | some name =>
    refine (draws_optionalArguments isConst).bind fun given f hgiven => .after (runs_spanFrom _)
      fun span g => .pure fun d hd => ?_
    cases hd
    exact areTokens_cons.2 ⟨(hname name rfl).1, hgiven⟩

theorem draws_directives (isConst : Bool) : Draws text c (directives isConst room) fun items =>
    AreTokens (Token.scan text) (items.flatMap Directive.names) :=
  draws_collect Directive.names fun _ _ => draws_directive isConst

/-! ## Selections -/

theorem draws_fieldName : Draws text c fieldName (Drawn text fun x => x.1.toList ++ [x.2]) := by
  refine draws_expectName.bind fun first d hfirst => ?_
  cases first with
  | none => exact .none
  | some first =>
    have hfirst := (hfirst first rfl).1
    refine (draws_eat .colon).bind fun colon e _ => ?_
    cases colon with
    | none =>
      refine .pure fun x hx => ?_
      cases hx
      exact areTokens_cons.2 ⟨hfirst, areTokens_nil⟩
    | some colon =>
      refine draws_expectName.bind fun second f hsecond => ?_
      cases second with
      | none => exact .none
      | some second =>
        refine .pure fun x hx => ?_
        cases hx
        exact areTokens_cons.2 ⟨hfirst, areTokens_cons.2 ⟨(hsecond second rfl).1, areTokens_nil⟩⟩

variable {body : Parse SelectionSet}

/-- The names in a selection set are tokens. -/
def DrawsBody (text : String) (body : Parse SelectionSet) : Prop :=
  ∀ c, Draws text c body fun set => AreTokens (Token.scan text) set.names

theorem draws_field (hbody : DrawsBody text body) : Draws text c (field room body) (Drawn text Selection.names) := by
  refine .get_bind (draws_fieldName.bind fun o d hnames => ?_)
  cases o with
  | none => exact .none
  | some names =>
    obtain ⟨label, name⟩ := names
    obtain ⟨hlabel, hname⟩ := areTokens_append.1 (hnames _ rfl)
    refine (draws_optionalArguments false).bind fun given e hgiven => (draws_directives false).bind
      fun marks f hmarks => .get_bind ?_
    have hfield : ∀ span, AreTokens (Token.scan text) (Field.names ⟨label, name, given, marks, span⟩) := by
      intro span
      simp only [Field.names, areTokens_append, areTokens_cons]
      exact ⟨⟨hlabel, (areTokens_cons.1 hname).1, hgiven⟩, hmarks⟩
    split
    · refine (hbody _).bind fun set g hset => .after (runs_spanFrom _) fun span h =>
        .pure fun x hx => ?_
      cases hx
      exact areTokens_append.2 ⟨hfield span, hset⟩
    · refine .after (runs_spanFrom _) fun span h => .pure fun x hx => ?_
      cases hx
      exact hfield span

theorem draws_spread (start : Nat) : Draws text c (spread room start) (Drawn text Selection.names) := by
  refine draws_expectName.bind fun name d hname => ?_
  cases name with
  | none => exact .none
  | some name =>
    refine (draws_directives false).bind fun marks e hmarks => .after (runs_spanFrom _)
      fun span f => .pure fun x hx => ?_
    cases hx
    exact areTokens_cons.2 ⟨(hname name rfl).1, hmarks⟩

theorem draws_optionalCondition : Draws text c optionalCondition (Drawn text Option.toList) := by
  refine .after (runs_eatWord _) fun on d => ?_
  cases on with
  | none =>
    refine .pure fun x hx => ?_
    cases hx
    exact areTokens_nil
  | some on =>
    refine draws_expectName.bind fun type e htype => ?_
    cases type with
    | none => exact .none
    | some type =>
      refine .pure fun x hx => ?_
      cases hx
      exact areTokens_cons.2 ⟨(htype type rfl).1, areTokens_nil⟩

theorem draws_inlineFragment (start : Nat) (hbody : DrawsBody text body) :
    Draws text c (inlineFragment room start body) (Drawn text Selection.names) := by
  refine draws_optionalCondition.bind fun condition d hcondition => ?_
  cases condition with
  | none => exact .none
  | some condition =>
    refine (draws_directives false).bind fun marks e hmarks => .get_bind ?_
    split
    · refine (hbody _).bind fun set f hset => .pure fun x hx => ?_
      cases hx
      exact areTokens_append.2 ⟨areTokens_append.2 ⟨hcondition _ rfl, hmarks⟩, hset⟩
    · exact .get_bind (.after (runs_report _ _) fun _ _ => .none)

theorem draws_spreadOrInline (hbody : DrawsBody text body) :
    Draws text c (spreadOrInline room body) (Drawn text Selection.names) := by
  refine draws_bump.bind fun dots d _ => .get_bind (.get_bind ?_)
  split
  · exact draws_spread _
  · exact draws_inlineFragment _ hbody

theorem draws_selection (hbody : DrawsBody text body) :
    Draws text c (selection room body) (Drawn text Selection.names) := by
  refine .get_bind ?_
  split
  · exact draws_field hbody
  · exact draws_spreadOrInline hbody
  · exact .get_bind (.after (runs_reportAndSkip _ _) fun _ _ => .none)

theorem draws_selectionSet (room : Nat) : DrawsBody text (selectionSet room) := by
  induction room with
  | zero => exact fun _ => .throw
  | succ room ih =>
    intro c
    rw [selectionSet]
    refine draws_bump.bind fun opened d _ => (draws_collect Selection.names fun _ _ => draws_selection ih).bind
      fun selections e hselections => .after (runs_close _ _ _) fun _ f =>
      .after (runs_spanFrom _) fun span g => ?_
    have hset : AreTokens (Token.scan text) (SelectionSet.names ⟨selections, span⟩) := by
      rwa [SelectionSet.names, Selection.namesIn_eq]
    dsimp only
    split
    · exact .after (runs_reportAt _ _ _) fun _ _ => .pure hset
    · exact .pure hset

/-! ## Definitions -/

theorem draws_optionalDefault :
    Draws text c (optionalDefault room) (Drawn text fun x => x.toList.flatMap Value.names) := by
  refine (draws_eat .equals).bind fun equals d _ => ?_
  cases equals with
  | none =>
    refine .pure fun x hx => ?_
    cases hx
    exact areTokens_nil
  | some equals =>
    refine (draws_value true).bind fun given e hgiven => ?_
    cases given with
    | none => exact .none
    | some given =>
      refine .pure fun x hx => ?_
      cases hx
      dsimp only
      rw [Option.toList_some, List.flatMap_singleton]
      exact hgiven given rfl

theorem draws_variableDefinition : Draws text c (variableDefinition room) (Drawn text VariableDefinition.names) := by
  refine .after runs_variableName fun name d => ?_
  cases name with
  | none => exact .none
  | some name =>
    refine .after (runs_expect _) fun colon e => ?_
    cases colon with
    | none => exact .none
    | some colon =>
      refine draws_typeRef.bind fun type f htype => ?_
      cases type with
      | none => exact .none
      | some type =>
        refine draws_optionalDefault.bind fun initial g hinitial => ?_
        cases initial with
        | none => exact .none
        | some initial =>
          refine (draws_directives true).bind fun marks h hmarks => .after (runs_spanFrom _)
            fun span e => .pure fun v hv => ?_
          cases hv
          exact areTokens_append.2 ⟨areTokens_append.2 ⟨htype type rfl, hinitial initial rfl⟩, hmarks⟩

theorem draws_declaredVariable : Draws text c (declaredVariable room) (Drawn text VariableDefinition.names) := by
  refine .get_bind ?_
  split
  · exact draws_variableDefinition
  · exact .get_bind (.after (runs_reportAndSkip _ _) fun _ _ => .none)

theorem draws_variableDefinitions : Draws text c (variableDefinitions room) fun items =>
    AreTokens (Token.scan text) (items.flatMap VariableDefinition.names) :=
  draws_bump.bind fun _ _ _ => (draws_collect VariableDefinition.names fun _ _ => draws_declaredVariable).bind
    fun _ _ hitems => .after (runs_close _ _ _) fun _ _ => .pure hitems

theorem draws_namedOperation : Draws text c (namedOperation room) (Drawn text Operation.names) := by
  refine .get_bind (draws_bump.bind fun keyword d _ => .get_bind ?_)
  extract_lets rest
  have hrest : ∀ (name : Option Name) d, AreTokens (Token.scan text) name.toList →
      Draws text d (rest name) (Drawn text Operation.names) := by
    intro name d hname
    refine .get_bind ?_
    extract_lets rest
    have hrest : ∀ declared d, AreTokens (Token.scan text) (declared.flatMap VariableDefinition.names) →
        Draws text d (rest declared) (Drawn text Operation.names) := by
      intro declared d hdeclared
      refine (draws_directives false).bind fun marks e hmarks => .get_bind ?_
      split
      · refine (draws_selectionSet room _).bind fun body f hbody => .pure fun op hop => ?_
        cases hop
        simp only [Operation.names, areTokens_append]
        exact ⟨⟨⟨hname, hdeclared⟩, hmarks⟩, hbody⟩
      · exact .after runs_missingSelectionSet fun _ _ => .none
    split
    · exact draws_variableDefinitions.bind fun declared e => hrest declared e
    · exact hrest [] d areTokens_nil
  split
  · refine draws_expectName.bind fun name e hname => hrest name e fun n hn => ?_
    exact (hname n (Option.mem_toList.1 hn)).1
  · exact hrest none _ areTokens_nil

theorem draws_shorthandOperation : Draws text c (shorthandOperation room) fun op =>
    AreTokens (Token.scan text) op.names :=
  .get_bind ((draws_selectionSet room _).bind fun _ _ hbody => .pure hbody)

theorem draws_fragment : Draws text c (fragment room) (Drawn text Fragment.names) := by
  refine .get_bind (.after runs_skip fun _ d => .get_bind ?_)
  have hrecover : ∀ d, Draws text d (do recover; return (none : Option Fragment)) (Drawn text Fragment.names) :=
    fun d => .after runs_recover fun _ _ => .none
  split
  · exact .after (runs_report _ _) fun _ e => hrecover e
  · refine draws_expectName.bind fun name e hname => ?_
    cases name with
    | none => exact hrecover e
    | some name =>
      refine .after (runs_expectWord _) fun on f => ?_
      cases on with
      | none => exact hrecover f
      | some on =>
        refine draws_expectName.bind fun condition g hcondition => ?_
        cases condition with
        | none => exact hrecover g
        | some condition =>
          refine (draws_directives false).bind fun marks e hmarks => .get_bind ?_
          split
          · refine (draws_selectionSet room _).bind fun body f hbody => .pure fun frag hfrag => ?_
            cases hfrag
            simp only [Fragment.names, List.cons_append, areTokens_cons, areTokens_append]
            exact ⟨(hname name rfl).1, (hcondition condition rfl).1, hmarks, hbody⟩
          · exact .after runs_missingSelectionSet fun _ _ => .none

theorem draws_definition : Draws text c (definition room) (Drawn text Definition.names) := by
  refine .get_bind ?_
  split
  · refine draws_shorthandOperation.bind fun op d hop => .pure fun x hx => ?_
    cases hx
    exact hop
  · split
    · refine draws_fragment.bind fun o d hfrag => .pure fun x hx => ?_
      obtain ⟨frag, hf, rfl⟩ := Option.map_eq_some_iff.1 hx
      exact hfrag frag hf
    · split
      · refine draws_namedOperation.bind fun o d hop => .pure fun x hx => ?_
        obtain ⟨op, ho, rfl⟩ := Option.map_eq_some_iff.1 hx
        exact hop op ho
      · split
        · exact .after runs_skipTypeSystemDefinition fun _ _ => .none
        · exact .after runs_skipStray fun _ _ => .none

theorem draws_document : Draws text c (document room) fun document =>
    ∀ d ∈ document.definitions, AreTokens (Token.scan text) d.names := by
  refine (draws_collect Definition.names fun _ _ => draws_definition).bind
    fun definitions d hdefinitions => .get_bind ?_
  dsimp only
  split
  · exact .after (runs_reportHere _) fun _ _ => .pure (areTokens_flatMap.1 hdefinitions)
  · exact .pure (areTokens_flatMap.1 hdefinitions)

end Nodes

end Parse

/-- The names in a document that is read are name tokens of its text. -/
theorem Document.names_of_read {text : String} {limits : Parse.Limits} {parsed : ParsedDocument}
    (h : read text limits = .ok parsed) {d : Definition} (hd : d ∈ parsed.document.definitions) :
    AreTokens (Token.scan text) d.names := by
  simp only [read, StateT.run] at h
  split at h
  · rename_i document final hrun
    cases h
    have hstart : (Parse.Cursor.ofText text limits.steps).rest ⊆ Token.scan text :=
      List.filter_sublist.subset
    exact (Parse.draws_document hstart hrun).2 d hd
  · cases h

end QueryBatch
