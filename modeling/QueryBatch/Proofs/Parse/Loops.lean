import QueryBatch.Proofs.Parse.Steps
import QueryBatch.Proofs.Parse.Yields

/-!
# Every query document ends

The loops of the parsers of query documents, each with the step that it repeats, and the parsers around them.

* `ends_listItem`, `ends_objectField`, `ends_argument`, …: the steps of the loops. Each reads a token.
* `ends_value`, `ends_selectionSet`, `ends_definition`, …: each parser ends, with the same result in every room that is
  larger than the number of the tokens left.
* `ends_document`: so does the parser of documents, at the end of the text.
-/

namespace QueryBatch.Parse

section Nodes

variable {c : Cursor} {room room' : Nat}

theorem Cursor.atEnd_iff : c.atEnd = true ↔ c.rest = [] := List.isEmpty_iff

theorem Cursor.not_atEnd_of_nil (h : c.rest = []) : (!c.atEnd) = false := by rw [atEnd_iff.2 h, Bool.not_true]

/-- What goes on up to a closing token ends with the text. -/
theorem closes_of_nil {kinds : List TokenKind} (h : c.rest = []) : (!c.closes kinds) = false := by
  simp [Cursor.closes, Cursor.atEnd, h]

theorem isAt_of_nil {kind : TokenKind} (h : c.rest = []) : c.isAt kind = false := by
  simp [Cursor.isAt, Cursor.kind?, h]

theorem rest_ne_nil_of_goes {kinds : List TokenKind} (h : (!c.closes kinds) = true) : c.rest ≠ [] := fun hnil => by
  rw [closes_of_nil hnil] at h
  cases h

theorem rest_ne_nil_of_not_atEnd (h : (!c.atEnd) = true) : c.rest ≠ [] := fun hnil => by
  rw [Cursor.not_atEnd_of_nil hnil] at h
  cases h

/-! ## Types and values -/

theorem ends_typeRef (hroom : c.rest.length < room) (hroom' : c.rest.length < room') :
    Ends c (typeRef room) (typeRef room') fun _ _ => True := by
  induction room generalizing c room' with
  | zero => exact absurd hroom (Nat.not_lt_zero _)
  | succ room ih =>
    obtain ⟨room', rfl⟩ := Nat.exists_eq_succ_of_ne_zero (n := room') (by omega)
    rw [typeRef, typeRef]
    refine .get_bind (.get_bind ?_)
    extract_lets rest
    have hrest : ∀ inner d, Ends d (rest inner) (rest inner) fun _ _ => True := by
      intro inner d
      cases inner with
      | none => exact .pure trivial
      | some type => exact (ends_eat .bang).bind fun _ _ _ _ => (ends_spanFrom _).bind fun _ _ _ _ => .pure trivial
    have hother : Ends c (do report .expectedType ("found " ++ (← get).found); rest none)
        (do report .expectedType ("found " ++ (← get).found); rest none) fun _ _ => True :=
      .get_bind ((ends_report _ _).bind fun _ d _ _ => hrest none d)
    generalize hkind : c.kind? = kind
    cases kind with
    | none => exact hother
    | some kind =>
      cases kind
      case lBracket =>
        refine (ends_bump (Cursor.rest_ne_nil_of_kind? hkind)).bind fun opened d _ hlt => ?_
        exact (ih (by omega) (by omega)).bind fun item e _ _ => (ends_close _ _ _).bind fun _ e _ _ => hrest _ e
      case name => exact ends_expectName.bind fun name d _ _ => hrest _ d
      all_goals exact hother

theorem ends_variableName : Ends c variableName variableName (Advances c) := by
  refine (ends_expect .dollar).bind fun dollar d _ h => ?_
  cases dollar with
  | none => exact .pure (.none (h.same rfl))
  | some dollar =>
    have hlt := h.lt (Option.some_ne_none dollar)
    refine ends_expectName.bind fun name e hle _ => ?_
    cases name with
    | none => exact .pure (.of_lt _ (by omega))
    | some name => exact .pure (.of_lt _ (by omega))

/-- The dollar sign of a variable is read. -/
theorem ends_variableName_of_isAt (hat : c.isAt .dollar = true) :
    Ends c variableName variableName fun _ d => d.rest.length < c.rest.length := by
  refine (ends_expect_of_isAt hat).bind fun dollar d _ h => ?_
  have hlt := h.2.2
  cases dollar with
  | none => exact .pure hlt
  | some dollar =>
    refine ends_expectName.bind fun name e hle _ => ?_
    cases name with
    | none => exact .pure (by omega)
    | some name => exact .pure (by omega)

theorem ends_stringValue (t : Token) : Ends c (stringValue t) (stringValue t) fun _ _ => True := by
  unfold stringValue
  split
  · exact .pure trivial
  · exact (ends_reportAt _ _ _).bind fun _ _ _ _ => .pure trivial

/-- A value in what is left behind a cursor ends. -/
def ValueEnds (given given' : Parse (Option Value)) (c : Cursor) : Prop :=
  ∀ e : Cursor, e.rest.length ≤ c.rest.length → Ends e given given' (Advances e)

variable {given given' : Parse (Option Value)}

theorem ends_listItem (hvalue : ValueEnds given given' c) (hgoes : (!c.closes [.rBracket]) = true) :
    Ends c (listItem given) (listItem given') fun _ d => d.rest.length < c.rest.length := by
  refine (hvalue c (Nat.le_refl _)).bind fun item d hd h => ?_
  cases item with
  | some item => exact .pure (h.lt (Option.some_ne_none item))
  | none =>
    refine .get_bind ?_
    split
    · rename_i hskips
      refine (ends_skip (rest_ne_nil_of_goes hskips)).bind fun _ e _ he => .pure ?_
      exact Nat.lt_of_lt_of_le he.2 hd
    · rename_i hcloses
      refine .pure (h.same_or_lt.resolve_left fun hsame => hcloses ?_)
      -- without a token read the list goes on
      rw [Cursor.closes_congr hsame]
      exact hgoes

theorem ends_objectField (hvalue : ValueEnds given given' c) (hrest : c.rest ≠ []) :
    Ends c (objectField given) (objectField given') fun _ d => d.rest.length < c.rest.length := by
  refine ends_expectName.bind fun name d hd h => ?_
  cases name with
  | none =>
    have hsame := h.same rfl
    exact (ends_skip (hsame ▸ hrest)).bind fun _ e _ he => .pure (hsame ▸ he.2)
  | some name =>
    have hlt := h.lt (Option.some_ne_none name)
    refine (ends_expect _).bind fun colon e hle _ => ?_
    cases colon with
    | none => exact .pure (by omega)
    | some colon =>
      refine (hvalue e (by omega)).bind fun field e₁ hle₁ _ => ?_
      cases field with
      | none => exact .pure (by omega)
      | some field => exact .pure (by omega)

theorem ends_value (isConst : Bool) (hroom : c.rest.length < room) (hroom' : c.rest.length < room') :
    Ends c (value isConst room) (value isConst room') (Advances c) := by
  induction room generalizing c room' with
  | zero => exact absurd hroom (Nat.not_lt_zero _)
  | succ room ih =>
    obtain ⟨room', rfl⟩ := Nat.exists_eq_succ_of_ne_zero (n := room') (by omega)
    have hvalue : ∀ d : Cursor, d.rest.length < c.rest.length →
        ValueEnds (value isConst room) (value isConst room') d := fun d hlt e hle => ih (by omega) (by omega)
    rw [value, value]
    refine .get_bind (.get_bind ?_)
    dsimp only
    have hother : Ends c (do report .expectedValue ("found " ++ (← get).found); return (none : Option Value))
        (do report .expectedValue ("found " ++ (← get).found); return none) (Advances c) :=
      .get_bind ((ends_report _ _).bind fun _ _ _ h => .pure (.none h.2))
    generalize hkind : c.kind? = kind
    cases kind with
    | none => exact hother
    | some kind =>
      have hrest : c.rest ≠ [] := Cursor.rest_ne_nil_of_kind? hkind
      have hleaf : ∀ (leaf : Token → Value), Ends c (do let t ← bump; return some (leaf t))
          (do let t ← bump; return some (leaf t)) (Advances c) := fun leaf =>
        (ends_bump hrest).bind fun _ _ _ h => .pure (.of_lt _ h.2)
      cases kind
      case dollar =>
        refine ends_variableName.bind fun name d _ h => ?_
        cases name with
        | none => exact .pure h.drop
        | some name =>
          have hlt := h.lt (Option.some_ne_none name)
          dsimp only
          split
          · exact (ends_reportAt _ _ _).bind fun _ e _ he => .pure (.of_lt _ (he.2 ▸ hlt))
          · exact .pure (.of_lt _ hlt)
      case int => exact hleaf fun t => .int t.text t.span
      case float => exact hleaf fun t => .float t.text t.span
      case string =>
        exact (ends_bump hrest).bind fun t d _ h => (ends_stringValue t).bind fun v e hle _ =>
          .pure (.of_lt _ (Nat.lt_of_le_of_lt hle h.2))
      case blockString =>
        refine .get_bind ?_
        split
        · exact (ends_reportHere _).bind fun _ d _ h => (ends_bump (h.2 ▸ hrest)).bind fun t e _ he =>
            .pure (.of_lt _ (h.2 ▸ he.2))
        · exact hleaf fun t => .string (Text.BlockString.value t.text) t.span
      case unterminatedString =>
        exact (ends_reportHere _).bind fun _ d _ h => (ends_skip (h.2 ▸ hrest)).bind fun _ e _ he =>
          .pure (.of_lt _ (h.2 ▸ he.2))
      case name => exact hleaf wordValue
      case lBracket =>
        refine (ends_bump hrest).bind fun opened d _ hlt => ends_listed
          (fun e hle hgoes => ends_listItem (hvalue e (by omega)) hgoes)
          fun items e hle => (ends_spanFrom _).bind fun _ _ _ hsame => ?_
        subst hsame
        exact .pure (.of_lt _ (by omega))
      case lBrace =>
        refine (ends_bump hrest).bind fun opened d _ hlt => ends_listed
          (fun e hle hgoes => ends_objectField (hvalue e (by omega)) (rest_ne_nil_of_goes hgoes))
          fun fields e hle => (ends_spanFrom _).bind fun _ _ _ hsame => ?_
        subst hsame
        exact .pure (.of_lt _ (by omega))
      all_goals exact hother

theorem valueEnds (isConst : Bool) (hroom : c.rest.length < room) (hroom' : c.rest.length < room') :
    ValueEnds (value isConst room) (value isConst room') c := fun _ hle =>
  ends_value isConst (Nat.lt_of_le_of_lt hle hroom) (Nat.lt_of_le_of_lt hle hroom')

/-! ## Arguments and directives -/

theorem ends_argument {isConst : Bool} (hroom : c.rest.length < room) (hroom' : c.rest.length < room')
    (hrest : c.rest ≠ []) :
    Ends c (argument isConst room) (argument isConst room') fun _ d => d.rest.length < c.rest.length := by
  refine .get_bind ?_
  split
  · exact .get_bind ((ends_reportAndSkip _ _ hrest).bind fun _ _ _ h => .pure h)
  · rename_i hat
    have hname : c.isAt .name = true := by simpa using hat
    refine (ends_expectName_of_isAt hname).bind fun name d hd h => ?_
    have hlt := h.2.2
    cases name with
    | none => exact .pure hlt
    | some name =>
      refine (ends_expect _).bind fun colon e hle _ => ?_
      cases colon with
      | none => exact .pure (by omega)
      | some colon =>
        refine (ends_value isConst (by omega) (by omega)).bind fun given e₁ hle₁ _ => ?_
        cases given with
        | none => exact .pure (by omega)
        | some given => exact .pure (by omega)

theorem ends_arguments (isConst : Bool) (hroom : c.rest.length < room) (hroom' : c.rest.length < room')
    (hrest : c.rest ≠ []) :
    Ends c (arguments isConst room) (arguments isConst room') fun _ _ => True := by
  exact (ends_bump hrest).bind fun opened d _ hlt => ends_listed
    (fun e hle hgoes => ends_argument (by omega) (by omega) (rest_ne_nil_of_goes hgoes)) fun _ _ _ => .pure trivial

theorem ends_optionalArguments (isConst : Bool) (hroom : c.rest.length < room) (hroom' : c.rest.length < room') :
    Ends c (optionalArguments isConst room) (optionalArguments isConst room') fun _ _ => True := by
  refine .get_bind ?_
  split
  · rename_i h
    exact ends_arguments isConst hroom hroom' (Cursor.rest_ne_nil_of_isAt h)
  · exact .pure trivial

theorem ends_directive {isConst : Bool} (hroom : c.rest.length < room) (hroom' : c.rest.length < room')
    (hrest : c.rest ≠ []) :
    Ends c (directive isConst room) (directive isConst room') fun _ d => d.rest.length < c.rest.length := by
  refine (ends_bump hrest).bind fun sign d _ hlt => ends_expectName.bind fun name e hle _ => ?_
  cases name with
  | none => exact .pure (by omega)
  | some name =>
    refine (ends_optionalArguments isConst (by omega) (by omega)).bind fun given e₁ hle₁ _ =>
      (ends_spanFrom _).bind fun _ _ _ hsame => ?_
    subst hsame
    exact .pure (by omega)

theorem ends_directives (isConst : Bool) (hroom : c.rest.length < room) (hroom' : c.rest.length < room') :
    Ends c (directives isConst room) (directives isConst room') fun _ _ => True := by
  exact (ends_collect fun e hle hat =>
    ends_directive (by omega) (by omega) (Cursor.rest_ne_nil_of_isAt hat)).imp fun _ _ _ _ => trivial

/-! ## Selections -/

theorem ends_fieldName (hat : c.isAt .name = true) :
    Ends c fieldName fieldName fun _ d => d.rest.length < c.rest.length := by
  refine (ends_expectName_of_isAt hat).bind fun first d _ h => ?_
  have hlt := h.2.2
  cases first with
  | none => exact .pure hlt
  | some first =>
    refine (ends_eat .colon).bind fun mark e hle _ => ?_
    cases mark with
    | none => exact .pure (by omega)
    | some mark =>
      refine ends_expectName.bind fun second e₁ hle₁ _ => ?_
      cases second with
      | none => exact .pure (by omega)
      | some second => exact .pure (by omega)

/-- A selection set in what is left behind a cursor ends, and reads a token. -/
def BodyEnds (body body' : Parse SelectionSet) (c : Cursor) : Prop :=
  ∀ e : Cursor, e.isAt .lBrace = true → e.rest.length ≤ c.rest.length → Ends e body body' fun _ _ => True

variable {body body' : Parse SelectionSet}

theorem ends_field (hroom : c.rest.length < room) (hroom' : c.rest.length < room') (hat : c.isAt .name = true)
    (hbody : BodyEnds body body' c) :
    Ends c (field room body) (field room' body') fun _ d => d.rest.length < c.rest.length := by
  refine .get_bind ((ends_fieldName hat).bind fun o d _ hlt => ?_)
  cases o with
  | none => exact .pure hlt
  | some o =>
    obtain ⟨label, name⟩ := o
    refine (ends_optionalArguments false (by omega) (by omega)).bind fun given e hle _ =>
      (ends_directives false (by omega) (by omega)).bind fun marks e₁ hle₁ _ => .get_bind ?_
    split
    · rename_i hat
      refine (hbody e₁ hat (by omega)).bind fun set e₂ hle₂ _ => (ends_spanFrom _).bind fun _ _ _ hsame => ?_
      subst hsame
      exact .pure (by omega)
    · refine (ends_spanFrom _).bind fun _ _ _ hsame => ?_
      subst hsame
      exact .pure (by omega)

theorem ends_spread (start : Nat) (hroom : c.rest.length < room) (hroom' : c.rest.length < room') :
    Ends c (spread room start) (spread room' start) fun _ _ => True := by
  refine ends_expectName.bind fun name d hle _ => ?_
  cases name with
  | none => exact .pure trivial
  | some name =>
    exact (ends_directives false (by omega) (by omega)).bind fun _ _ _ _ => (ends_spanFrom _).bind fun _ _ _ _ =>
      .pure trivial

theorem ends_optionalCondition : Ends c optionalCondition optionalCondition fun _ _ => True := by
  refine (ends_eatWord _).bind fun mark d _ _ => ?_
  cases mark with
  | none => exact .pure trivial
  | some mark =>
    refine ends_expectName.bind fun type e _ _ => ?_
    cases type with
    | none => exact .pure trivial
    | some type => exact .pure trivial

theorem ends_inlineFragment {start : Nat} (hroom : c.rest.length < room) (hroom' : c.rest.length < room')
    (hbody : BodyEnds body body' c) :
    Ends c (inlineFragment room start body) (inlineFragment room' start body') fun _ _ => True := by
  refine ends_optionalCondition.bind fun condition d hle _ => ?_
  cases condition with
  | none => exact .pure trivial
  | some condition =>
    refine (ends_directives false (by omega) (by omega)).bind fun marks e hle' _ => .get_bind ?_
    split
    · rename_i hat
      exact (hbody e hat (by omega)).bind fun _ _ _ _ => .pure trivial
    · exact .get_bind ((ends_report _ _).bind fun _ _ _ _ => .pure trivial)

theorem ends_spreadOrInline (hroom : c.rest.length < room) (hroom' : c.rest.length < room') (hrest : c.rest ≠ [])
    (hbody : BodyEnds body body' c) :
    Ends c (spreadOrInline room body) (spreadOrInline room' body') fun _ d => d.rest.length < c.rest.length := by
  refine (ends_bump hrest).bind fun dots d hle hlt => .get_bind (.get_bind ?_)
  split
  · exact (ends_spread _ (by omega) (by omega)).imp fun _ _ _ _ => by omega
  · have hbody' : BodyEnds body body' d := fun e hat hle' => hbody e hat (by omega)
    exact (ends_inlineFragment (by omega) (by omega) hbody').imp fun _ _ _ _ => by omega

theorem ends_selection (hroom : c.rest.length < room) (hroom' : c.rest.length < room') (hrest : c.rest ≠ [])
    (hbody : BodyEnds body body' c) :
    Ends c (selection room body) (selection room' body') fun _ d => d.rest.length < c.rest.length := by
  refine .get_bind ?_
  have hother : Ends c
      (do reportAndSkip .unexpectedToken ("expected a field or fragment spread, found " ++ (← get).found)
          return (none : Option Selection))
      (do reportAndSkip .unexpectedToken ("expected a field or fragment spread, found " ++ (← get).found)
          return none) fun _ d => d.rest.length < c.rest.length :=
    .get_bind ((ends_reportAndSkip _ _ hrest).bind fun _ _ _ h => .pure h)
  generalize hkind : c.kind? = kind
  cases kind with
  | none => exact hother
  | some kind =>
    cases kind
    case name =>
      have hat : c.isAt .name = true := by rw [Cursor.isAt, hkind]; rfl
      exact ends_field hroom hroom' hat hbody
    case spread => exact ends_spreadOrInline hroom hroom' hrest hbody
    all_goals exact hother

theorem ends_selectionSet (hroom : c.rest.length < room) (hroom' : c.rest.length < room') (hrest : c.rest ≠ []) :
    Ends c (selectionSet room) (selectionSet room') fun _ d => d.rest.length < c.rest.length := by
  induction room generalizing c room' with
  | zero => exact absurd hroom (Nat.not_lt_zero _)
  | succ room ih =>
    obtain ⟨room', rfl⟩ := Nat.exists_eq_succ_of_ne_zero (n := room') (by omega)
    rw [selectionSet, selectionSet]
    refine (ends_bump hrest).bind fun opened d _ hlt => ends_listed (fun e hle hgoes => ?_)
      fun selections e hle => (ends_spanFrom _).bind fun span e₁ hle₁ _ => ?_
    · refine ends_selection (by omega) (by omega) (rest_ne_nil_of_goes hgoes) fun e' hat' hle' => ?_
      exact (ih (by omega) (by omega) (Cursor.rest_ne_nil_of_isAt hat')).imp fun _ _ _ _ => trivial
    · dsimp only
      split
      · exact (ends_reportAt _ _ _).bind fun _ _ _ _ => .pure (by omega)
      · exact .pure (by omega)

theorem bodyEnds (hroom : c.rest.length < room) (hroom' : c.rest.length < room') :
    BodyEnds (selectionSet room) (selectionSet room') c := fun _ hat _ =>
  (ends_selectionSet (by omega) (by omega) (Cursor.rest_ne_nil_of_isAt hat)).imp fun _ _ _ _ => trivial

/-! ## Recovery -/

theorem recover_stops (c : Cursor) (h : c.rest = []) : (!c.atEnd && !c.isAtDefinition) = false := by
  rw [Cursor.not_atEnd_of_nil h, Bool.false_and]

theorem ends_recover : Ends c recover recover fun _ _ => True := ends_skipWhile recover_stops

/-- The rest of a definition of a schema ends, however many rounds are allowed beyond the tokens. -/
theorem ends_skipDefinitionBody {rounds rounds' : Nat} (hrounds : c.rest.length < rounds)
    (hrounds' : c.rest.length < rounds') (depth : Nat) :
    Ends c (skipDefinitionBody rounds depth) (skipDefinitionBody rounds' depth) fun _ _ => True := by
  induction rounds generalizing c rounds' depth with
  | zero => exact absurd hrounds (Nat.not_lt_zero _)
  | succ rounds ih =>
    obtain ⟨rounds', rfl⟩ := Nat.exists_eq_succ_of_ne_zero (n := rounds') (by omega)
    refine .get_bind ?_
    split
    · exact .pure trivial
    · rename_i hgoes
      refine (ends_skip fun hnil => hgoes (by rw [Cursor.atEnd_iff.2 hnil, Bool.true_or])).bind fun _ d _ h => ?_
      have hlt := h.2
      have hlater : ∀ depth, Ends d (skipDefinitionBody rounds depth) (skipDefinitionBody rounds' depth)
          fun _ _ => True := ih (by omega) (by omega)
      split
      · exact hlater _
      · split
        · split
          · exact .pure trivial
          · exact hlater _
        · exact hlater _

theorem ends_skipTypeSystemDefinition (hrest : c.rest ≠ []) :
    Ends c skipTypeSystemDefinition skipTypeSystemDefinition fun _ d => d.rest.length < c.rest.length := by
  refine .get_bind (.get_bind ?_)
  extract_lets rest
  -- the step that passes over the keyword may come behind the last token, a description
  have hover : ∀ d, Overruns d (rest ()) (rest ()) fun _ e => d.rest ≠ [] → e.rest.length < d.rest.length := fun d =>
    .get_bind (.get_bind (overruns_skip.bind fun _ e _ hlt => .get_bind
      ((ends_skipDefinitionBody (Nat.lt_succ_self _) (Nat.lt_succ_self _) 0).bind fun _ e₁ hle₁ _ => .get_bind
        ((ends_reportAt _ _ _).imp fun _ e₂ hle₂ _ hd => by have := hlt hd; omega))))
  split
  · refine Overruns.ends ?_ hrest
    refine (ends_skip hrest).overruns fun _ d _ hlt => (hover d).imp fun _ e hle _ => ?_
    exact Nat.lt_of_le_of_lt hle hlt
  · exact ((hover c).ends hrest).imp fun _ _ _ h => h hrest

theorem ends_skipStray (hrest : c.rest ≠ []) :
    Ends c skipStray skipStray fun _ d => d.rest.length < c.rest.length := by
  refine .get_bind ?_
  have hrecover : ∀ {d : Cursor}, d.rest.length < c.rest.length →
      Ends d recover recover fun _ e => e.rest.length < c.rest.length := fun hlt =>
    ends_recover.imp fun _ _ hle _ => Nat.lt_of_le_of_lt hle hlt
  have hother : Ends c (do reportAndSkip .expectedDefinition ("found " ++ (← get).found); recover)
      (do reportAndSkip .expectedDefinition ("found " ++ (← get).found); recover)
      fun _ d => d.rest.length < c.rest.length :=
    .get_bind ((ends_reportAndSkip _ _ hrest).bind fun _ _ _ h => hrecover h)
  generalize c.kind? = kind
  cases kind with
  | none => exact hother
  | some kind =>
    cases kind
    case garbage => exact (ends_reportAndSkip _ _ hrest).bind fun _ _ _ h => hrecover h
    case unterminatedString =>
      exact (ends_reportHere _).bind fun _ d _ h => (ends_skip (h.2 ▸ hrest)).bind fun _ e _ he =>
        hrecover (h.2 ▸ he.2)
    all_goals exact hother

theorem ends_missingSelectionSet : Ends c missingSelectionSet missingSelectionSet fun _ _ => True :=
  .get_bind ((ends_report _ _).bind fun _ _ _ _ => ends_recover)

/-! ## Definitions -/

theorem ends_optionalDefault (hroom : c.rest.length < room) (hroom' : c.rest.length < room') :
    Ends c (optionalDefault room) (optionalDefault room') fun _ _ => True := by
  refine (ends_eat _).bind fun equals d hle _ => ?_
  cases equals with
  | none => exact .pure trivial
  | some equals =>
    refine (ends_value true (by omega) (by omega)).bind fun given e _ _ => ?_
    cases given with
    | none => exact .pure trivial
    | some given => exact .pure trivial

theorem ends_variableDefinition (hroom : c.rest.length < room) (hroom' : c.rest.length < room')
    (hat : c.isAt .dollar = true) :
    Ends c (variableDefinition room) (variableDefinition room') fun _ d => d.rest.length < c.rest.length := by
  refine (ends_variableName_of_isAt hat).bind fun name d _ hlt => ?_
  cases name with
  | none => exact .pure hlt
  | some name =>
    refine (ends_expect _).bind fun colon e hle _ => ?_
    cases colon with
    | none => exact .pure (by omega)
    | some colon =>
      refine (ends_typeRef (by omega) (by omega)).bind fun type e₁ hle₁ _ => ?_
      cases type with
      | none => exact .pure (by omega)
      | some type =>
        refine (ends_optionalDefault (by omega) (by omega)).bind fun initial e₂ hle₂ _ => ?_
        cases initial with
        | none => exact .pure (by omega)
        | some initial =>
          exact (ends_directives true (by omega) (by omega)).bind fun marks e₃ hle₃ _ => (ends_spanFrom _).bind
            fun span e₄ hle₄ _ => .pure (by omega)

theorem ends_declaredVariable (hroom : c.rest.length < room) (hroom' : c.rest.length < room') (hrest : c.rest ≠ []) :
    Ends c (declaredVariable room) (declaredVariable room') fun _ d => d.rest.length < c.rest.length := by
  refine .get_bind ?_
  split
  · rename_i hat
    exact ends_variableDefinition hroom hroom' hat
  · exact .get_bind ((ends_reportAndSkip _ _ hrest).bind fun _ _ _ h => .pure h)

theorem ends_variableDefinitions (hroom : c.rest.length < room) (hroom' : c.rest.length < room') (hrest : c.rest ≠ []) :
    Ends c (variableDefinitions room) (variableDefinitions room') fun _ _ => True := by
  exact (ends_bump hrest).bind fun opened d _ hlt => ends_listed
    (fun e hle hgoes => ends_declaredVariable (by omega) (by omega) (rest_ne_nil_of_goes hgoes))
    fun _ _ _ => .pure trivial

theorem ends_namedOperation (hroom : c.rest.length < room) (hroom' : c.rest.length < room') (hrest : c.rest ≠ []) :
    Ends c (namedOperation room) (namedOperation room') fun _ d => d.rest.length < c.rest.length := by
  refine .get_bind ((ends_bump hrest).bind fun keyword d _ hlt => .get_bind ?_)
  extract_lets rest rest'
  have hname : ∀ name (d : Cursor), d.rest.length < c.rest.length →
      Ends d (rest name) (rest' name) fun _ e => e.rest.length < c.rest.length := by
    intro name d hlt
    refine .get_bind ?_
    extract_lets rest rest'
    have hdeclared : ∀ declared (d : Cursor), d.rest.length < c.rest.length →
        Ends d (rest declared) (rest' declared) fun _ e => e.rest.length < c.rest.length := by
      intro declared d hlt
      refine (ends_directives false (by omega) (by omega)).bind fun marks e hle _ => .get_bind ?_
      split
      · rename_i hat
        exact (ends_selectionSet (by omega) (by omega) (Cursor.rest_ne_nil_of_isAt hat)).bind fun _ _ _ _ =>
          .pure (by omega)
      · exact ends_missingSelectionSet.bind fun _ _ _ _ => .pure (by omega)
    split
    · rename_i hat
      exact (ends_variableDefinitions (by omega) (by omega) (Cursor.rest_ne_nil_of_isAt hat)).bind
        fun declared e hle _ => hdeclared declared e (by omega)
    · exact hdeclared [] d hlt
  split
  · exact ends_expectName.bind fun name e hle _ => hname name e (by omega)
  · exact hname none d hlt.2

theorem ends_shorthandOperation (hroom : c.rest.length < room) (hroom' : c.rest.length < room') (hrest : c.rest ≠ []) :
    Ends c (shorthandOperation room) (shorthandOperation room') fun _ d => d.rest.length < c.rest.length :=
  .get_bind ((ends_selectionSet hroom hroom' hrest).bind fun _ _ _ h => .pure h)

theorem ends_fragment (hroom : c.rest.length < room) (hroom' : c.rest.length < room') (hrest : c.rest ≠ []) :
    Ends c (fragment room) (fragment room') fun _ d => d.rest.length < c.rest.length := by
  refine .get_bind ((ends_skip hrest).bind fun _ d _ h => .get_bind ?_)
  have hlt := h.2
  have hrecover : ∀ {e : Cursor}, e.rest.length ≤ d.rest.length → Ends e (do recover; return (none : Option Fragment))
      (do recover; return none) fun _ e => e.rest.length < c.rest.length := fun hle =>
    ends_recover.bind fun _ _ _ _ => .pure (by omega)
  split
  · exact (ends_report _ _).bind fun _ _ hle _ => hrecover hle
  · refine ends_expectName.bind fun name e hle _ => ?_
    cases name with
    | none => exact hrecover hle
    | some name =>
      refine (ends_expectWord _).bind fun on e₁ hle₁ _ => ?_
      cases on with
      | none => exact hrecover (by omega)
      | some on =>
        refine ends_expectName.bind fun condition e₂ hle₂ _ => ?_
        cases condition with
        | none => exact hrecover (by omega)
        | some condition =>
          refine (ends_directives false (by omega) (by omega)).bind fun marks e₃ hle₃ _ => .get_bind ?_
          split
          · rename_i hat
            exact (ends_selectionSet (by omega) (by omega) (Cursor.rest_ne_nil_of_isAt hat)).bind fun _ _ _ _ =>
              .pure (by omega)
          · exact ends_missingSelectionSet.bind fun _ _ _ _ => .pure (by omega)

theorem ends_definition (hroom : c.rest.length < room) (hroom' : c.rest.length < room') (hrest : c.rest ≠ []) :
    Ends c (definition room) (definition room') fun _ d => d.rest.length < c.rest.length := by
  refine .get_bind ?_
  split
  · exact (ends_shorthandOperation hroom hroom' hrest).bind fun _ _ _ h => .pure h
  · split
    · exact (ends_fragment hroom hroom' hrest).bind fun _ _ _ h => .pure h
    · split
      · exact (ends_namedOperation hroom hroom' hrest).bind fun _ _ _ h => .pure h
      · split
        · exact (ends_skipTypeSystemDefinition hrest).bind fun _ _ _ h => .pure h
        · exact (ends_skipStray hrest).bind fun _ _ _ h => .pure h

/-- A document ends at the end of the text. -/
theorem ends_document (hroom : c.rest.length < room) (hroom' : c.rest.length < room') :
    Ends c (document room) (document room') fun _ d => d.rest = [] := by
  refine (ends_collect fun e hle hgoes =>
    ends_definition (by omega) (by omega) (rest_ne_nil_of_not_atEnd hgoes)).bind fun definitions d _ hdone =>
    .get_bind ?_
  have hnil : d.rest = [] := Cursor.atEnd_iff.1 (by simpa using hdone)
  dsimp only
  split
  · exact (ends_reportHere _).bind fun _ e _ h => .pure (h.2.trans hnil)
  · exact .pure hnil

end Nodes

end QueryBatch.Parse
