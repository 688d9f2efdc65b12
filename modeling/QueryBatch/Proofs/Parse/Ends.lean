import QueryBatch.Parse.SchemaText
import QueryBatch.Proofs.Parse.Limits

/-!
# Every text ends

* `ends_inputItem`, `ends_fieldItem`, …: the steps of the loops in the parsers of schemas. Each reads a token.
* `ends_typeBody`, `ends_schemaDefinition`, …: each parser ends, with the same result in every room that is larger than
  the number of the tokens left.
* `Loop`: the loops of all parsers. `Loop.ends_step`: each round of one reads a token; `Loop.ends`: so it comes to where
  it does not go on.
* `ends_without_limits`: without limits every text is parsed in at most one step more than it has tokens, and no loop or
  nested node stops a parse for want of rounds or room.
-/

namespace QueryBatch.Parse

section Nodes

variable {c : Cursor} {room room' : Nat}

/-! ## Descriptions -/

theorem Cursor.rest_ne_nil_of_isAtDescription (h : c.isAtDescription = true) : c.rest ≠ [] := fun hnil => by
  rw [isAtDescription, isAt_of_nil hnil, isAt_of_nil hnil] at h
  cases h

/-- A description is passed over, if there is one. -/
theorem ends_skipDescription : Ends c skipDescription skipDescription fun _ d =>
    c.Paces d ∧ (d.rest = c.rest ∨ d.rest.length < c.rest.length) := by
  refine .get_bind ?_
  split
  · rename_i h
    exact (ends_skip (Cursor.rest_ne_nil_of_isAtDescription h)).imp fun _ _ _ h => ⟨h.1, .inr h.2⟩
  · exact .pure ⟨.refl c, .inl rfl⟩

/-- An item with its description. Without a name the next token is passed over, or a step is taken at the end of the
text, behind the description. -/
theorem Ends.described {β : Type} {f f' : Option Name → Parse (Option β)} (hrest : c.rest ≠ [])
    (hnone : f none = do skip; return none) (hnone' : f' none = do skip; return none)
    (hsome : ∀ name d, d.rest.length < c.rest.length → Ends d (f (some name)) (f' (some name)) fun _ _ => True) :
    Ends c (skipDescription >>= fun _ => expectName >>= f) (skipDescription >>= fun _ => expectName >>= f')
      fun _ d => d.rest.length < c.rest.length := by
  refine Overruns.ends (ends_skipDescription.overruns fun _ d hpaces hd => ?_) hrest
  have hle := hpaces.rest_le
  refine (ends_expectName.imp fun o e _ ho => ⟨ho.paces, ho⟩).overruns fun o e _ ho => ?_
  cases o with
  | none =>
    rw [hnone, hnone']
    refine overruns_skip.bind fun _ e₁ hle₁ hlt => .pure ?_
    rw [ho.same rfl] at hlt hle₁
    rcases hd with hd | hd
    · exact hd ▸ hlt (hd ▸ hrest)
    · omega
  | some name =>
    have hlt := ho.lt (Option.some_ne_none name)
    exact .of_ends ((hsome name e (by omega)).imp fun _ _ _ _ => by omega)

/-! ## Inputs -/

theorem ends_inputDef (name : Name) (hroom : c.rest.length < room) (hroom' : c.rest.length < room') :
    Ends c (inputDef room name) (inputDef room' name) fun _ _ => True := by
  refine (ends_expect _).bind fun colon d hle _ => ?_
  cases colon with
  | none => exact .pure trivial
  | some colon =>
    refine (ends_typeRef (by omega) (by omega)).bind fun type e hle' _ => ?_
    cases type with
    | none => exact .pure trivial
    | some type =>
      refine (ends_optionalDefault (by omega) (by omega)).bind fun initial e₁ hle₁ _ => ?_
      cases initial with
      | none => exact .pure trivial
      | some initial => exact (ends_directives true (by omega) (by omega)).bind fun _ _ _ _ => .pure trivial

theorem ends_inputItem (hroom : c.rest.length < room) (hroom' : c.rest.length < room') (hrest : c.rest ≠ []) :
    Ends c (inputItem room) (inputItem room') fun _ d => d.rest.length < c.rest.length :=
  .described hrest rfl rfl fun name d hlt => ends_inputDef name (by omega) (by omega)

theorem ends_inputDefs (closing : TokenKind) (closer : String) (opened : Span) (hroom : c.rest.length < room)
    (hroom' : c.rest.length < room') :
    Ends c (inputDefs room closing closer opened) (inputDefs room' closing closer opened) fun _ _ => True := by
  exact ends_listed (fun e hle hgoes => ends_inputItem (by omega) (by omega) (rest_ne_nil_of_goes hgoes))
    fun _ _ _ => .pure trivial

theorem ends_argumentDefs (hroom : c.rest.length < room) (hroom' : c.rest.length < room') :
    Ends c (argumentDefs room) (argumentDefs room') fun _ _ => True := by
  refine .get_bind ?_
  split
  · rename_i h
    exact (ends_skip (Cursor.rest_ne_nil_of_isAt h)).bind fun _ d hle _ => .get_bind
      (ends_inputDefs _ _ _ (by omega) (by omega))
  · exact .pure trivial

/-! ## Types -/

theorem ends_separatedName (hrest : c.rest ≠ []) :
    Ends c separatedName separatedName fun _ d => d.rest.length < c.rest.length :=
  (ends_skip hrest).bind fun _ _ _ h => ends_expectName.bind fun _ _ hle _ => .pure (Nat.lt_of_le_of_lt hle h.2)

theorem ends_separatedNames (separator : TokenKind) :
    Ends c (separatedNames separator) (separatedNames separator) fun _ _ => True := by
  exact (ends_eat _).bind fun _ _ _ _ => ends_expectName.bind fun _ _ _ _ =>
    (ends_collect fun _ _ hat => ends_separatedName (Cursor.rest_ne_nil_of_isAt hat)).bind
      fun _ _ _ _ => .pure trivial

theorem ends_interfaces : Ends c interfaces interfaces fun _ _ => True := by
  refine (ends_eatWord _).bind fun word d _ _ => ?_
  cases word with
  | none => exact .pure trivial
  | some word => exact ends_separatedNames _

theorem ends_fieldItem (hroom : c.rest.length < room) (hroom' : c.rest.length < room') (hrest : c.rest ≠ []) :
    Ends c (fieldItem room) (fieldItem room') fun _ d => d.rest.length < c.rest.length := by
  refine .described hrest rfl rfl fun name d hlt => ?_
  refine (ends_argumentDefs (by omega) (by omega)).bind fun arguments e hle _ =>
    (ends_expect _).bind fun colon e₁ hle₁ _ => ?_
  cases colon with
  | none => exact .pure trivial
  | some colon =>
    refine (ends_typeRef (by omega) (by omega)).bind fun type e₂ hle₂ _ => ?_
    cases type with
    | none => exact .pure trivial
    | some type => exact (ends_directives true (by omega) (by omega)).bind fun _ _ _ _ => .pure trivial

theorem ends_fieldDefs (hroom : c.rest.length < room) (hroom' : c.rest.length < room') :
    Ends c (fieldDefs room) (fieldDefs room') fun _ _ => True := by
  refine .get_bind ?_
  split
  · rename_i h
    exact (ends_bump (Cursor.rest_ne_nil_of_isAt h)).bind fun opened d _ hlt => ends_listed
      (fun e hle hgoes => ends_fieldItem (by omega) (by omega) (rest_ne_nil_of_goes hgoes)) fun _ _ _ => .pure trivial
  · exact .pure trivial

theorem ends_enumItem (hroom : c.rest.length < room) (hroom' : c.rest.length < room') (hrest : c.rest ≠ []) :
    Ends c (enumItem room) (enumItem room') fun _ d => d.rest.length < c.rest.length :=
  .described hrest rfl rfl fun name d hlt =>
    (ends_directives true (by omega) (by omega)).bind fun _ _ _ _ => .pure trivial

theorem ends_enumValues (hroom : c.rest.length < room) (hroom' : c.rest.length < room') :
    Ends c (enumValues room) (enumValues room') fun _ _ => True := by
  refine .get_bind ?_
  split
  · rename_i h
    exact (ends_bump (Cursor.rest_ne_nil_of_isAt h)).bind fun opened d _ hlt => ends_listed
      (fun e hle hgoes => ends_enumItem (by omega) (by omega) (rest_ne_nil_of_goes hgoes)) fun _ _ _ => .pure trivial
  · exact .pure trivial

theorem ends_unionMembers : Ends c unionMembers unionMembers fun _ _ => True := by
  refine (ends_eat _).bind fun equals d _ _ => ?_
  cases equals with
  | none => exact .pure trivial
  | some equals => exact ends_separatedNames _

theorem ends_inputFields (hroom : c.rest.length < room) (hroom' : c.rest.length < room') :
    Ends c (inputFields room) (inputFields room') fun _ _ => True := by
  refine .get_bind ?_
  split
  · rename_i h
    exact (ends_bump (Cursor.rest_ne_nil_of_isAt h)).bind fun opened d hle _ =>
      ends_inputDefs _ _ _ (by omega) (by omega)
  · exact .pure trivial

theorem ends_typeBody (keyword name : String) (hroom : c.rest.length < room) (hroom' : c.rest.length < room') :
    Ends c (typeBody room keyword name) (typeBody room' keyword name) fun _ _ => True := by
  have hmarked : ∀ {β : Type} {p p' : Parse β} {d : Cursor}, d.rest.length ≤ c.rest.length →
      (∀ e : Cursor, e.rest.length ≤ c.rest.length → Ends e p p' fun _ _ => True) →
      Ends d (directives true room >>= fun _ => p) (directives true room' >>= fun _ => p') fun _ _ => True :=
    fun hle h => (ends_directives true (by omega) (by omega)).bind fun _ e hle' _ => h e (by omega)
  unfold typeBody
  split
  · exact ends_interfaces.bind fun listed d hle _ => hmarked hle fun e _ =>
      (ends_fieldDefs (by omega) (by omega)).bind fun _ _ _ _ => .pure trivial
  · exact ends_interfaces.bind fun listed d hle _ => hmarked hle fun e _ =>
      (ends_fieldDefs (by omega) (by omega)).bind fun _ _ _ _ => .pure trivial
  · exact hmarked (Nat.le_refl _) fun _ _ => .pure trivial
  · exact hmarked (Nat.le_refl _) fun _ _ => ends_unionMembers.bind fun _ _ _ _ => .pure trivial
  · exact hmarked (Nat.le_refl _) fun e _ =>
      (ends_enumValues (by omega) (by omega)).bind fun _ _ _ _ => .pure trivial
  · exact hmarked (Nat.le_refl _) fun e _ =>
      (ends_inputFields (by omega) (by omega)).bind fun _ _ _ _ => .pure trivial

theorem ends_typeDef (hroom : c.rest.length < room) (hroom' : c.rest.length < room') (hrest : c.rest ≠ []) :
    Ends c (typeDef room) (typeDef room') fun _ d => d.rest.length < c.rest.length := by
  refine (ends_bump hrest).bind fun keyword d _ h => ends_expectName.bind fun name e hle _ => ?_
  have hlt := h.2
  cases name with
  | none => exact .pure (by omega)
  | some name => exact (ends_typeBody _ _ (by omega) (by omega)).bind fun _ _ _ _ => .pure (by omega)

/-! ## Directives and roots -/

/-- The locations of a directive end, however many rounds are allowed beyond the tokens. -/
theorem ends_locations {rounds rounds' : Nat} (hrounds : c.rest.length < rounds) (hrounds' : c.rest.length < rounds')
    (found : List DirectiveLocation) :
    Ends c (locations rounds found) (locations rounds' found) fun _ _ => True := by
  induction rounds generalizing c rounds' found with
  | zero => exact absurd hrounds (Nat.not_lt_zero _)
  | succ rounds ih =>
    obtain ⟨rounds', rfl⟩ := Nat.exists_eq_succ_of_ne_zero (n := rounds') (by omega)
    refine ends_expectName.bind fun name d hle h => ?_
    cases name with
    | none => exact .pure trivial
    | some name =>
      have hlt := h.lt (Option.some_ne_none name)
      have hnext : ∀ (found : List DirectiveLocation) (e : Cursor), e.rest.length < c.rest.length →
          Ends e (do if (← eat .pipe).isSome then locations rounds found else return some found.reverse)
            (do if (← eat .pipe).isSome then locations rounds' found else return some found.reverse)
            fun _ _ => True := by
        refine fun found e hlt => (ends_eat _).bind fun bar e' hle _ => ?_
        split
        · exact ih (by omega) (by omega) found
        · exact .pure trivial
      dsimp only
      split
      · exact hnext _ d hlt
      · exact (ends_reportAt _ _ _).bind fun _ e _ _ => hnext found e (by omega)

theorem ends_directiveDef (hroom : c.rest.length < room) (hroom' : c.rest.length < room') (hrest : c.rest ≠ []) :
    Ends c (directiveDef room) (directiveDef room') fun _ d => d.rest.length < c.rest.length := by
  refine (ends_skip hrest).bind fun _ d _ h => (ends_expect _).bind fun sign e hle _ => ?_
  have hlt := h.2
  cases sign with
  | none => exact .pure (by omega)
  | some sign =>
    refine ends_expectName.bind fun name e₁ hle₁ _ => ?_
    cases name with
    | none => exact .pure (by omega)
    | some name =>
      refine (ends_argumentDefs (by omega) (by omega)).bind fun arguments e₂ hle₂ _ =>
        (ends_eatWord _).bind fun mark e₃ hle₃ _ => (ends_expectWord _).bind fun on e₄ hle₄ _ => ?_
      cases on with
      | none => exact .pure (by omega)
      | some on =>
        refine (ends_eat _).bind fun bar e₅ hle₅ _ => .get_bind
          ((ends_locations (Nat.lt_succ_self _) (Nat.lt_succ_self _) []).bind fun found e₆ hle₆ _ => ?_)
        cases found with
        | none => exact .pure (by omega)
        | some found => exact .pure (by omega)

theorem ends_rootItem (hrest : c.rest ≠ []) :
    Ends c rootItem rootItem fun _ d => d.rest.length < c.rest.length := by
  refine ends_expectName.bind fun operation d hle h => ?_
  cases operation with
  | none =>
    have hsame := h.same rfl
    exact (ends_skip (hsame ▸ hrest)).bind fun _ e _ he => .pure (hsame ▸ he.2)
  | some operation =>
    have hlt := h.lt (Option.some_ne_none operation)
    refine (ends_expect _).bind fun colon e hle _ => ?_
    cases colon with
    | none => exact .pure (by omega)
    | some colon =>
      refine ends_expectName.bind fun type e₁ hle₁ _ => ?_
      cases type with
      | none => exact .pure (by omega)
      | some type =>
        dsimp only
        split
        · exact .pure (by omega)
        · exact (ends_reportAt _ _ _).bind fun _ _ _ _ => .pure (by omega)

theorem ends_schemaRoots (hroom : c.rest.length < room) (hroom' : c.rest.length < room') (hrest : c.rest ≠ []) :
    Ends c (schemaRoots room) (schemaRoots room') fun _ d => d.rest.length < c.rest.length := by
  refine (ends_skip hrest).bind fun _ d _ h => ?_
  have hlt := h.2
  refine (ends_directives true (by omega) (by omega)).bind fun marks e hle _ => (ends_expect _).bind
    fun opened e₁ hle₁ _ => ?_
  cases opened with
  | none => exact .pure (by omega)
  | some opened =>
    exact ends_listed (fun e hle hgoes => ends_rootItem (rest_ne_nil_of_goes hgoes)) fun _ _ _ => .pure (by omega)

/-! ## Recovery -/

/-- The tokens up to the next definition end, however many rounds are allowed beyond them. -/
theorem ends_skipToDefinition {rounds rounds' : Nat} (hrounds : c.rest.length < rounds)
    (hrounds' : c.rest.length < rounds') (depth : Nat) :
    Ends c (skipToDefinition rounds depth) (skipToDefinition rounds' depth) fun _ _ => True := by
  induction rounds generalizing c rounds' depth with
  | zero => exact absurd hrounds (Nat.not_lt_zero _)
  | succ rounds ih =>
    obtain ⟨rounds', rfl⟩ := Nat.exists_eq_succ_of_ne_zero (n := rounds') (by omega)
    have hlater : c.atEnd ≠ true → ∀ depth, Ends c (skip >>= fun _ => skipToDefinition rounds depth)
        (skip >>= fun _ => skipToDefinition rounds' depth) fun _ _ => True := fun hend depth =>
      (ends_skip (mt Cursor.atEnd_iff.2 hend)).bind fun _ _ _ h => have hlt := h.2; ih (by omega) (by omega) depth
    refine .get_bind ?_
    split
    · exact .pure trivial
    · rename_i hend
      split
      · exact hlater hend _
      · split
        · exact hlater hend _
        · split
          · exact .pure trivial
          · exact hlater hend _

theorem overruns_skipStrayDefinition (kind : Diagnostic.Kind) (detail : String) :
    Overruns c (skipStrayDefinition kind detail) (skipStrayDefinition kind detail) fun _ d =>
      c.rest ≠ [] → d.rest.length < c.rest.length :=
  (overruns_reportAndSkip _ _).bind fun _ _ _ hlt => .get_bind
    ((ends_skipToDefinition (Nat.lt_succ_self _) (Nat.lt_succ_self _) 0).imp fun _ _ hle _ hrest =>
      Nat.lt_of_le_of_lt hle (hlt hrest))

/-! ## Schemas -/

theorem Cursor.rest_ne_nil_of_isAtAnyWord {words : List String} (h : c.isAtAnyWord words = true) : c.rest ≠ [] := by
  obtain ⟨word, -, hword⟩ := List.any_eq_true.1 h
  exact rest_ne_nil_of_isAtWord hword

/-- A definition of a schema reads a token, and at the end of the text it may take a step behind its description. -/
theorem ends_schemaDefinition (parts : Builder) (hroom : c.rest.length < room) (hroom' : c.rest.length < room')
    (hrest : c.rest ≠ []) :
    Ends c (schemaDefinition room parts) (schemaDefinition room' parts) fun _ d => d.rest.length < c.rest.length := by
  refine Overruns.ends (ends_skipDescription.overruns fun _ d hpaces hd => ?_) hrest
  have hle := hpaces.rest_le
  have hread : ∀ {e : Cursor}, e.rest.length < d.rest.length → e.rest.length < c.rest.length := fun hlt => by omega
  have hstray : ∀ (kind : Diagnostic.Kind) (detail : String),
      Overruns d (do skipStrayDefinition kind detail; return .ok parts)
        (do skipStrayDefinition kind detail; return .ok parts) fun (_ : Except SchemaFault Builder) e =>
          e.rest.length < c.rest.length := by
    refine fun kind detail => (overruns_skipStrayDefinition kind detail).bind fun _ e hle' hlt => .pure ?_
    rcases hd with hd | hd
    · exact hread (hlt (hd ▸ hrest))
    · exact Nat.lt_of_le_of_lt hle' hd
  refine .get_bind ?_
  dsimp only
  split
  · rename_i hword
    exact .of_ends ((ends_schemaRoots (by omega) (by omega) (Cursor.rest_ne_nil_of_isAtWord hword)).bind
      fun _ _ _ h => .pure (hread h))
  · split
    · rename_i hword
      refine .of_ends ((ends_directiveDef (by omega) (by omega) (Cursor.rest_ne_nil_of_isAtWord hword)).bind
        fun directive _ _ h => ?_)
      cases directive with
      | none => exact .pure (hread h)
      | some directive => exact .pure (hread h)
    · split
      · rename_i hword
        refine .of_ends ((ends_typeDef (by omega) (by omega) (Cursor.rest_ne_nil_of_isAtAnyWord hword)).bind
          fun type _ _ h => ?_)
        cases type with
        | none => exact .pure (hread h)
        | some type => exact .pure (hread h)
      · split
        · exact hstray _ _
        · exact hstray _ _

/-- The definitions of a schema end at the end of the text or at a fault, however many rounds are allowed beyond the
tokens. -/
theorem ends_schemaDefinitions {rounds rounds' : Nat} (parts : Builder) (hroom : c.rest.length < room)
    (hroom' : c.rest.length < room') (hrounds : c.rest.length < rounds) (hrounds' : c.rest.length < rounds') :
    Ends c (schemaDefinitions room rounds parts) (schemaDefinitions room' rounds' parts) fun parts d =>
      d.rest = [] ∨ ∃ fault, parts = .error fault := by
  induction rounds generalizing c rounds' parts with
  | zero => exact absurd hrounds (Nat.not_lt_zero _)
  | succ rounds ih =>
    obtain ⟨rounds', rfl⟩ := Nat.exists_eq_succ_of_ne_zero (n := rounds') (by omega)
    refine .get_bind ?_
    split
    · rename_i hend
      exact .pure (.inl (Cursor.atEnd_iff.1 hend))
    · rename_i hend
      refine (ends_schemaDefinition parts hroom hroom' (mt Cursor.atEnd_iff.2 hend)).bind fun parts d _ hlt => ?_
      cases parts with
      | ok parts => exact ih parts (by omega) (by omega) (by omega) (by omega)
      | error fault => exact .pure (.inr ⟨fault, rfl⟩)

end Nodes

/-! ## Loops -/

/-- The loops in the parsers of query documents and of schemas: whether they go on at a cursor, and the step that they
repeat in some room for nested nodes. -/
inductive Loop : {α : Type} → (Cursor → Bool) → (Nat → Parse (Option α)) → Prop
  | listItem (isConst : Bool) : Loop (fun c => !c.closes [.rBracket]) fun room => listItem (value isConst room)
  | objectField (isConst : Bool) : Loop (fun c => !c.closes [.rBrace]) fun room => objectField (value isConst room)
  | argument (isConst : Bool) : Loop (fun c => !c.closes [.rParen, .lBrace, .rBrace]) (argument isConst)
  | directive (isConst : Bool) : Loop (fun c => c.isAt .atSign) (directive isConst)
  | selection : Loop (fun c => !c.closes [.rBrace]) fun room => selection room (selectionSet room)
  | recover : Loop (fun c => !c.atEnd && !c.isAtDefinition) fun _ => skipped
  | declaredVariable : Loop (fun c => !c.closes [.rParen, .lBrace]) declaredVariable
  | definition : Loop (fun c => !c.atEnd) definition
  | inputItem (closing : TokenKind) : Loop (fun c => !c.closes [closing]) inputItem
  | separatedName (separator : TokenKind) : Loop (fun c => c.isAt separator) fun _ => separatedName
  | fieldItem : Loop (fun c => !c.closes [.rBrace]) fieldItem
  | enumItem : Loop (fun c => !c.closes [.rBrace]) enumItem
  | rootItem : Loop (fun c => !c.closes [.rBrace]) fun _ => rootItem

namespace Loop

variable {α : Type} {more : Cursor → Bool} {step : Nat → Parse (Option α)} {c : Cursor} {room room' : Nat}

/-- No loop goes on at the end of the text. -/
theorem stops (h : Loop more step) (hnil : c.rest = []) : more c = false := by
  cases h
  case directive => exact isAt_of_nil hnil
  case recover => simp [Cursor.not_atEnd_of_nil hnil]
  case definition => exact Cursor.not_atEnd_of_nil hnil
  case separatedName => exact isAt_of_nil hnil
  all_goals exact closes_of_nil hnil

/-- Each round of a loop reads a token. -/
theorem ends_step (h : Loop more step) (hroom : c.rest.length < room) (hroom' : c.rest.length < room')
    (hgoes : more c = true) : Ends c (step room) (step room') fun _ d => d.rest.length < c.rest.length := by
  have hrest : c.rest ≠ [] := fun hnil => by
    rw [h.stops hnil] at hgoes
    cases hgoes
  cases h
  case listItem isConst => exact ends_listItem (valueEnds isConst hroom hroom') hgoes
  case objectField isConst => exact ends_objectField (valueEnds isConst hroom hroom') hrest
  case argument => exact ends_argument hroom hroom' hrest
  case directive => exact ends_directive hroom hroom' hrest
  case selection => exact ends_selection hroom hroom' hrest (bodyEnds hroom hroom')
  case recover => exact ends_skipped hrest
  case declaredVariable => exact ends_declaredVariable hroom hroom' hrest
  case definition => exact ends_definition hroom hroom' hrest
  case inputItem => exact ends_inputItem hroom hroom' hrest
  case separatedName => exact ends_separatedName hrest
  case fieldItem => exact ends_fieldItem hroom hroom' hrest
  case enumItem => exact ends_enumItem hroom hroom' hrest
  case rootItem => exact ends_rootItem hrest

/-- A loop ends where no more rounds are to come, however many are allowed beyond the tokens. -/
theorem ends (h : Loop more step) (hroom : c.rest.length < room) (hroom' : c.rest.length < room') {rounds rounds' : Nat}
    (hrounds : c.rest.length < rounds) (hrounds' : c.rest.length < rounds') (found : List α) :
    Ends c (collectRounds more (step room) rounds found) (collectRounds more (step room') rounds' found) fun _ d =>
      more d = false :=
  ends_collectRounds (fun _ hle => h.ends_step (by omega) (by omega)) hrounds hrounds' found

end Loop

/-- Without limits every text of a query document is parsed up to its end, and every text of a schema up to its end or
to a fault, with at most one step more than there are tokens. Want of room or rounds would stop a parse, and stops none:
more than there are tokens do not change what is yielded, and from every cursor each loop comes to where it does not go
on, with a token read in each round. -/
theorem ends_without_limits (text : String) :
    let start := Cursor.ofText text none
    let n := start.rest.length
    (∃ document final, (∀ room, n < room → Parse.document room start = .ok (document, final)) ∧
      Document.read text ⟨none, none⟩ = .ok ⟨document, final.reports, 0⟩ ∧ final.rest = [] ∧ final.steps ≤ n + 1) ∧
    (∃ parts final, (∀ room rounds, n < room → n < rounds →
        schemaDefinitions room rounds {} start = .ok (parts, final)) ∧
      (final.rest = [] ∨ ∃ fault, parts = .error fault) ∧ final.steps ≤ n + 1) ∧
    ∀ (c : Cursor) (room : Nat), c.allowance = none → c.rest.length < room →
      (∀ {α : Type} {more : Cursor → Bool} {step : Nat → Parse (Option α)}, Loop more step →
        (more c = true → ∃ item d, step room c = .ok (item, d) ∧ d.rest.length < c.rest.length) ∧
        ∃ items d, (∀ rounds, c.rest.length < rounds →
          collectRounds more (step room) rounds [] c = .ok (items, d)) ∧ more d = false) ∧
      (∀ depth, ∃ d, ∀ rounds, c.rest.length < rounds → skipDefinitionBody rounds depth c = .ok ((), d)) ∧
      (∀ depth, ∃ d, ∀ rounds, c.rest.length < rounds → skipToDefinition rounds depth c = .ok ((), d)) ∧
      ∃ found d, ∀ rounds, c.rest.length < rounds → locations rounds [] c = .ok (found, d) := by
  intro start n
  have hstart : start.allowance = none := rfl
  refine ⟨?_, ?_, fun c room hfree hroom => ⟨fun hloop => ⟨fun hgoes => ?_, ?_⟩, fun depth => ?_, fun depth => ?_, ?_⟩⟩
  · obtain ⟨document, final, hrun, hleads, hnil⟩ := Ends.settles (I := (n < ·)) (Nat.lt_succ_self n)
      (fun _ _ hroom hroom' => ends_document hroom hroom') hstart
    exact ⟨document, final, hrun, Document.read_of_run (hrun _ (Nat.lt_succ_self n)), hnil,
      hleads.steps_le_of_start rfl⟩
  · have hends : ∀ k k' : Nat × Nat, n < k.1 ∧ n < k.2 → n < k'.1 ∧ n < k'.2 →
        Ends start (schemaDefinitions k.1 k.2 {}) (schemaDefinitions k'.1 k'.2 {}) fun parts d =>
          d.rest = [] ∨ ∃ fault, parts = .error fault :=
      fun _ _ hk hk' => ends_schemaDefinitions {} hk.1 hk'.1 hk.2 hk'.2
    obtain ⟨parts, final, hrun, hleads, hend⟩ := Ends.settles (i := (n + 1, n + 1))
      ⟨Nat.lt_succ_self n, Nat.lt_succ_self n⟩ hends hstart
    exact ⟨parts, final, fun room rounds hroom hrounds => hrun (room, rounds) ⟨hroom, hrounds⟩, hend,
      hleads.steps_le_of_start rfl⟩
  · obtain ⟨item, d, hrun, -, -, hlt⟩ := hloop.ends_step hroom hroom hgoes hfree
    exact ⟨item, d, hrun, hlt⟩
  · obtain ⟨items, d, hrun, -, hdone⟩ := Ends.settles (I := (c.rest.length < ·)) (Nat.lt_succ_self _)
      (fun _ _ hrounds hrounds' => hloop.ends hroom hroom hrounds hrounds' []) hfree
    exact ⟨items, d, hrun, hdone⟩
  · obtain ⟨_, d, hrun, -⟩ := Ends.settles (I := (c.rest.length < ·)) (Nat.lt_succ_self _)
      (fun _ _ hrounds hrounds' => ends_skipDefinitionBody hrounds hrounds' depth) hfree
    exact ⟨d, hrun⟩
  · obtain ⟨_, d, hrun, -⟩ := Ends.settles (I := (c.rest.length < ·)) (Nat.lt_succ_self _)
      (fun _ _ hrounds hrounds' => ends_skipToDefinition hrounds hrounds' depth) hfree
    exact ⟨d, hrun⟩
  · obtain ⟨found, d, hrun, -⟩ := Ends.settles (I := (c.rest.length < ·)) (Nat.lt_succ_self _)
      (fun _ _ hrounds hrounds' => ends_locations hrounds hrounds' []) hfree
    exact ⟨found, d, hrun⟩

/-- Behind a description at the end of a text there is such a step. -/
example : ((document 2).run (.ofText "\"\"" none)).toOption.map (fun parsed => (parsed.2.rest.length, parsed.2.steps)) =
    some (0, 2) := by decide +kernel

end QueryBatch.Parse
