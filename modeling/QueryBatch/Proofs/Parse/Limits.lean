import QueryBatch.Proofs.Parse.Costs
import QueryBatch.Proofs.Parse.Loops

/-!
# What limits a parse keeps

* `costs_value`, `costs_selectionSet`, `costs_definition`, …: a node that is read without a report needs as much room as
  its nesting.
* `Document.exists_costs_of_read`: a parse without limits never stops, and any other one stops just if it lacks room or
  steps for that.
* `Document.read_within_limits`: a parse within limits yields what one without limits does. A text without faults is
  read just if the limits allow for its tokens and its nesting.
-/

namespace QueryBatch.Parse

section Nodes

variable {c : Cursor} {room room' : Nat}

/-! ## Types and values -/

theorem costs_typeRef (hroom : c.rest.length < room') : Costs room c (typeRef room) (typeRef room') fun n o _ =>
    ∃ t, o = some t ∧ n = t.1.nesting := by
  induction room' generalizing c room with
  | zero => exact absurd hroom (Nat.not_lt_zero _)
  | succ room' ih =>
    refine Costs.nested rfl (fun room => ?_) room
    rw [typeRef, typeRef]
    refine .get_bind rfl (.get_bind rfl ?_)
    extract_lets rest
    have hrest : ∀ inner d, Costs room d (rest inner) (rest inner) fun n o _ =>
        n = 0 ∧ ∀ type : TypeRef, inner = some type → ∃ t, o = some t ∧ t.1.nesting = type.nesting := by
      intro inner d
      cases inner with
      | none => exact .pure ⟨rfl, fun type htype => absurd htype (Option.some_ne_none type).symm⟩
      | some type =>
        refine (costs_eat .bang).bind fun n mark d _ _ => (costs_spanFrom _).bind fun m span d _ _ => .pure ?_
        rintro rfl ⟨rfl, -⟩
        refine ⟨rfl, fun type' ht => ⟨_, rfl, ?_⟩⟩
        cases ht
        dsimp only
        split
        · exact TypeRef.nesting_required type
        · rfl
    generalize hkind : c.kind? = kind
    have hother : Costs room c (do report .expectedType ("found " ++ (← get).found); rest none)
        (do report .expectedType ("found " ++ (← get).found); rest none) fun n o _ =>
          ∃ t, o = some t ∧ n + 1 = t.1.nesting :=
      .get_bind rfl ((costs_report _ _).fault fun _ d _ => (hrest none d).fares)
    cases kind with
    | none => exact hother
    | some kind =>
      cases kind
      case lBracket =>
        refine .bump_bind (Cursor.rest_ne_nil_of_kind? hkind) fun opened d hlt =>
          (ih (by omega)).bind fun n item d _ _ => (costs_close _ _ _).bind fun m _ d _ _ =>
          (hrest _ d).imp fun k o e _ ho hm hitem => ?_
        obtain ⟨t, rfl, rfl⟩ := hitem
        obtain ⟨rfl, ho⟩ := ho
        obtain ⟨t', rfl, ht'⟩ := ho _ rfl
        refine ⟨t', rfl, ?_⟩
        rw [ht', TypeRef.nesting]
        omega
      case name =>
        refine costs_expectName.bind fun n name d _ _ => (hrest _ d).imp fun m o e _ ho hname => ?_
        obtain ⟨rfl, hsome, -⟩ := hname
        obtain ⟨name, rfl⟩ := Option.ne_none_iff_exists'.1 hsome
        obtain ⟨rfl, ho⟩ := ho
        obtain ⟨t, rfl, ht⟩ := ho _ rfl
        exact ⟨t, rfl, ht.symm⟩
      all_goals exact hother

theorem costs_variableName : Costs room c variableName variableName fun n o d =>
    n = 0 ∧ o ≠ none ∧ d.rest.length < c.rest.length := by
  refine (costs_expect .dollar).bind fun n dollar d _ _ => ?_
  cases dollar with
  | none => exact .pure fun h => absurd rfl h.2.1
  | some dollar =>
    refine costs_expectName.bind fun m name e hle _ => ?_
    cases name with
    | none => exact .pure fun h => absurd rfl h.2.1
    | some name =>
      refine .pure ?_
      rintro ⟨rfl, -, -⟩ ⟨rfl, -, hlt⟩
      exact ⟨rfl, Option.some_ne_none _, by omega⟩

theorem nesting_wordValue (t : Token) : (wordValue t).nesting = 1 := by
  unfold wordValue
  split
  · rfl
  · split
    · rfl
    · split <;> rfl

theorem costs_stringValue (t : Token) : Costs room c (stringValue t) (stringValue t) fun n v _ =>
    n = 0 ∧ v.nesting = 1 := by
  unfold stringValue
  split
  · exact .pure ⟨rfl, rfl⟩
  · exact (costs_reportAt _ _ _).fault fun _ _ _ => .pure

/-- A value in what is left behind a cursor costs its nesting, and a token at least. -/
def ValueCosts (room : Nat) (given given' : Parse (Option Value)) (c : Cursor) : Prop :=
  ∀ e : Cursor, e.rest.length ≤ c.rest.length → Costs room e given given' (Weighs Value.nesting e)

variable {given given' : Parse (Option Value)}

theorem costs_listItem (hvalue : ValueCosts room given given' c) :
    Costs room c (listItem given) (listItem given') (Weighs Value.nesting c) := by
  refine (hvalue c (Nat.le_refl _)).bind fun n item d _ hitem => ?_
  cases item with
  | some item =>
    refine .pure fun hweighs => ?_
    rwa [Nat.max_zero]
  | none =>
    have hsoiled : ¬ d.Clean := fun hclean => not_weighs_none (hitem hclean)
    refine Fares.soiled (.get_bind rfl ?_) hsoiled
    split
    · exact fares_skip.bind fun _ _ _ => .pure
    · exact .pure

theorem costs_objectField (hvalue : ValueCosts room given given' c) :
    Costs room c (objectField given) (objectField given') (Weighs (fun f : Name × Value => f.2.nesting) c) := by
  refine costs_expectName.bind fun n name d hle hname => ?_
  cases name with
  | none =>
    have hsoiled : ¬ d.Clean := fun hclean => (hname hclean).2.1 rfl
    exact Fares.soiled (fares_skip.bind fun _ _ _ => .pure) hsoiled
  | some name =>
    refine (costs_expect _).bind fun m colon e hle' _ => ?_
    cases colon with
    | none => exact .pure fun h => absurd rfl h.2.1
    | some colon =>
      refine (hvalue e (by omega)).bind fun k field e₁ hle₁ _ => ?_
      cases field with
      | none => exact .pure fun h => absurd h not_weighs_none
      | some field =>
        refine .pure ?_
        rintro ⟨⟨field', hfield, rfl⟩, hlt⟩ ⟨rfl, -, -⟩ ⟨rfl, -, -⟩
        cases hfield
        exact ⟨⟨_, rfl, by dsimp only; omega⟩, by omega⟩

/-- A value that is read without a report needs as much room as its nesting, and reads a token. -/
theorem costs_value (isConst : Bool) (hroom : c.rest.length < room') :
    Costs room c (value isConst room) (value isConst room') (Weighs Value.nesting c) := by
  induction room' generalizing c room with
  | zero => exact absurd hroom (Nat.not_lt_zero _)
  | succ room' ih =>
    refine Costs.nested rfl (fun room => ?_) room
    have hvalue : ∀ d : Cursor, d.rest.length < c.rest.length →
        ValueCosts room (value isConst room) (value isConst room') d := fun d hlt e hle => ih (by omega)
    rw [value, value]
    refine .get_bind rfl (.get_bind rfl ?_)
    dsimp only
    have hother : Costs room c (do report .expectedValue ("found " ++ (← get).found); return (none : Option Value))
        (do report .expectedValue ("found " ++ (← get).found); return none) fun n => Weighs Value.nesting c (n + 1) :=
      .get_bind rfl ((costs_report _ _).fault fun _ _ _ => .pure)
    generalize hkind : c.kind? = kind
    cases kind with
    | none => exact hother
    | some kind =>
      have hrest : c.rest ≠ [] := Cursor.rest_ne_nil_of_kind? hkind
      -- a token alone is a node that holds no other
      have hleaf : ∀ (leaf : Token → Value), (∀ t, (leaf t).nesting = 1) →
          Costs room c (do let t ← bump; return some (leaf t)) (do let t ← bump; return some (leaf t))
            fun n => Weighs Value.nesting c (n + 1) := by
        intro leaf hweight
        refine (costs_bump hrest).bind fun n t d _ _ => .pure ?_
        rintro ⟨rfl, hlt⟩
        exact ⟨⟨_, rfl, (hweight t).symm⟩, hlt⟩
      cases kind
      case dollar =>
        refine costs_variableName.bind fun n name d _ _ => ?_
        cases name with
        | none => exact .pure fun h => absurd rfl h.2.1
        | some name =>
          dsimp only
          split
          · exact (costs_reportAt _ _ _).fault fun _ _ _ => .pure
          · refine .pure ?_
            rintro ⟨rfl, -, hlt⟩
            exact ⟨⟨_, rfl, rfl⟩, hlt⟩
      case int => exact hleaf (fun t => .int t.text t.span) fun _ => rfl
      case float => exact hleaf (fun t => .float t.text t.span) fun _ => rfl
      case string =>
        refine (costs_bump hrest).bind fun n t d _ _ => (costs_stringValue t).bind fun m v e hle _ => .pure ?_
        rintro ⟨rfl, hv⟩ ⟨rfl, hlt⟩
        exact ⟨⟨v, rfl, hv.symm⟩, by omega⟩
      case blockString =>
        refine .get_bind rfl ?_
        split
        · exact (costs_reportHere _).fault fun _ _ _ => fares_bump.bind fun _ _ _ => .pure
        · exact hleaf (fun t => .string (Text.BlockString.value t.text) t.span) fun _ => rfl
      case unterminatedString =>
        exact (costs_reportHere _).fault fun _ _ _ => fares_skip.bind fun _ _ _ => .pure
      case name => exact hleaf wordValue nesting_wordValue
      case lBracket =>
        refine .bump_bind hrest fun opened d hlt => costs_listed Value.nesting (fun _ => rfl)
          (fun e hle hgoes => ends_listItem (valueEnds isConst (by omega) (by omega)) hgoes)
          (fun e hle _ => costs_listItem (hvalue e (by omega)))
          fun items e hle => (costs_spanFrom _).bind fun n span e₁ hle₁ _ => .pure ?_
        rintro rfl
        refine ⟨⟨_, rfl, ?_⟩, by omega⟩
        rw [Value.nesting_list]
        omega
      case lBrace =>
        refine .bump_bind hrest fun opened d hlt => costs_listed (fun f : Name × Value => f.2.nesting) (fun _ => rfl)
          (fun e hle hgoes => ends_objectField (valueEnds isConst (by omega) (by omega)) (rest_ne_nil_of_goes hgoes))
          (fun e hle _ => costs_objectField (hvalue e (by omega)))
          fun fields e hle => (costs_spanFrom _).bind fun n span e₁ hle₁ _ => .pure ?_
        rintro rfl
        refine ⟨⟨_, rfl, ?_⟩, by omega⟩
        rw [Value.nesting_object]
        omega
      all_goals exact hother

/-! ## Arguments and directives -/

theorem costs_argument (isConst : Bool) (hroom : c.rest.length < room') :
    Costs room c (argument isConst room) (argument isConst room')
      (Weighs (fun a : Argument => a.value.nesting) c) := by
  refine .get_bind rfl ?_
  split
  · exact .get_bind rfl ((costs_reportAndSkip _ _).fault fun _ _ _ => .pure)
  · refine costs_expectName.bind fun n name d hle _ => ?_
    cases name with
    | none => exact .pure fun h => absurd rfl h.2.1
    | some name =>
      refine (costs_expect _).bind fun m colon e hle' _ => ?_
      cases colon with
      | none => exact .pure fun h => absurd rfl h.2.1
      | some colon =>
        refine (costs_value isConst (by omega)).bind fun k given e₁ hle₁ _ => ?_
        cases given with
        | none => exact .pure fun h => absurd h not_weighs_none
        | some given =>
          refine .pure ?_
          rintro ⟨⟨given', hgiven, rfl⟩, hlt⟩ ⟨rfl, -, -⟩ ⟨rfl, -, -⟩
          cases hgiven
          exact ⟨⟨_, rfl, by dsimp only; omega⟩, by omega⟩

theorem costs_arguments (isConst : Bool) (hrest : c.rest ≠ []) (hroom : c.rest.length < room') :
    Costs room c (arguments isConst room) (arguments isConst room') fun n items _ => n = nestingOfArguments items := by
  refine .bump_bind hrest fun opened d hlt => costs_listed (fun a : Argument => a.value.nesting) (fun _ => rfl)
    (fun e hle hgoes => ends_argument (by omega) (by omega) (rest_ne_nil_of_goes hgoes))
    (fun e hle _ => costs_argument isConst (by omega)) fun items e hle => .pure ?_
  rw [Nat.max_zero, nestingOfArguments]

theorem costs_optionalArguments (isConst : Bool) (hroom : c.rest.length < room') :
    Costs room c (optionalArguments isConst room) (optionalArguments isConst room') fun n items _ =>
      n = nestingOfArguments items := by
  refine .get_bind rfl ?_
  split
  · rename_i h
    exact costs_arguments isConst (Cursor.rest_ne_nil_of_isAt h) hroom
  · exact .pure rfl

theorem costs_directive (isConst : Bool) (hrest : c.rest ≠ []) (hroom : c.rest.length < room') :
    Costs room c (directive isConst room) (directive isConst room')
      (Weighs (fun d : Directive => nestingOfArguments d.arguments) c) := by
  refine .bump_bind hrest fun sign d hlt => costs_expectName.bind fun n name e hle _ => ?_
  cases name with
  | none => exact .pure fun h => absurd rfl h.2.1
  | some name =>
    refine (costs_optionalArguments isConst (by omega)).bind fun m given e₁ hle₁ _ =>
      (costs_spanFrom _).bind fun k span e₂ hle₂ _ => .pure ?_
    rintro rfl rfl ⟨rfl, -, -⟩
    exact ⟨⟨_, rfl, by dsimp only; omega⟩, by omega⟩

theorem costs_directives (isConst : Bool) (hroom : c.rest.length < room') :
    Costs room c (directives isConst room) (directives isConst room') fun n marks _ =>
      n = nestingOfDirectives marks :=
  (costs_collect (fun d : Directive => nestingOfArguments d.arguments) (fun _ => rfl)
    (fun e hle hat => ends_directive (by omega) (by omega) (Cursor.rest_ne_nil_of_isAt hat))
    fun e hle hat => costs_directive isConst (Cursor.rest_ne_nil_of_isAt hat) (by omega)).imp fun n marks d _ h => h.1

/-! ## Selections -/

theorem costs_fieldName : Costs room c fieldName fieldName fun n o d =>
    n = 0 ∧ o ≠ none ∧ d.rest.length < c.rest.length := by
  refine costs_expectName.bind fun n first d hle _ => ?_
  cases first with
  | none => exact .pure fun h => absurd rfl h.2.1
  | some first =>
    refine (costs_eat .colon).bind fun m mark e hle' _ => ?_
    cases mark with
    | none =>
      refine .pure ?_
      rintro ⟨rfl, -⟩ ⟨rfl, -, hlt⟩
      exact ⟨rfl, Option.some_ne_none _, by omega⟩
    | some mark =>
      refine costs_expectName.bind fun k second e₁ hle₁ _ => ?_
      cases second with
      | none => exact .pure fun h => absurd rfl h.2.1
      | some second =>
        refine .pure ?_
        rintro ⟨rfl, -, -⟩ ⟨rfl, -⟩ ⟨rfl, -, hlt⟩
        exact ⟨rfl, Option.some_ne_none _, by omega⟩

/-- A selection set in what is left behind a cursor costs its nesting, and a token at least. -/
def BodyCosts (room : Nat) (c : Cursor) (body body' : Parse SelectionSet) : Prop :=
  ∀ e : Cursor, e.isAt .lBrace = true → e.rest.length ≤ c.rest.length →
    Costs room e body body' fun n set d => n = set.nesting ∧ d.rest.length < e.rest.length

variable {body body' : Parse SelectionSet}

theorem BodyCosts.of_le {d : Cursor} (h : BodyCosts room c body body') (hle : d.rest.length ≤ c.rest.length) :
    BodyCosts room d body body' := fun e he hrest => h e he (Nat.le_trans hrest hle)

theorem costs_field (hroom : c.rest.length < room') (hbody : BodyCosts room c body body') :
    Costs room c (field room body) (field room' body') (Weighs Selection.nesting c) := by
  refine .get_bind rfl (costs_fieldName.bind fun n o d hle _ => ?_)
  cases o with
  | none => exact .pure fun h => absurd rfl h.2.1
  | some o =>
    obtain ⟨label, name⟩ := o
    refine (costs_optionalArguments false (by omega)).bind fun m given e hle' _ =>
      (costs_directives false (by omega)).bind fun k marks e₁ hle₁ _ => .get_bind rfl ?_
    split
    · rename_i hat
      refine (hbody e₁ hat (by omega)).bind fun l set e₂ hle₂ _ => (costs_spanFrom _).bind fun i span e₃ hle₃ _ =>
        .pure ?_
      rintro rfl ⟨rfl, -⟩ rfl rfl ⟨rfl, -, hlt⟩
      refine ⟨⟨_, rfl, ?_⟩, by omega⟩
      rw [Selection.nesting_group, Field.nesting]
      dsimp only
      omega
    · refine (costs_spanFrom _).bind fun i span e₃ hle₃ _ => .pure ?_
      rintro rfl rfl rfl ⟨rfl, -, hlt⟩
      refine ⟨⟨_, rfl, ?_⟩, by omega⟩
      rw [Selection.nesting, Field.nesting]
      dsimp only
      omega

theorem costs_spread (start : Nat) (hroom : c.rest.length < room') :
    Costs room c (spread room start) (spread room' start) (Weighs Selection.nesting c) := by
  refine costs_expectName.bind fun n name d hle _ => ?_
  cases name with
  | none => exact .pure fun h => absurd rfl h.2.1
  | some name =>
    refine (costs_directives false (by omega)).bind fun m marks e hle' _ => (costs_spanFrom _).bind
      fun k span e₁ hle₁ _ => .pure ?_
    rintro rfl rfl ⟨rfl, -, hlt⟩
    refine ⟨⟨_, rfl, ?_⟩, by omega⟩
    rw [Selection.nesting]
    dsimp only
    omega

theorem costs_optionalCondition : Costs room c optionalCondition optionalCondition fun n o _ => n = 0 ∧ o ≠ none := by
  refine (costs_eatWord _).bind fun n mark d _ _ => ?_
  cases mark with
  | none => exact .pure fun hn => ⟨by omega, Option.some_ne_none _⟩
  | some mark =>
    refine costs_expectName.bind fun m type e _ _ => ?_
    cases type with
    | none => exact .pure fun h => absurd rfl h.2.1
    | some type => exact .pure fun hm hn => ⟨by omega, Option.some_ne_none _⟩

theorem costs_inlineFragment {start : Nat} (hroom : c.rest.length < room') (hbody : BodyCosts room c body body') :
    Costs room c (inlineFragment room start body) (inlineFragment room' start body') fun n o _ =>
      ∃ s : Selection, o = some s ∧ n = s.nesting := by
  refine costs_optionalCondition.bind fun n condition d hle _ => ?_
  cases condition with
  | none => exact .pure fun h => absurd rfl h.2
  | some condition =>
    refine (costs_directives false (by omega)).bind fun m marks e hle' _ => .get_bind rfl ?_
    split
    · rename_i hat
      refine (hbody e hat (by omega)).bind fun k set e₁ _ _ => .pure ?_
      rintro ⟨rfl, -⟩ rfl ⟨rfl, -⟩
      refine ⟨_, rfl, ?_⟩
      rw [Selection.nesting_inline]
      dsimp only
      omega
    · exact .get_bind rfl ((costs_report _ _).fault fun _ _ _ => .pure)

theorem costs_spreadOrInline (hrest : c.rest ≠ []) (hroom : c.rest.length < room')
    (hbody : BodyCosts room c body body') :
    Costs room c (spreadOrInline room body) (spreadOrInline room' body') (Weighs Selection.nesting c) := by
  refine .bump_bind hrest fun dots d hlt => .get_bind rfl (.get_bind rfl ?_)
  split
  · exact (costs_spread _ (by omega)).imp fun n o e hle h => ⟨h.1, by omega⟩
  · exact (costs_inlineFragment (by omega) (hbody.of_le (by omega))).imp fun n o e hle h => ⟨h, by omega⟩

theorem costs_selection (hroom : c.rest.length < room') (hbody : BodyCosts room c body body') :
    Costs room c (selection room body) (selection room' body') (Weighs Selection.nesting c) := by
  refine .get_bind rfl ?_
  have hother : Costs room c
      (do reportAndSkip .unexpectedToken ("expected a field or fragment spread, found " ++ (← get).found)
          return (none : Option Selection))
      (do reportAndSkip .unexpectedToken ("expected a field or fragment spread, found " ++ (← get).found)
          return none) (Weighs Selection.nesting c) :=
    .get_bind rfl ((costs_reportAndSkip _ _).fault fun _ _ _ => .pure)
  generalize hkind : c.kind? = kind
  cases kind with
  | none => exact hother
  | some kind =>
    cases kind
    case name => exact costs_field hroom hbody
    case spread => exact costs_spreadOrInline (Cursor.rest_ne_nil_of_kind? hkind) hroom hbody
    all_goals exact hother

/-- A selection set that is read without a report needs as much room as its nesting. -/
theorem costs_selectionSet (hat : c.isAt .lBrace = true) (hroom : c.rest.length < room') :
    Costs room c (selectionSet room) (selectionSet room') fun n set d =>
      n = set.nesting ∧ d.rest.length < c.rest.length := by
  induction room' generalizing c room with
  | zero => exact absurd hroom (Nat.not_lt_zero _)
  | succ room' ih =>
    refine Costs.nested rfl (fun room => ?_) room
    rw [selectionSet, selectionSet]
    refine .bump_bind (Cursor.rest_ne_nil_of_isAt hat) fun opened d hlt =>
      costs_listed Selection.nesting (fun _ => rfl)
        (fun e hle hgoes => ends_selection (by omega) (by omega) (rest_ne_nil_of_goes hgoes)
          (bodyEnds (by omega) (by omega)))
        (fun e hle _ => costs_selection (by omega) fun e' hat' hle' => ih hat' (by omega))
        fun selections e hle => (costs_spanFrom _).bind fun n span e₁ _ _ => ?_
    dsimp only
    split
    · exact (costs_reportAt _ _ _).fault fun _ _ _ => .pure
    · refine .pure ?_
      rintro rfl
      refine ⟨?_, by omega⟩
      show _ = greatest Selection.nesting selections + 1
      omega

/-! ## Recovery -/

theorem fares_recover : Fares room c recover recover := fares_skipWhile (fun _ => rfl) recover_stops

theorem fares_skipDefinitionBody {rounds : Nat} (hrounds : c.rest.length < rounds) (depth : Nat) :
    Fares room c (skipDefinitionBody rounds depth) (skipDefinitionBody rounds depth) := by
  induction rounds generalizing c depth with
  | zero => exact absurd hrounds (Nat.not_lt_zero _)
  | succ rounds ih =>
    refine .get_bind rfl ?_
    split
    · exact .pure
    · rename_i hgoes
      have hrest : c.rest ≠ [] := fun hnil => hgoes (by rw [Cursor.atEnd_iff.2 hnil, Bool.true_or])
      refine fares_skip.bind_of_reads ((ends_skip (c := c.free) hrest).imp fun _ _ _ h => h.2) fun _ d hlt => ?_
      have hlater : ∀ depth, Fares room d (skipDefinitionBody rounds depth) (skipDefinitionBody rounds depth) :=
        ih (by omega)
      split
      · exact hlater _
      · split
        · split
          · exact .pure
          · exact hlater _
        · exact hlater _

theorem costs_skipTypeSystemDefinition :
    Costs room c skipTypeSystemDefinition skipTypeSystemDefinition fun _ _ _ => False := by
  refine .get_bind rfl (.get_bind rfl ?_)
  extract_lets rest
  have hrest : ∀ d, Costs room d (rest ()) (rest ()) fun _ _ _ => False := fun d =>
    .get_bind rfl (.get_bind rfl (fares_skip.doomed fun _ _ _ => .get_bind rfl
      ((fares_skipDefinitionBody (Nat.lt_succ_self _) _).doomed fun _ _ _ => .get_bind rfl (costs_reportAt _ _ _))))
  split
  · exact fares_skip.doomed fun _ d _ => hrest d
  · exact hrest c

theorem costs_skipStray : Costs room c skipStray skipStray fun _ _ _ => False := by
  refine .get_bind rfl ?_
  have hother : Costs room c
      (do reportAndSkip .expectedDefinition ("found " ++ (← get).found); recover)
      (do reportAndSkip .expectedDefinition ("found " ++ (← get).found); recover) fun _ _ _ => False :=
    .get_bind rfl ((costs_reportAndSkip _ _).fault fun _ _ _ => fares_recover)
  generalize c.kind? = kind
  cases kind with
  | none => exact hother
  | some kind =>
    cases kind
    case garbage => exact (costs_reportAndSkip _ _).fault fun _ _ _ => fares_recover
    case unterminatedString =>
      exact (costs_reportHere _).fault fun _ _ _ => fares_skip.bind fun _ _ _ => fares_recover
    all_goals exact hother

theorem costs_missingSelectionSet :
    Costs room c missingSelectionSet missingSelectionSet fun _ _ _ => False :=
  .get_bind rfl ((costs_report _ _).fault fun _ _ _ => fares_recover)

/-! ## Definitions -/

theorem costs_optionalDefault (hroom : c.rest.length < room') :
    Costs room c (optionalDefault room) (optionalDefault room') fun n o _ =>
      ∃ initial, o = some initial ∧ n = greatest Value.nesting initial.toList := by
  refine (costs_eat _).bind fun n equals d hle _ => ?_
  cases equals with
  | none =>
    refine .pure ?_
    rintro ⟨rfl, -⟩
    exact ⟨none, rfl, rfl⟩
  | some equals =>
    refine (costs_value true (by omega)).bind fun m given e _ _ => ?_
    cases given with
    | none => exact .pure fun h => absurd h not_weighs_none
    | some given =>
      refine .pure ?_
      rintro ⟨⟨given', hgiven, rfl⟩, -⟩ ⟨rfl, -⟩
      cases hgiven
      exact ⟨_, rfl, by simp [greatest]⟩

theorem costs_variableDefinition (hroom : c.rest.length < room') :
    Costs room c (variableDefinition room) (variableDefinition room') (Weighs VariableDefinition.nesting c) := by
  refine costs_variableName.bind fun n name d hle _ => ?_
  cases name with
  | none => exact .pure fun h => absurd rfl h.2.1
  | some name =>
    refine (costs_expect _).bind fun m colon e hle' _ => ?_
    cases colon with
    | none => exact .pure fun h => absurd rfl h.2.1
    | some colon =>
      refine (costs_typeRef (by omega)).bind fun k type e₁ hle₁ _ => ?_
      cases type with
      | none => exact .pure fun h => absurd h not_exists_some_eq
      | some type =>
        obtain ⟨type, typeSpan⟩ := type
        refine (costs_optionalDefault (by omega)).bind fun l initial e₂ hle₂ _ => ?_
        cases initial with
        | none => exact .pure fun h => absurd h not_exists_some_eq
        | some initial =>
          refine (costs_directives true (by omega)).bind fun i marks e₃ hle₃ _ => (costs_spanFrom _).bind
            fun j span e₄ hle₄ _ => .pure ?_
          rintro rfl rfl ⟨initial', hinitial, rfl⟩ ⟨type', htype, rfl⟩ ⟨rfl, -, -⟩ ⟨rfl, -, hlt⟩
          cases hinitial
          cases htype
          refine ⟨⟨_, rfl, ?_⟩, by omega⟩
          rw [VariableDefinition.nesting]
          dsimp only
          omega

theorem costs_declaredVariable (hroom : c.rest.length < room') :
    Costs room c (declaredVariable room) (declaredVariable room') (Weighs VariableDefinition.nesting c) := by
  refine .get_bind rfl ?_
  split
  · exact costs_variableDefinition hroom
  · exact .get_bind rfl ((costs_reportAndSkip _ _).fault fun _ _ _ => .pure)

theorem costs_variableDefinitions (hrest : c.rest ≠ []) (hroom : c.rest.length < room') :
    Costs room c (variableDefinitions room) (variableDefinitions room') fun n items _ =>
      n = greatest VariableDefinition.nesting items := by
  exact .bump_bind hrest fun opened d hlt => costs_listed VariableDefinition.nesting (fun _ => rfl)
    (fun e hle hgoes => ends_declaredVariable (by omega) (by omega) (rest_ne_nil_of_goes hgoes))
    (fun e hle _ => costs_declaredVariable (by omega)) fun items e hle => .pure (Nat.max_zero _)

theorem costs_namedOperation (hrest : c.rest ≠ []) (hroom : c.rest.length < room') :
    Costs room c (namedOperation room) (namedOperation room') (Weighs Operation.nesting c) := by
  refine .get_bind rfl (.bump_bind hrest fun keyword d hlt => .get_bind rfl ?_)
  extract_lets rest rest'
  have hname : ∀ name d, d.rest.length < c.rest.length →
      Costs room d (rest name) (rest' name) fun n o _ => ∃ op : Operation, o = some op ∧ n = op.nesting := by
    intro name d hlt
    refine .get_bind rfl ?_
    extract_lets rest rest'
    have hdeclared : ∀ declared d, d.rest.length < c.rest.length →
        Costs room d (rest declared) (rest' declared) fun n o _ => ∃ op : Operation, o = some op ∧
          max (greatest VariableDefinition.nesting declared) n = op.nesting := by
      intro declared d hlt
      refine (costs_directives false (by omega)).bind fun n marks e hle _ => .get_bind rfl ?_
      split
      · rename_i hat
        refine (costs_selectionSet hat (by omega)).bind fun m body e _ _ => .pure ?_
        rintro ⟨rfl, -⟩ rfl
        refine ⟨_, rfl, ?_⟩
        rw [Operation.nesting]
        dsimp only
        omega
      · exact costs_missingSelectionSet.fault fun _ _ _ => .pure
    split
    · rename_i hat
      refine (costs_variableDefinitions (Cursor.rest_ne_nil_of_isAt hat) (by omega)).bind fun n declared e hle _ =>
        (hdeclared declared e (by omega)).imp fun m o e' _ h hn => ?_
      rw [hn]
      exact h
    · refine (hdeclared [] d hlt).imp fun m o e _ h => ?_
      rw [greatest, Nat.zero_max] at h
      exact h
  split
  · refine costs_expectName.bind fun n name e hle _ => (hname name e (by omega)).imp fun m o e' hle' h hn => ?_
    obtain ⟨rfl, -⟩ := hn
    rw [Nat.zero_max]
    exact ⟨h, by omega⟩
  · exact (hname none d hlt).imp fun m o e hle h => ⟨h, by omega⟩

theorem costs_shorthandOperation (hat : c.isAt .lBrace = true) (hroom : c.rest.length < room') :
    Costs room c (shorthandOperation room) (shorthandOperation room') fun n op d =>
      n = op.nesting ∧ d.rest.length < c.rest.length := by
  refine .get_bind rfl ((costs_selectionSet hat hroom).bind fun n body d _ _ => .pure ?_)
  rintro ⟨rfl, hlt⟩
  exact ⟨by simp [Operation.nesting, nestingOfDirectives, greatest], hlt⟩

theorem costs_fragment (hrest : c.rest ≠ []) (hroom : c.rest.length < room') :
    Costs room c (fragment room) (fragment room') (Weighs Fragment.nesting c) := by
  refine .get_bind rfl ((costs_skip hrest).bind fun n _ d hle _ => .get_bind rfl ?_)
  split
  · exact (costs_report _ _).fault fun _ _ _ => fares_recover.bind fun _ _ _ => .pure
  · refine costs_expectName.bind fun m name e hle' hname => ?_
    cases name with
    | none => exact Fares.soiled (fares_recover.bind fun _ _ _ => .pure) fun hclean => (hname hclean).2.1 rfl
    | some name =>
      refine (costs_expectWord _).bind fun k on e₁ hle₁ hon => ?_
      cases on with
      | none => exact Fares.soiled (fares_recover.bind fun _ _ _ => .pure) fun hclean => (hon hclean).2 rfl
      | some on =>
        refine costs_expectName.bind fun l condition e₂ hle₂ hcondition => ?_
        cases condition with
        | none => exact Fares.soiled (fares_recover.bind fun _ _ _ => .pure) fun hclean => (hcondition hclean).2.1 rfl
        | some condition =>
          refine (costs_directives false (by omega)).bind fun i marks e₃ hle₃ _ => .get_bind rfl ?_
          split
          · rename_i hat
            refine (costs_selectionSet hat (by omega)).bind fun j body e₄ hle₄ _ => .pure ?_
            rintro ⟨rfl, -⟩ rfl ⟨rfl, -, -⟩ ⟨rfl, -⟩ ⟨rfl, -, -⟩ ⟨rfl, hlt⟩
            refine ⟨⟨_, rfl, ?_⟩, by omega⟩
            rw [Fragment.nesting]
            dsimp only
            omega
          · exact costs_missingSelectionSet.fault fun _ _ _ => .pure

theorem costs_definition (hrest : c.rest ≠ []) (hroom : c.rest.length < room') :
    Costs room c (definition room) (definition room') (Weighs Definition.nesting c) := by
  refine .get_bind rfl ?_
  split
  · rename_i hat
    refine (costs_shorthandOperation hat hroom).bind fun n op d _ _ => .pure ?_
    rintro ⟨rfl, hlt⟩
    exact ⟨⟨_, rfl, Nat.max_zero _⟩, hlt⟩
  · split
    · refine (costs_fragment hrest hroom).bind fun n o d hle _ => .pure ?_
      rintro ⟨⟨frag, rfl, rfl⟩, hlt⟩
      exact ⟨⟨_, rfl, Nat.max_zero _⟩, hlt⟩
    · split
      · refine (costs_namedOperation hrest hroom).bind fun n o d hle _ => .pure ?_
        rintro ⟨⟨op, rfl, rfl⟩, hlt⟩
        exact ⟨⟨_, rfl, Nat.max_zero _⟩, hlt⟩
      · split
        · exact costs_skipTypeSystemDefinition.fault fun _ _ _ => .pure
        · exact costs_skipStray.fault fun _ _ _ => .pure

/-- A document that is read without a report needs as much room as its nesting, and has all tokens read. -/
theorem costs_document (hroom : c.rest.length < room') :
    Costs room c (document room) (document room') fun n document d => n = document.nesting ∧ d.rest = [] := by
  refine (costs_collect Definition.nesting (fun _ => rfl)
    (fun e hle hgoes => ends_definition (by omega) (by omega) (rest_ne_nil_of_not_atEnd hgoes))
    fun e hle hgoes => costs_definition (rest_ne_nil_of_not_atEnd hgoes) (by omega)).bind
    fun n definitions d _ _ => .get_bind rfl ?_
  dsimp only
  split
  · exact (costs_reportHere _).fault fun _ _ _ => .pure
  · refine .pure ?_
    rintro ⟨rfl, hdone⟩
    refine ⟨Nat.max_zero _, ?_⟩
    simpa [Cursor.atEnd] using hdone

end Nodes

end QueryBatch.Parse

namespace QueryBatch.Document

open Parse

/-! ## Reading within limits -/

section Read

variable {text : String} {limits : Limits}

theorem read_of_run {document : Document} {final : Cursor}
    (h : Parse.document ((Cursor.ofText text limits.steps).roomFor limits.nesting) (.ofText text limits.steps) =
      .ok (document, final)) :
    read text limits = .ok ⟨document, final.reports, if limits.steps.isSome then final.steps else 0⟩ := by
  simp only [read, StateT.run, h]

theorem read_of_stop {stop : Stop}
    (h : Parse.document ((Cursor.ofText text limits.steps).roomFor limits.nesting) (.ofText text limits.steps) =
      .error stop) : read text limits = .error stop := by
  simp only [read, StateT.run, h]

/-- What a parse of a text yields without limits, and which limits let another parse yield the same. Without diagnostics
it needs a step for each token, and as much room as the nesting of the document. -/
theorem exists_costs_of_read (text : String) (limits : Limits) :
    ∃ (n : Nat) (document : Document) (final : Cursor), read text ⟨none, none⟩ = .ok ⟨document, final.reports, 0⟩ ∧
      ((∃ parsed, read text limits = .ok parsed) ↔
        n ≤ (Cursor.ofText text limits.steps).roomFor limits.nesting ∧ ∀ k ∈ limits.steps, final.steps ≤ k) ∧
      (∀ parsed, read text limits = .ok parsed →
        parsed = ⟨document, final.reports, if limits.steps.isSome then final.steps else 0⟩) ∧
      (final.reports = [] →
        final.steps = ((Token.scan text).filter fun t => !t.kind.isTrivia).length ∧ n = document.nesting) := by
  obtain ⟨n, document, final, houtcome, hclean⟩ :=
    @costs_document (.ofText text limits.steps) ((Cursor.ofText text limits.steps).roomFor limits.nesting)
      ((Cursor.ofText text none).roomFor none) (Nat.lt_succ_self _)
  have hfree : read text ⟨none, none⟩ = .ok ⟨document, final.free.reports, 0⟩ := read_of_run houtcome.free
  have hsuffice : ∀ parsed, read text limits = .ok parsed →
      n ≤ (Cursor.ofText text limits.steps).roomFor limits.nesting ∧ ∀ k ∈ limits.steps, final.steps ≤ k := by
    intro parsed hparsed
    refine Classical.byContradiction fun hlacks => ?_
    obtain ⟨stop, hstop⟩ := houtcome.beyond (fun _ _ => Nat.zero_le _) hlacks
    rw [read_of_stop hstop] at hparsed
    cases hparsed
  refine ⟨n, document, final, hfree, ⟨?_, ?_⟩, ?_, ?_⟩
  · rintro ⟨parsed, hparsed⟩
    exact hsuffice parsed hparsed
  · rintro ⟨hroom, hsteps⟩
    exact ⟨_, read_of_run (houtcome.within hroom hsteps)⟩
  · intro parsed hparsed
    obtain ⟨hroom, hsteps⟩ := hsuffice parsed hparsed
    rw [read_of_run (houtcome.within hroom hsteps)] at hparsed
    exact (Except.ok.inj hparsed).symm
  · intro hreports
    -- the last fault is among the reports, so there was none
    obtain ⟨hvalid, -⟩ := yields_document _ (Cursor.valid_ofText text none) houtcome.free
    have hnone : final.Clean := Classical.byContradiction fun hlast => hvalid.reported hlast hreports
    obtain ⟨hsteps, hn, hrest⟩ := hclean hnone
    rw [hrest] at hsteps
    exact ⟨hsteps.trans (Nat.zero_add _), hn⟩

/-- A parse within limits that stops at none of them yields what one without limits does. If that has no diagnostics,
then the first one stops at no limit just if there are as many steps as tokens, trivia left out, and the limit of
nesting is at least the nesting of the document. It takes a step for each token. -/
theorem read_within_limits (text : String) (limits : Limits) : ∃ free, read text ⟨none, none⟩ = .ok free ∧
    (∀ parsed, read text limits = .ok parsed →
      parsed.document = free.document ∧ parsed.diagnostics = free.diagnostics) ∧
    (free.diagnostics = [] →
      ((∃ parsed, read text limits = .ok parsed) ↔
        (∀ k ∈ limits.steps, ((Token.scan text).filter fun t => !t.kind.isTrivia).length ≤ k) ∧
          ∀ k ∈ limits.nesting, free.document.nesting ≤ k) ∧
      ∀ parsed, read text limits = .ok parsed → limits.steps ≠ none →
        parsed.steps = ((Token.scan text).filter fun t => !t.kind.isTrivia).length) := by
  obtain ⟨n, document, final, hfree, hok, hsame, hclean⟩ := exists_costs_of_read text limits
  refine ⟨_, hfree, fun parsed hparsed => ?_, fun hsilent => ⟨?_, fun parsed hparsed hlimited => ?_⟩⟩
  · obtain rfl := hsame parsed hparsed
    exact ⟨rfl, rfl⟩
  · obtain ⟨hsteps, rfl⟩ := hclean hsilent
    rw [hok, hsteps, and_comm]
    refine and_congr_right fun _ => ?_
    cases hnesting : limits.nesting with
    | some k =>
      unfold Cursor.roomFor
      simp
    | none =>
      -- the room of a parse without limits suffices, for such a parse never stops
      have hroom : document.nesting ≤ (Cursor.ofText text limits.steps).roomFor none := by
        obtain ⟨m, document', final', hfree', hok', -, hclean'⟩ := exists_costs_of_read text ⟨none, none⟩
        obtain ⟨rfl, hreports⟩ : document = document' ∧ final.reports = final'.reports := by
          simpa using hfree.symm.trans hfree'
        obtain ⟨-, rfl⟩ := hclean' (hreports ▸ hsilent)
        exact (hok'.1 ⟨_, hfree'⟩).1
      exact iff_of_true hroom fun k hk => absurd hk (Option.not_mem_none k)
  · obtain rfl := hsame parsed hparsed
    obtain ⟨hsteps, -⟩ := hclean hsilent
    dsimp only
    rw [if_pos (Option.isSome_iff_ne_none.2 hlimited), hsteps]

/-- A list in a list in an argument. -/
def nestedText : String :=
  "\x7b a(x: [[1]]) \x7b b \x7d \x7d"

/-- Fifteen tokens, four deep, are read with just as many steps and just as much nesting. -/
theorem read_within_limits_sample :
    (∃ free, read nestedText ⟨none, none⟩ = .ok free ∧ free.diagnostics = []) ∧
    (∃ parsed, read nestedText ⟨some 15, some 4⟩ = .ok parsed ∧ parsed.steps = 15) ∧
    (¬ ∃ parsed, read nestedText ⟨some 14, some 4⟩ = .ok parsed) ∧
    ¬ ∃ parsed, read nestedText ⟨some 15, some 3⟩ = .ok parsed := by
  have hread : (read nestedText ⟨none, none⟩).toOption.map (fun p => (p.diagnostics.isEmpty, p.document.nesting)) =
      some (true, 4) := by decide +kernel
  have htokens : ((Token.scan nestedText).filter fun t => !t.kind.isTrivia).length = 15 := by decide +kernel
  have hlimits : ∀ limits, ∃ free, read nestedText ⟨none, none⟩ = .ok free ∧ free.diagnostics = [] ∧
      ((∃ parsed, read nestedText limits = .ok parsed) ↔
        (∀ k ∈ limits.steps, 15 ≤ k) ∧ ∀ k ∈ limits.nesting, 4 ≤ k) ∧
      ∀ parsed, read nestedText limits = .ok parsed → limits.steps ≠ none → parsed.steps = 15 := by
    intro limits
    obtain ⟨free, hfree, -, hclean⟩ := read_within_limits nestedText limits
    have hnone : free.diagnostics = [] ∧ free.document.nesting = 4 := by simpa [hfree, Except.toOption] using hread
    rw [htokens, hnone.2] at hclean
    exact ⟨free, hfree, hnone.1, hclean hnone.1⟩
  refine ⟨?_, ?_, fun h => ?_, fun h => ?_⟩
  · obtain ⟨free, hfree, hnone, -⟩ := hlimits ⟨none, none⟩
    exact ⟨free, hfree, hnone⟩
  · obtain ⟨-, -, -, hok, hsteps⟩ := hlimits ⟨some 15, some 4⟩
    obtain ⟨parsed, hparsed⟩ := hok.2 (by simp)
    exact ⟨parsed, hparsed, hsteps parsed hparsed (Option.some_ne_none 15)⟩
  · obtain ⟨-, -, -, hok, -⟩ := hlimits ⟨some 14, some 4⟩
    simpa using (hok.1 h).1
  · obtain ⟨-, -, -, hok, -⟩ := hlimits ⟨some 15, some 3⟩
    simpa using (hok.1 h).2

end Read

end QueryBatch.Document
