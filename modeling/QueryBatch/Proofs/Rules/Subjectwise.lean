import QueryBatch.Proofs.Rules.Recast
import QueryBatch.Proofs.Rules.Variables

/-!
# Rules that look at one definition after the other

Most rules look at each definition for itself, and reject it alone for what they find. What they find does not depend on
where the definition stands.

* `Subject.Accuses`: a finding that rejects one definition.
* `Subjectwise`: rules that look at each definition with the fragments at hand; `Local`: with the schema alone.
* `local_knownFields`, `subjectwise_usedVariables` and the like: which of the rules are so.
-/

namespace QueryBatch.Rules

/-! ## Looking at definitions -/

/-- A finding is a diagnostic that rejects the definition alone. -/
def Subject.Accuses (s : Subject) (f : Finding) : Prop := ∃ d, f = s.rejectedFor d

/-- A rule looks at each definition with the fragments at hand. It rejects the definition for what it finds, and whether
it finds something does not depend on where the definitions stand. -/
def Subjectwise (rule : Rule) : Prop :=
  ∃ look : Context → Subject → List Finding, (∀ cx, rule cx = cx.subjects.flatMap (look cx)) ∧
    (∀ cx s, ∀ f ∈ look cx s, s.Accuses f) ∧
    ∀ cx s r, look (cx.recast r) (s.recast r) = [] ↔ look cx s = []

/-- A rule looks at each definition with nothing but the schema at hand. -/
def Local (rule : Rule) : Prop :=
  ∃ look : Schema → Subject → List Finding, (∀ cx, rule cx = cx.subjects.flatMap (look cx.schema)) ∧
    (∀ schema s, ∀ f ∈ look schema s, s.Accuses f) ∧
    ∀ schema s r, look schema (s.recast r) = [] ↔ look schema s = []

theorem Local.subjectwise {rule : Rule} (h : Local rule) : Subjectwise rule := by
  obtain ⟨look, heq, haccuses, hrecast⟩ := h
  exact ⟨fun cx => look cx.schema, heq, fun cx => haccuses cx.schema, fun cx => hrecast cx.schema⟩

/-- Every finding of such a rule accuses a definition of the context. -/
theorem Subjectwise.accuses {rule : Rule} (h : Subjectwise rule) {cx : Context} {f : Finding} (hf : f ∈ rule cx) :
    ∃ s ∈ cx.subjects, s.Accuses f := by
  obtain ⟨look, heq, haccuses, -⟩ := h
  rw [heq] at hf
  obtain ⟨s, hs, hf⟩ := List.mem_flatMap.1 hf
  exact ⟨s, hs, haccuses cx s f hf⟩

/-- Such a rule finds nothing if it finds nothing where the definitions stand elsewhere. -/
theorem Subjectwise.nil_of_recast {rule : Rule} (h : Subjectwise rule) {cx cx' : Context} {r r' : Recast}
    (hcx : cx.recast r = cx'.recast r') (hsubjects : ∀ s' ∈ cx'.subjects, ∃ s ∈ cx.subjects, s.recast r = s'.recast r')
    (hnil : rule cx = []) : rule cx' = [] := by
  obtain ⟨look, heq, -, hrecast⟩ := h
  rw [heq, List.flatMap_eq_nil_iff] at hnil ⊢
  intro s' hs'
  obtain ⟨s, hs, hsame⟩ := hsubjects s' hs'
  rw [← hrecast cx' s' r', ← hcx, ← hsame, hrecast]
  exact hnil s hs

/-- Such a rule finds nothing in definitions each of which it lets pass somewhere. -/
theorem Local.nil_of_recast {rule : Rule} (h : Local rule) {cx' : Context}
    (hsubjects : ∀ s' ∈ cx'.subjects, ∃ cx s r r', s ∈ cx.subjects ∧ rule cx = [] ∧ cx.schema = cx'.schema ∧
      s.recast r = s'.recast r') : rule cx' = [] := by
  obtain ⟨look, heq, -, hrecast⟩ := h
  rw [heq, List.flatMap_eq_nil_iff]
  intro s' hs'
  obtain ⟨cx, s, r, r', hs, hnil, hschema, hsame⟩ := hsubjects s' hs'
  rw [heq, List.flatMap_eq_nil_iff] at hnil
  rw [← hrecast cx'.schema s' r', ← hsame, hrecast, ← hschema]
  exact hnil s hs

section Accuses

variable {α : Type} {s : Subject} {f : Finding}

theorem accuses_of_mem_map {d : α → Diagnostic} {as : List α} (h : f ∈ as.map fun a => s.rejectedFor (d a)) :
    s.Accuses f := by
  obtain ⟨a, -, rfl⟩ := List.mem_map.1 h
  exact ⟨d a, rfl⟩

theorem accuses_of_mem_singleton {d : Diagnostic} (h : f ∈ [s.rejectedFor d]) : s.Accuses f :=
  ⟨d, List.mem_singleton.1 h⟩

theorem accuses_of_mem_nil (h : f ∈ ([] : List Finding)) : s.Accuses f := absurd h List.not_mem_nil

end Accuses

theorem map_eq_nil_congr {α β γ δ : Type} {g : α → β} {g' : γ → δ} {as : List α} {cs : List γ} (h : as = [] ↔ cs = []) :
    as.map g = [] ↔ cs.map g' = [] := by
  rw [List.map_eq_nil_iff, List.map_eq_nil_iff, h]

/-- Whether something is repeated depends on the keys alone. -/
theorem repeats_map_eq_nil_iff {α β : Type} {key : α → String} {key' : β → String} {g : α → β}
    (hkey : ∀ a, key' (g a) = key a) (as : List α) : repeats key' (as.map g) = [] ↔ repeats key as = [] := by
  rw [repeats_eq_nil_iff, repeats_eq_nil_iff, List.map_map, show key' ∘ g = key from funext hkey]

/-! ## Rules on visits -/

section Visits

variable {look : Context → Subject → Visit → List Finding}

/-- A rule on visits looks at each definition if it does not mind where the visited things stand. -/
theorem subjectwise_eachVisit (haccuses : ∀ cx s v, ∀ f ∈ look cx s v, s.Accuses f)
    (hrecast : ∀ cx r s v, look (cx.recast r) (s.recast r) (v.respanned (r.span s.owner)) = [] ↔ look cx s v = []) :
    Subjectwise (eachVisit look) := by
  refine ⟨fun cx s => (s.visits cx.schema).flatMap (look cx s), fun cx => ?_, fun cx s f hf => ?_, fun cx s r => ?_⟩
  · unfold eachVisit Context.visits
    rw [List.flatMap_assoc]
    refine List.flatMap_congr fun s _ => ?_
    rw [List.flatMap_map]
  · obtain ⟨v, -, hv⟩ := List.mem_flatMap.1 hf
    exact haccuses cx s v f hv
  · dsimp only
    rw [Context.schema_recast, Subject.visits_recast, List.flatMap_map, List.flatMap_eq_nil_iff,
      List.flatMap_eq_nil_iff]
    exact forall₂_congr fun v _ => hrecast cx r s v

/-- It needs nothing but the schema if it looks at nothing else of the context. -/
theorem local_eachVisit (hschema : ∀ cx s v, look cx s v = look ⟨cx.schema, []⟩ s v)
    (haccuses : ∀ cx s v, ∀ f ∈ look cx s v, s.Accuses f)
    (hrecast : ∀ cx r s v, look cx (s.recast r) (v.respanned (r.span s.owner)) = [] ↔ look cx s v = []) :
    Local (eachVisit look) := by
  refine ⟨fun schema s => (s.visits schema).flatMap (look ⟨schema, []⟩ s), fun cx => ?_, fun schema s f hf => ?_,
    fun schema s r => ?_⟩
  · unfold eachVisit Context.visits
    rw [List.flatMap_assoc]
    refine List.flatMap_congr fun s _ => ?_
    rw [List.flatMap_map]
    exact List.flatMap_congr fun v _ => hschema cx s v
  · obtain ⟨v, -, hv⟩ := List.mem_flatMap.1 hf
    exact haccuses _ s v f hv
  · dsimp only
    rw [Subject.visits_recast, List.flatMap_map, List.flatMap_eq_nil_iff, List.flatMap_eq_nil_iff]
    exact forall₂_congr fun v _ => hrecast _ r s v

end Visits

/-! ### Fields -/

theorem local_knownFields : Local knownFields := by
  apply local_eachVisit
  · exact fun _ _ _ => rfl
  · intro cx s v f hf
    dsimp only at hf
    split at hf
    · exact accuses_of_mem_singleton hf
    · exact accuses_of_mem_nil hf
  · intro cx r s v
    cases v with
    | field parent f body declared => cases parent <;> cases declared <;> simp [Visit.respanned]
    | _ => exact Iff.rfl

theorem local_scalarLeafs : Local scalarLeafs := by
  apply local_eachVisit
  · exact fun _ _ _ => rfl
  · intro cx s v f hf
    split at hf
    · split at hf
      · split at hf
        · exact accuses_of_mem_singleton hf
        · exact accuses_of_mem_nil hf
      · split at hf
        · exact accuses_of_mem_nil hf
        · exact accuses_of_mem_singleton hf
      · exact accuses_of_mem_nil hf
    · exact accuses_of_mem_nil hf
  · intro cx r s v
    cases v with
    | field parent f body declared =>
      cases declared with
      | none => exact Iff.rfl
      | some d =>
        dsimp only [Visit.respanned]
        cases cx.type? d.type.baseName with
        | none => exact Iff.rfl
        | some type => cases body <;> cases htype : type.isLeaf <;> simp [htype]
    | _ => exact Iff.rfl

theorem subjectwise_possibleSpreads : Subjectwise possibleSpreads := by
  apply subjectwise_eachVisit
  · intro cx s v f hf
    dsimp only at hf
    split at hf
    · split at hf
      · split at hf
        · exact accuses_of_mem_nil hf
        · exact accuses_of_mem_singleton hf
      · exact accuses_of_mem_nil hf
    · split at hf
      · split at hf
        · exact accuses_of_mem_nil hf
        · exact accuses_of_mem_singleton hf
      · exact accuses_of_mem_nil hf
    · exact accuses_of_mem_nil hf
  · intro cx r s v
    cases v with
    | inline parent i =>
      cases parent with
      | none => exact Iff.rfl
      | some parent =>
        have hcondition : (i.unspanned.condition.bind fun name => (cx.recast r).type? name.text) =
            i.condition.bind fun name => cx.type? name.text := by
          cases h : i.condition <;> simp [Inline.unspanned, h]
        dsimp only [Visit.respanned]
        rw [hcondition]
        cases i.condition.bind fun name => cx.type? name.text with
        | none => exact Iff.rfl
        | some condition =>
          dsimp only
          rw [show canApply (cx.recast r) parent condition = canApply cx parent condition from rfl]
          split
          · exact Iff.rfl
          · exact iff_of_false (List.cons_ne_nil _ _) (List.cons_ne_nil _ _)
    | spread parent spread =>
      cases parent with
      | none => exact Iff.rfl
      | some parent =>
        have hcondition : (((cx.recast r).fragment? spread.unspanned.name.text).bind fun x =>
              (cx.recast r).type? x.2.condition.text) =
            (cx.fragment? spread.name.text).bind fun x => cx.type? x.2.condition.text := by
          rw [show spread.unspanned.name.text = spread.name.text from rfl, Context.fragment?_recast, Option.bind_map]
          rfl
        dsimp only [Visit.respanned]
        rw [hcondition]
        cases (cx.fragment? spread.name.text).bind fun x => cx.type? x.2.condition.text with
        | none => exact Iff.rfl
        | some condition =>
          dsimp only
          rw [show canApply (cx.recast r) parent condition = canApply cx parent condition from rfl]
          split
          · exact Iff.rfl
          · exact iff_of_false (List.cons_ne_nil _ _) (List.cons_ne_nil _ _)
    | _ => exact Iff.rfl

/-! ### Types -/

theorem ofName_eq_nil_iff {cx : Context} {s : Subject} {name : Name} :
    unknownTypesAt.ofName cx s name = [] ↔ (cx.type? name.text).isSome = true := by
  unfold unknownTypesAt.ofName
  split
  · rename_i h
    exact iff_of_true rfl h
  · rename_i h
    exact iff_of_false (List.cons_ne_nil _ _) h

theorem local_knownTypes : Local knownTypes := by
  apply local_eachVisit
  · exact fun _ _ _ => rfl
  · exact fun cx s v f hf => accuses_of_mem_map (d := id) hf
  · intro cx r s v
    refine map_eq_nil_congr ?_
    cases v with
    | enterFragment frag =>
      simp only [unknownTypesAt, Visit.respanned, ofName_eq_nil_iff]
      exact Iff.rfl
    | inline parent i =>
      cases h : i.condition with
      | none => simp [unknownTypesAt, Visit.respanned, Inline.unspanned, h]
      | some name =>
        simp only [unknownTypesAt, Visit.respanned, Inline.unspanned, h, Option.map_some, Option.toList_some,
          List.flatMap_cons, List.flatMap_nil, List.append_nil, ofName_eq_nil_iff, Name.text_unspanned]
    | variableDefinition v =>
      simp only [unknownTypesAt, Visit.respanned, VariableDefinition.unspanned]
      split
      · exact Iff.rfl
      · cases v.type.nullable <;> exact iff_of_false (List.cons_ne_nil _ _) (List.cons_ne_nil _ _)
    | _ => exact Iff.rfl

theorem local_compositeConditions : Local compositeConditions := by
  apply local_eachVisit
  · exact fun _ _ _ => rfl
  · intro cx s v f hf
    cases v with
    | enterFragment frag =>
      dsimp only at hf
      split at hf
      · exact accuses_of_mem_singleton hf
      · exact accuses_of_mem_nil hf
    | inline parent i => exact accuses_of_mem_map hf
    | _ => exact accuses_of_mem_nil hf
  · intro cx r s v
    cases v with
    | enterFragment frag =>
      dsimp only [Visit.respanned]
      rw [show (frag.respanned (r.span s.owner)).condition.text = frag.condition.text from rfl]
      split
      · exact iff_of_false (List.cons_ne_nil _ _) (List.cons_ne_nil _ _)
      · exact Iff.rfl
    | inline parent i =>
      refine map_eq_nil_congr ?_
      cases h : i.condition <;> simp [Inline.unspanned, h]
    | _ => exact Iff.rfl

theorem local_inputVariables : Local inputVariables := by
  apply local_eachVisit
  · exact fun _ _ _ => rfl
  · intro cx s v f hf
    cases v with
    | variableDefinition v =>
      dsimp only at hf
      split at hf
      · exact accuses_of_mem_singleton hf
      · exact accuses_of_mem_nil hf
    | _ => exact accuses_of_mem_nil hf
  · intro cx r s v
    cases v with
    | variableDefinition v =>
      dsimp only [Visit.respanned]
      rw [show v.unspanned.type = v.type from rfl]
      split
      · exact iff_of_false (List.cons_ne_nil _ _) (List.cons_ne_nil _ _)
      · exact Iff.rfl
    | _ => exact Iff.rfl

/-! ### Values -/

theorem scalarAccepts_unspanned (scalar : String) (v : Value) :
    scalarAccepts scalar v.unspanned = scalarAccepts scalar v := by
  cases v with
  | list items span =>
    unfold scalarAccepts
    rw [Value.unspanned]
    split <;> simp_all
  | _ => unfold scalarAccepts; split <;> simp_all [Value.unspanned]

section Values

variable (schema : Schema) (r : Recast) (s : Subject)

theorem scalarFaults_unspanned (scalar : String) (v : Value) :
    scalarFaults (s.recast r) scalar v.unspanned = [] ↔ scalarFaults s scalar v = [] := by
  have hother : (if scalarAccepts scalar v.unspanned then [] else [mismatch (s.recast r) v.unspanned scalar]) = [] ↔
      (if scalarAccepts scalar v then [] else [mismatch s v scalar]) = [] := by
    rw [scalarAccepts_unspanned]
    split
    · exact Iff.rfl
    · exact iff_of_false (List.cons_ne_nil _ _) (List.cons_ne_nil _ _)
  by_cases hint : scalar = "Int"
  · subst hint
    cases v with
    | int digits span =>
      simp only [scalarFaults, Value.unspanned]
      split
      · exact Iff.rfl
      · exact iff_of_false (List.cons_ne_nil _ _) (List.cons_ne_nil _ _)
    | _ => exact hother
  · rw [scalarFaults.eq_2 _ _ _ fun _ _ h => absurd h hint, scalarFaults.eq_2 _ _ _ fun _ _ h => absurd h hint]
    exact hother

theorem enumFaults_unspanned (type : String) (values : List String) (v : Value) :
    enumFaults (s.recast r) type values v.unspanned = [] ↔ enumFaults s type values v = [] := by
  cases v with
  | enum name span =>
    simp only [enumFaults, Value.unspanned]
    split
    · exact Iff.rfl
    · exact iff_of_false (List.cons_ne_nil _ _) (List.cons_ne_nil _ _)
  | _ => exact iff_of_false (List.cons_ne_nil _ _) (List.cons_ne_nil _ _)

theorem namedFaults_unspanned (name : String) (v : Value) :
    namedFaults schema (s.recast r) name v.unspanned = [] ↔ namedFaults schema s name v = [] := by
  unfold namedFaults
  split
  · exact scalarFaults_unspanned r s _ v
  · exact enumFaults_unspanned r s name _ v
  · exact iff_of_false (List.cons_ne_nil _ _) (List.cons_ne_nil _ _)
  · exact Iff.rfl

theorem missingInputs_unspanned (inputs : Inputs) (fields : List (Name × Value)) :
    missingInputs inputs (Value.unspannedFields fields) = missingInputs inputs fields := by
  unfold missingInputs
  rw [Value.unspannedFields_eq_map]
  refine List.filter_congr fun d _ => ?_
  rw [List.all_map]
  rfl

mutual

/-- Whether a value fits does not depend on where it stands. -/
theorem valueFaults_unspanned : ∀ (type : TypeRef) (v : Value),
    valueFaults schema (s.recast r) type v.unspanned = [] ↔ valueFaults schema s type v = []
  | _, .variable _ _ => Iff.rfl
  | type, .null span => by
    simp only [valueFaults, Value.unspanned]
    split
    · exact iff_of_false (List.cons_ne_nil _ _) (List.cons_ne_nil _ _)
    · exact Iff.rfl
  | type, .list items span => by
    rw [Value.unspanned, valueFaults, valueFaults]
    split
    · exact itemFaults_unspanned _ items
    · exact namedFaults_unspanned schema r s _ (.list items span)
  | type, .object fields span => by
    rw [Value.unspanned, valueFaults, valueFaults]
    split
    · rw [List.append_eq_nil_iff, List.append_eq_nil_iff, missingInputs_unspanned, fieldFaults_unspanned _ _ fields,
        List.map_eq_nil_iff, List.map_eq_nil_iff]
    · exact namedFaults_unspanned schema r s _ (.object fields span)
  | type, .int digits span => namedFaults_unspanned schema r s _ (.int digits span)
  | type, .float digits span => namedFaults_unspanned schema r s _ (.float digits span)
  | type, .string content span => namedFaults_unspanned schema r s _ (.string content span)
  | type, .boolean holds span => namedFaults_unspanned schema r s _ (.boolean holds span)
  | type, .enum name span => namedFaults_unspanned schema r s _ (.enum name span)

theorem itemFaults_unspanned : ∀ (type : TypeRef) (items : List Value),
    itemFaults schema (s.recast r) type (Value.unspannedItems items) = [] ↔ itemFaults schema s type items = []
  | _, [] => Iff.rfl
  | type, item :: items => by
    rw [Value.unspannedItems, itemFaults, itemFaults, List.append_eq_nil_iff, List.append_eq_nil_iff,
      valueFaults_unspanned type item, itemFaults_unspanned type items]

theorem fieldFaults_unspanned : ∀ (object : String) (inputs : Inputs) (fields : List (Name × Value)),
    fieldFaults schema (s.recast r) object inputs (Value.unspannedFields fields) = [] ↔
      fieldFaults schema s object inputs fields = []
  | _, _, [] => Iff.rfl
  | object, inputs, (name, value) :: fields => by
    rw [Value.unspannedFields, fieldFaults, fieldFaults, List.append_eq_nil_iff, List.append_eq_nil_iff,
      fieldFaults_unspanned object inputs fields, Name.text_unspanned]
    refine and_congr_left fun _ => ?_
    cases inputs.find? name.text with
    | none => exact iff_of_false (List.cons_ne_nil _ _) (List.cons_ne_nil _ _)
    | some d => exact valueFaults_unspanned d.type value

end

mutual

theorem repeatedFieldsIn_unspanned : ∀ v : Value,
    repeatedFieldsIn (s.recast r) v.unspanned = [] ↔ repeatedFieldsIn s v = []
  | .variable _ _ | .int _ _ | .float _ _ | .string _ _ | .boolean _ _ | .null _ | .enum _ _ => Iff.rfl
  | .list items _ => repeatedFieldsInItems_unspanned items
  | .object fields _ => by
    have hnames : repeats Name.text ((Value.unspannedFields fields).map Prod.fst) = [] ↔
        repeats Name.text (fields.map Prod.fst) = [] := by
      rw [Value.unspannedFields_eq_map, repeats_eq_nil_iff, repeats_eq_nil_iff, List.map_map, List.map_map,
        List.map_map]
      rfl
    rw [Value.unspanned, repeatedFieldsIn, repeatedFieldsIn, List.append_eq_nil_iff, List.append_eq_nil_iff,
      repeatedFieldsInFields_unspanned fields, repeatedFields, repeatedFields, map_eq_nil_congr hnames]

theorem repeatedFieldsInItems_unspanned : ∀ items : List Value,
    repeatedFieldsInItems (s.recast r) (Value.unspannedItems items) = [] ↔ repeatedFieldsInItems s items = []
  | [] => Iff.rfl
  | item :: items => by
    rw [Value.unspannedItems, repeatedFieldsInItems, repeatedFieldsInItems, List.append_eq_nil_iff,
      List.append_eq_nil_iff, repeatedFieldsIn_unspanned item, repeatedFieldsInItems_unspanned items]

theorem repeatedFieldsInFields_unspanned : ∀ fields : List (Name × Value),
    repeatedFieldsInFields (s.recast r) (Value.unspannedFields fields) = [] ↔ repeatedFieldsInFields s fields = []
  | [] => Iff.rfl
  | (_, value) :: fields => by
    rw [Value.unspannedFields, repeatedFieldsInFields, repeatedFieldsInFields, List.append_eq_nil_iff,
      List.append_eq_nil_iff, repeatedFieldsIn_unspanned value, repeatedFieldsInFields_unspanned fields]

end

end Values

theorem local_correctValues : Local correctValues := by
  apply local_eachVisit
  · exact fun _ _ _ => rfl
  · intro cx s v f hf
    split at hf
    · exact accuses_of_mem_map (d := id) hf
    · exact accuses_of_mem_map (d := id) hf
    · exact accuses_of_mem_nil hf
  · intro cx r s v
    cases v with
    | variableDefinition v =>
      refine map_eq_nil_congr ?_
      cases h : v.defaultValue with
      | none => simp [VariableDefinition.unspanned, h]
      | some value =>
        simp only [VariableDefinition.unspanned, h, Option.map_some, Option.toList_some, List.flatMap_cons,
          List.flatMap_nil, List.append_nil]
        exact valueFaults_unspanned cx.schema r s v.type value
    | argument site a declared =>
      cases declared with
      | none => exact Iff.rfl
      | some d => exact map_eq_nil_congr (valueFaults_unspanned cx.schema r s d.type a.value)
    | _ => exact Iff.rfl

theorem local_uniqueInputFields : Local uniqueInputFields := by
  apply local_eachVisit
  · exact fun _ _ _ => rfl
  · intro cx s v f hf
    cases v with
    | variableDefinition v => exact accuses_of_mem_map (d := id) hf
    | argument site a declared => exact accuses_of_mem_map (d := id) hf
    | _ => exact accuses_of_mem_nil hf
  · intro cx r s v
    cases v with
    | variableDefinition v =>
      refine map_eq_nil_congr ?_
      cases h : v.defaultValue with
      | none => simp [VariableDefinition.unspanned, h]
      | some value =>
        simp only [VariableDefinition.unspanned, h, Option.map_some, Option.toList_some, List.flatMap_cons,
          List.flatMap_nil, List.append_nil]
        exact repeatedFieldsIn_unspanned r s value
    | argument site a declared => exact map_eq_nil_congr (repeatedFieldsIn_unspanned r s a.value)
    | _ => exact Iff.rfl

/-! ### Directives and arguments -/

theorem local_knownDirectives : Local knownDirectives := by
  apply local_eachVisit
  · exact fun _ _ _ => rfl
  · intro cx s v f hf
    cases v with
    | directives location directives =>
      obtain ⟨d, -, hd⟩ := List.mem_flatMap.1 hf
      dsimp only at hd
      split at hd
      · exact accuses_of_mem_singleton hd
      · split at hd
        · exact accuses_of_mem_nil hd
        · exact accuses_of_mem_singleton hd
    | _ => exact accuses_of_mem_nil hf
  · intro cx r s v
    cases v with
    | directives location directives =>
      dsimp only [Visit.respanned]
      rw [List.flatMap_map, List.flatMap_eq_nil_iff, List.flatMap_eq_nil_iff]
      refine forall₂_congr fun d _ => ?_
      rw [show d.unspanned.name.text = d.name.text from rfl]
      cases cx.schema.directive? d.name.text with
      | none => exact iff_of_false (List.cons_ne_nil _ _) (List.cons_ne_nil _ _)
      | some declared =>
        dsimp only
        split
        · exact Iff.rfl
        · exact iff_of_false (List.cons_ne_nil _ _) (List.cons_ne_nil _ _)
    | _ => exact Iff.rfl

theorem local_uniqueDirectives : Local uniqueDirectives := by
  apply local_eachVisit
  · exact fun _ _ _ => rfl
  · intro cx s v f hf
    cases v with
    | directives location directives => exact accuses_of_mem_map hf
    | _ => exact accuses_of_mem_nil hf
  · intro cx r s v
    cases v with
    | directives location directives =>
      refine map_eq_nil_congr ?_
      rw [List.filter_map]
      exact repeats_map_eq_nil_iff (fun _ => rfl) _
    | _ => exact Iff.rfl

/-- The rules that compare arguments with their declarations are local. -/
theorem local_onInputs {α : Type} (faults : Inputs → List Argument → List α)
    (d : Subject → ArgumentSite → Inputs → α → Diagnostic)
    (hfaults : ∀ inputs arguments, faults inputs (arguments.map Argument.unspanned) = [] ↔
      faults inputs arguments = []) :
    Local (eachVisit fun _ s v =>
      match v with
      | .arguments site arguments =>
        match site.inputs? with
        | some inputs => (faults inputs arguments).map fun a => s.rejectedFor (d s site inputs a)
        | none => []
      | _ => []) := by
  apply local_eachVisit
  · exact fun _ _ _ => rfl
  · intro cx s v f hf
    cases v with
    | arguments site arguments =>
      dsimp only at hf
      split at hf
      · exact accuses_of_mem_map hf
      · exact accuses_of_mem_nil hf
    | _ => exact accuses_of_mem_nil hf
  · intro cx r s v
    cases v with
    | arguments site arguments =>
      dsimp only [Visit.respanned]
      rw [ArgumentSite.inputs?_respanned]
      cases site.inputs? with
      | none => exact Iff.rfl
      | some inputs => exact map_eq_nil_congr (hfaults inputs arguments)
    | _ => exact Iff.rfl

theorem local_knownArguments : Local knownArguments := by
  refine local_onInputs (fun inputs arguments => arguments.filter fun a => !inputs.contains a.name.text)
    (fun s site inputs a => suggest ((s.diagnostic .unknownArgument a.name.span).withDetail
      ("`" ++ a.name.text ++ "` on " ++ site.describe)) a.name.text inputs.keys) fun inputs arguments => ?_
  rw [List.filter_map, List.map_eq_nil_iff]
  exact Iff.rfl

theorem local_requiredArguments : Local requiredArguments := by
  refine local_onInputs (fun inputs arguments =>
      inputs.values.filter fun d => d.isRequired && arguments.all fun a => a.name.text != d.name)
    (fun s site _ d => (s.diagnostic .missingRequiredArgument site.span).withDetail
      (site.shortName ++ " argument `" ++ d.name ++ "` of type `" ++ d.type.text ++
        "` is required, but it was not provided")) fun inputs arguments => ?_
  simp only [List.all_map]
  exact Iff.rfl

theorem local_uniqueArguments : Local uniqueArguments := by
  apply local_eachVisit
  · exact fun _ _ _ => rfl
  · intro cx s v f hf
    cases v with
    | arguments site arguments => exact accuses_of_mem_map hf
    | _ => exact accuses_of_mem_nil hf
  · intro cx r s v
    cases v with
    | arguments site arguments => exact map_eq_nil_congr (repeats_map_eq_nil_iff (fun _ => rfl) _)
    | _ => exact Iff.rfl

/-! ## Rules on operations -/

/-- A rule on operations looks at each definition if it does not mind where the operation stands. -/
theorem subjectwise_onOperations {look : Context → Subject × Operation → List Finding}
    (haccuses : ∀ cx s op, ∀ f ∈ look cx (s, op), s.Accuses f)
    (hrecast : ∀ cx r s op, look (cx.recast r) (s.recast r, op.respanned (r.span s.owner)) = [] ↔
      look cx (s, op) = []) : Subjectwise fun cx => cx.operations.flatMap (look cx) := by
  refine ⟨fun cx s => s.definition.operation?.toList.flatMap fun op => look cx (s, op), fun cx => ?_,
    fun cx s f hf => ?_, fun cx s r => ?_⟩
  · dsimp only [Context.operations]
    rw [List.filterMap_eq_flatMap_toList, List.flatMap_assoc]
    refine List.flatMap_congr fun s _ => ?_
    cases s.definition <;> rfl
  · obtain ⟨op, -, hop⟩ := List.mem_flatMap.1 hf
    exact haccuses cx s op f hop
  · dsimp only
    rw [show (s.recast r).definition = s.definition.respanned (r.span s.owner) from rfl,
      Definition.operation?_respanned]
    cases s.definition.operation? with
    | none => exact Iff.rfl
    | some op =>
      simp only [Option.map_some, Option.toList_some, List.flatMap_cons, List.flatMap_nil, List.append_nil]
      exact hrecast cx r s op

theorem subjectwise_uniqueVariables : Subjectwise uniqueVariables := by
  apply subjectwise_onOperations
  · exact fun cx s op f hf => accuses_of_mem_map hf
  · exact fun cx r s op => map_eq_nil_congr (repeats_map_eq_nil_iff (fun _ => rfl) op.variableDefinitions)

theorem subjectwise_definedVariables : Subjectwise definedVariables := by
  apply subjectwise_onOperations
  · exact fun cx s op f hf => accuses_of_mem_map hf
  · intro cx r s op
    refine map_eq_nil_congr ?_
    unfold undefinedUsages
    rw [distinctUsages_nil_iff, distinctUsages_nil_iff, usagesOf_recast, List.filter_map, List.map_eq_nil_iff]
    simp only [Operation.respanned, Operation.unspanned, Function.comp_def, List.all_map]
    exact Iff.rfl

theorem subjectwise_usedVariables : Subjectwise usedVariables := by
  apply subjectwise_onOperations
  · exact fun cx s op f hf => accuses_of_mem_map hf
  · intro cx r s op
    refine map_eq_nil_congr ?_
    rw [usagesOf_recast, List.map_map]
    simp only [Operation.respanned, Operation.unspanned, List.filter_map, List.map_eq_nil_iff]
    exact Iff.rfl

theorem declarationOf?_respanned (σ : Span → Span) (r : Recast) (op : Operation) (u : Usage) :
    declarationOf? (op.respanned σ) (u.recast r) = (declarationOf? op u).map VariableDefinition.unspanned := by
  unfold declarationOf?
  show ((op.variableDefinitions.map VariableDefinition.unspanned).reverse.find? _) = _
  rw [← List.map_reverse, List.find?_map]
  rfl

theorem fitsPosition_unspanned (v : VariableDefinition) (expected : TypeRef) (hasDefault : Bool) :
    fitsPosition v.unspanned expected hasDefault = fitsPosition v expected hasDefault := by
  have hdefault : (v.unspanned.defaultValue.any fun value => !value.isNull) =
      v.defaultValue.any fun value => !value.isNull := by
    cases h : v.defaultValue with
    | none => simp [VariableDefinition.unspanned, h]
    | some value => cases value <;> simp [VariableDefinition.unspanned, h, Value.unspanned, Value.isNull]
  unfold fitsPosition
  rw [hdefault]
  rfl

theorem subjectwise_variablePositions : Subjectwise variablePositions := by
  apply subjectwise_onOperations
  · intro cx s op f hf
    obtain ⟨u, -, hu⟩ := List.mem_filterMap.1 hf
    split at hu
    · split at hu
      · cases hu
      · cases hu
        exact ⟨_, rfl⟩
    · cases hu
  · intro cx r s op
    dsimp only
    rw [usagesOf_recast, List.filterMap_map, List.filterMap_eq_nil_iff, List.filterMap_eq_nil_iff]
    refine forall₂_congr fun u _ => ?_
    simp only [Function.comp_apply, declarationOf?_respanned]
    rw [show (u.recast r).expected = u.expected from rfl, show (u.recast r).hasDefault = u.hasDefault from rfl]
    cases declarationOf? op u with
    | none => exact Iff.rfl
    | some v =>
      cases u.expected with
      | none => exact Iff.rfl
      | some expected =>
        simp only [Option.map_some, fitsPosition_unspanned]
        split
        · exact Iff.rfl
        · exact iff_of_false nofun nofun

/-- Whether an operation asks for more than one top-level key does not depend on where it stands. -/
theorem extraRootFields_recast (cx : Context) (r : Recast) (s : Subject) (op : Operation) :
    extraRootFields (cx.recast r) (s.recast r) (op.respanned (r.span s.owner)) = [] ↔ extraRootFields cx s op = [] := by
  unfold extraRootFields
  rw [show (op.respanned (r.span s.owner)).body = op.body.respanned (r.span s.owner) from rfl, Context.expand_recast]
  dsimp only [Expanded.recast]
  cases (cx.expand s none op.body []).1 with
  | nil => exact Iff.rfl
  | cons first rest =>
    have hkey : ∀ q : Placed, (q.recast r).field.responseKey = q.field.responseKey := fun q => q.responseKey_recast r
    simp only [List.map_cons, List.filter_map, List.map_eq_nil_iff, Function.comp_def, hkey]

theorem subjectwise_singleRootField : Subjectwise singleRootField := by
  rw [singleRootField_eq]
  apply subjectwise_onOperations
  · intro cx s op f hf
    dsimp only at hf
    split at hf
    · exact accuses_of_mem_singleton hf
    · exact accuses_of_mem_nil hf
  · intro cx r s op
    have hextra := extraRootFields_recast cx r s op
    dsimp only
    rw [show (op.respanned (r.span s.owner)).kind = op.kind from rfl]
    cases hkind : op.kind with
    | subscription =>
      cases h : extraRootFields cx s op with
      | nil => rw [hextra.2 h]
      | cons extra more =>
        cases h' : extraRootFields (cx.recast r) (s.recast r) (op.respanned (r.span s.owner)) with
        | nil =>
          rw [hextra.1 h'] at h
          cases h
        | cons extra' more' => exact iff_of_false (List.cons_ne_nil _ _) (List.cons_ne_nil _ _)
    | _ => exact Iff.rfl

end QueryBatch.Rules
