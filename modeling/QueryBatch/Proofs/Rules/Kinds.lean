import QueryBatch.Proofs.Rules.Grounded

/-!
# What the rules speak of

Each rule has its own kinds of diagnostics, and only some kinds propose another name.

* `Diagnostic.Says`, `Says`: a diagnostic, or all diagnostics of a rule, are of some kinds, and propose nothing unless
  their kinds may. `says_eachVisit`, `says_onOperations`: so they are if they are in each visit, or for each operation.
* `globalKinds`, `says_global`: the kinds of the global rules. `kind_of_validateGlobal`: a validation speaks of them
  alone.
-/

namespace QueryBatch

/-- The kinds of the diagnostics that propose a name for one that was not found. -/
def proposingKinds : List Diagnostic.Kind :=
  [.unknownType, .invalidValue, .unknownField, .unknownDirective, .unknownArgument, .undefinedFragment]

/-- A diagnostic is of one of some kinds, and proposes nothing unless its kind may. -/
structure Diagnostic.Says (d : Diagnostic) (kinds : List Diagnostic.Kind) : Prop where
  kind_mem : d.kind ∈ kinds
  fix_eq : d.kind ∉ proposingKinds → d.fix = none

namespace Rules

/-- The diagnostic of a finding says something of some kinds. -/
def Finding.Says (f : Finding) (kinds : List Diagnostic.Kind) : Prop := ∀ d, f.diagnostic = some d → d.Says kinds

/-- The diagnostics of a rule say something of some kinds. -/
def Says (rule : Rule) (kinds : List Diagnostic.Kind) : Prop := ∀ cx, ∀ f ∈ rule cx, f.Says kinds

section Says

variable {s : Subject} {d : Diagnostic} {f : Finding} {kinds : List Diagnostic.Kind}

theorem says_of_fix_eq (h : d.kind ∈ kinds) (hfix : d.fix = none) : d.Says kinds := ⟨h, fun _ => hfix⟩

@[simp] theorem kind_suggest (d : Diagnostic) (name : String) (candidates : List String) :
    (suggest d name candidates).kind = d.kind := by
  unfold suggest
  split <;> rfl

theorem says_suggest (kind : Diagnostic.Kind) {name : String} {candidates : List String} (hd : d.kind = kind)
    (h : kind ∈ kinds) (hk : kind ∈ proposingKinds) : (suggest d name candidates).Says kinds := by
  refine ⟨?_, fun hno => ?_⟩
  · rwa [kind_suggest, hd]
  · rw [kind_suggest, hd] at hno
    exact absurd hk hno

theorem says_rejectedFor (h : d.Says kinds) : (s.rejectedFor d).Says kinds := by
  rintro _ ⟨⟩
  exact h

theorem says_of_mem_map {α : Type} {d : α → Diagnostic} {as : List α} (h : f ∈ as.map fun a => s.rejectedFor (d a))
    (hd : ∀ a, (d a).Says kinds) : f.Says kinds := by
  obtain ⟨a, -, rfl⟩ := List.mem_map.1 h
  exact says_rejectedFor (hd a)

theorem says_of_mem_singleton (h : f ∈ [s.rejectedFor d]) (hd : d.Says kinds) : f.Says kinds := by
  rw [List.mem_singleton.1 h]
  exact says_rejectedFor hd

theorem says_of_mem_nil (h : f ∈ ([] : List Finding)) : f.Says kinds := absurd h List.not_mem_nil

theorem says_eachVisit {look : Context → Subject → Visit → List Finding}
    (h : ∀ cx s v, ∀ f ∈ look cx s v, f.Says kinds) : Says (eachVisit look) kinds := by
  intro cx f hf
  obtain ⟨⟨s, v⟩, -, hf⟩ := List.mem_flatMap.1 hf
  exact h cx s v f hf

theorem says_onOperations {look : Context → Subject × Operation → List Finding}
    (h : ∀ cx x, ∀ f ∈ look cx x, f.Says kinds) : Says (fun cx => cx.operations.flatMap (look cx)) kinds := by
  intro cx f hf
  obtain ⟨x, -, hf⟩ := List.mem_flatMap.1 hf
  exact h cx x f hf

end Says

/-! ## Structural rules -/

theorem says_loneAnonymous : Says loneAnonymous [.loneAnonymousOperation] := by
  intro cx f hf
  unfold loneAnonymous at hf
  split at hf
  · exact says_of_mem_nil hf
  · obtain ⟨x, -, rfl⟩ := List.mem_map.1 hf
    exact says_rejectedFor (says_of_fix_eq List.mem_cons_self rfl)

theorem says_compositeConditions : Says compositeConditions [.fragmentOnNonCompositeType] := by
  apply says_eachVisit
  intro cx s v f hf
  split at hf
  · split at hf
    · exact says_of_mem_singleton hf (says_of_fix_eq List.mem_cons_self rfl)
    · exact says_of_mem_nil hf
  · exact says_of_mem_map hf fun name => says_of_fix_eq List.mem_cons_self rfl
  · exact says_of_mem_nil hf

theorem says_inputVariables : Says inputVariables [.variableNotInputType] := by
  apply says_eachVisit
  intro cx s v f hf
  split at hf
  · split at hf
    · exact says_of_mem_singleton hf (says_of_fix_eq List.mem_cons_self rfl)
    · exact says_of_mem_nil hf
  · exact says_of_mem_nil hf

theorem says_scalarLeafs : Says scalarLeafs [.selectionOnLeafField, .missingSelectionSet] := by
  apply says_eachVisit
  intro cx s v f hf
  split at hf
  · split at hf
    · split at hf
      · exact says_of_mem_singleton hf (says_of_fix_eq List.mem_cons_self rfl)
      · exact says_of_mem_nil hf
    · split at hf
      · exact says_of_mem_nil hf
      · exact says_of_mem_singleton hf (says_of_fix_eq (List.mem_cons_of_mem _ List.mem_cons_self) rfl)
    · exact says_of_mem_nil hf
  · exact says_of_mem_nil hf

theorem says_possibleSpreads : Says possibleSpreads [.impossibleFragmentSpread] := by
  apply says_eachVisit
  intro cx s v f hf
  dsimp only at hf
  split at hf
  · split at hf
    · split at hf
      · exact says_of_mem_nil hf
      · exact says_of_mem_singleton hf (says_of_fix_eq List.mem_cons_self rfl)
    · exact says_of_mem_nil hf
  · split at hf
    · split at hf
      · exact says_of_mem_nil hf
      · exact says_of_mem_singleton hf (says_of_fix_eq List.mem_cons_self rfl)
    · exact says_of_mem_nil hf
  · exact says_of_mem_nil hf

theorem says_variablePositions : Says variablePositions [.variableInWrongPosition] := by
  refine says_onOperations fun cx x f hf => ?_
  obtain ⟨u, -, hf⟩ := List.mem_filterMap.1 hf
  split at hf
  · split at hf
    · cases hf
    · cases hf
      exact says_rejectedFor (says_of_fix_eq List.mem_cons_self rfl)
  · cases hf

/-! ## Rules on visits -/

theorem says_knownFields : Says knownFields [.unknownField] := by
  apply says_eachVisit
  intro cx s v f hf
  dsimp only at hf
  split at hf
  · exact says_of_mem_singleton hf (says_suggest .unknownField rfl List.mem_cons_self (by decide))
  · exact says_of_mem_nil hf

theorem says_knownDirectives : Says knownDirectives [.unknownDirective, .misplacedDirective] := by
  apply says_eachVisit
  intro cx s v f hf
  dsimp only at hf
  split at hf
  · obtain ⟨d, -, hf⟩ := List.mem_flatMap.1 hf
    split at hf
    · exact says_of_mem_singleton hf (says_suggest .unknownDirective rfl List.mem_cons_self (by decide))
    · split at hf
      · exact says_of_mem_nil hf
      · exact says_of_mem_singleton hf (says_of_fix_eq (List.mem_cons_of_mem _ List.mem_cons_self) rfl)
  · exact says_of_mem_nil hf

theorem says_uniqueDirectives : Says uniqueDirectives [.duplicateDirective] := by
  apply says_eachVisit
  intro cx s v f hf
  dsimp only at hf
  split at hf
  · exact says_of_mem_map hf fun x => says_of_fix_eq List.mem_cons_self rfl
  · exact says_of_mem_nil hf

theorem says_knownArguments : Says knownArguments [.unknownArgument] := by
  apply says_eachVisit
  intro cx s v f hf
  dsimp only at hf
  split at hf
  · split at hf
    · exact says_of_mem_map hf fun a => says_suggest .unknownArgument rfl List.mem_cons_self (by decide)
    · exact says_of_mem_nil hf
  · exact says_of_mem_nil hf

theorem says_uniqueArguments : Says uniqueArguments [.duplicateArgument] := by
  apply says_eachVisit
  intro cx s v f hf
  dsimp only at hf
  split at hf
  · exact says_of_mem_map hf fun x => says_of_fix_eq List.mem_cons_self rfl
  · exact says_of_mem_nil hf

theorem says_requiredArguments : Says requiredArguments [.missingRequiredArgument] := by
  apply says_eachVisit
  intro cx s v f hf
  dsimp only at hf
  split at hf
  · split at hf
    · exact says_of_mem_map hf fun d => says_of_fix_eq List.mem_cons_self rfl
    · exact says_of_mem_nil hf
  · exact says_of_mem_nil hf

section InputFields

variable {s : Subject} {d : Diagnostic}

theorem says_repeatedFields {names : List Name} (h : d ∈ repeatedFields s names) : d.Says [.duplicateInputField] := by
  obtain ⟨x, -, rfl⟩ := List.mem_map.1 h
  exact says_of_fix_eq List.mem_cons_self rfl

mutual

theorem says_repeatedFieldsIn : ∀ value : Value, d ∈ repeatedFieldsIn s value → d.Says [.duplicateInputField]
  | .list items _, h => says_repeatedFieldsInItems items h
  | .object fields _, h => (List.mem_append.1 h).elim says_repeatedFields (says_repeatedFieldsInFields fields)
  | .variable _ _, h | .int _ _, h | .float _ _, h | .string _ _, h | .boolean _ _, h | .null _, h | .enum _ _, h =>
    absurd h List.not_mem_nil

theorem says_repeatedFieldsInItems : ∀ items : List Value, d ∈ repeatedFieldsInItems s items →
    d.Says [.duplicateInputField]
  | [], h => absurd h List.not_mem_nil
  | item :: items, h => (List.mem_append.1 h).elim (says_repeatedFieldsIn item) (says_repeatedFieldsInItems items)

theorem says_repeatedFieldsInFields : ∀ fields : List (Name × Value), d ∈ repeatedFieldsInFields s fields →
    d.Says [.duplicateInputField]
  | [], h => absurd h List.not_mem_nil
  | (_, value) :: fields, h =>
    (List.mem_append.1 h).elim (says_repeatedFieldsIn value) (says_repeatedFieldsInFields fields)

end

end InputFields

theorem says_uniqueInputFields : Says uniqueInputFields [.duplicateInputField] := by
  apply says_eachVisit
  intro cx s v f hf
  split at hf
  · obtain ⟨d, hd, rfl⟩ := List.mem_map.1 hf
    obtain ⟨value, -, hd⟩ := List.mem_flatMap.1 hd
    exact says_rejectedFor (says_repeatedFieldsIn value hd)
  · obtain ⟨d, hd, rfl⟩ := List.mem_map.1 hf
    exact says_rejectedFor (says_repeatedFieldsIn _ hd)
  · exact says_of_mem_nil hf

/-! ## Rules on operations -/

theorem says_uniqueOperationNames : Says uniqueOperationNames [.duplicateOperationName] := by
  intro cx f hf
  obtain ⟨x, -, rfl⟩ := List.mem_map.1 hf
  exact says_rejectedFor (says_of_fix_eq List.mem_cons_self rfl)

theorem says_singleRootField : Says singleRootField [.subscriptionMultipleRootFields] := by
  intro cx f hf
  obtain ⟨x, -, hf⟩ := List.mem_filterMap.1 hf
  dsimp only at hf
  split at hf
  · cases hf
    exact says_rejectedFor (says_of_fix_eq List.mem_cons_self rfl)
  · cases hf

theorem says_uniqueVariables : Says uniqueVariables [.duplicateVariable] :=
  says_onOperations fun _ _ _ hf => says_of_mem_map hf fun _ => says_of_fix_eq List.mem_cons_self rfl

theorem says_definedVariables : Says definedVariables [.undefinedVariable] :=
  says_onOperations fun _ _ _ hf => says_of_mem_map hf fun _ => says_of_fix_eq List.mem_cons_self rfl

theorem says_usedVariables : Says usedVariables [.unusedVariable] :=
  says_onOperations fun _ _ _ hf => says_of_mem_map hf fun _ => says_of_fix_eq List.mem_cons_self rfl

/-! ## Rules on fragments and conflicts -/

theorem says_uniqueFragmentNames : Says uniqueFragmentNames [.duplicateFragmentName] := by
  intro cx f hf d hd
  obtain ⟨x, -, rfl⟩ := List.mem_map.1 hf
  cases hd
  exact says_of_fix_eq List.mem_cons_self rfl

theorem says_acyclicFragments : Says acyclicFragments [.fragmentCycle] := by
  intro cx f hf d hd
  obtain ⟨first, rest, -, rfl⟩ := mem_acyclicFragments.1 hf
  cases (diagnostic_cycleFinding first rest).symm.trans hd
  exact says_of_fix_eq List.mem_cons_self rfl

theorem says_overlappingFields : Says overlappingFields [.fieldsConflict] := by
  intro cx f hf d hd
  obtain ⟨x, -, rfl⟩ := exists_of_diagnostic hf hd
  exact says_of_fix_eq List.mem_cons_self rfl

/-! ## All rules -/

/-- The kinds of diagnostics of the global rules, each with its rule. -/
def globalKinds : List (Rule × List Diagnostic.Kind) :=
  [(uniqueOperationNames, [.duplicateOperationName]), (singleRootField, [.subscriptionMultipleRootFields]),
    (knownFields, [.unknownField]), (uniqueFragmentNames, [.duplicateFragmentName]),
    (acyclicFragments, [.fragmentCycle]), (uniqueVariables, [.duplicateVariable]),
    (definedVariables, [.undefinedVariable]), (usedVariables, [.unusedVariable]),
    (knownDirectives, [.unknownDirective, .misplacedDirective]), (uniqueDirectives, [.duplicateDirective]),
    (knownArguments, [.unknownArgument]), (uniqueArguments, [.duplicateArgument]),
    (requiredArguments, [.missingRequiredArgument]), (overlappingFields, [.fieldsConflict]),
    (uniqueInputFields, [.duplicateInputField])]

theorem globalKinds_rules : globalKinds.map Prod.fst = globalRules := rfl

/-- Every global rule speaks of its own kinds. -/
theorem says_global {x : Rule × List Diagnostic.Kind} (h : x ∈ globalKinds) : Says x.1 x.2 := by
  simp only [globalKinds, List.mem_cons, List.not_mem_nil, or_false] at h
  rcases h with rfl | rfl | rfl | rfl | rfl | rfl | rfl | rfl | rfl | rfl | rfl | rfl | rfl | rfl | rfl
  · exact says_uniqueOperationNames
  · exact says_singleRootField
  · exact says_knownFields
  · exact says_uniqueFragmentNames
  · exact says_acyclicFragments
  · exact says_uniqueVariables
  · exact says_definedVariables
  · exact says_usedVariables
  · exact says_knownDirectives
  · exact says_uniqueDirectives
  · exact says_knownArguments
  · exact says_uniqueArguments
  · exact says_requiredArguments
  · exact says_overlappingFields
  · exact says_uniqueInputFields

end Rules

open Rules

/-- The validation of a batch speaks of the kinds of the global rules. -/
theorem kind_of_validateGlobal {schema : Schema} {ops : List (Nat × Operation)} {frags : List (Nat × Fragment)}
    {d : Diagnostic} (h : d ∈ (validateGlobal schema ops frags).diagnostics) :
    d.kind ∈ globalKinds.flatMap Prod.snd := by
  obtain ⟨f, hf, hd⟩ := List.mem_filterMap.1 h
  obtain ⟨rule, hrule, hf⟩ := List.mem_flatMap.1 hf
  rw [← globalKinds_rules] at hrule
  obtain ⟨x, hx, rfl⟩ := List.mem_map.1 hrule
  exact List.mem_flatMap.2 ⟨x, hx, (says_global hx _ f hf d hd).kind_mem⟩

end QueryBatch
