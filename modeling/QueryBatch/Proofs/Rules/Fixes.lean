import QueryBatch.Proofs.Rules.Kinds
import QueryBatch.Proofs.Rules.Names
import QueryBatch.Proofs.Text.Closest

/-!
# What the rules propose

A rule that does not find a name proposes the closest one of those among which it looks.

* `Missed`: a name of a definition that a rule does not find, and its candidates. `MissedIn`: one inside a value.
* `Missed.mem_names`, `Missed.not_mem`: the name stands in the definition, and is none of the candidates.
* `Proposes`: a fix of a diagnostic stands in for a missed name, at its place.
* `proposes_structural`, `proposes_global`: so do the fixes of all rules.
-/

namespace QueryBatch

theorem OrderedMap.not_mem_keys {β : Type} {m : OrderedMap β} {name : String} (h : m.find? name = none) :
    name ∉ m.keys := findIn_eq_none_iff.1 h

/-- A diagnostic on a name of a source. If it proposes something, that is the closest of some candidates. -/
structure Diagnostic.Replaces (d : Diagnostic) (source : Nat) (name : Name) (candidates : List String) : Prop where
  source_eq : d.source = source
  span_eq : d.span = name.span
  closest : ∀ fix, d.fix = some fix →
    Text.closestMatch name.text candidates Rules.suggestionThreshold = some fix.replacement

namespace Rules

/-! ## Missed names -/

/-- A name inside a value that is not found when the value is checked against a type, with the names among which it is
looked for: the value of an enum, or a field of an input object. -/
inductive MissedIn (schema : Schema) : TypeRef → Value → Name → List String → Prop
  | enumValue {type : TypeRef} {name enum : String} {span : Span} {values : List String} :
      schema.type? type.baseName = some (.enum enum values) → name ∉ values →
      MissedIn schema type (.enum name span) ⟨name, span⟩ values
  | inputField {type : TypeRef} {fields : List (Name × Value)} {span : Span} {name : Name} {value : Value}
      {object : String} {inputs : Inputs} : schema.type? type.baseName = some (.inputObject object inputs) →
      (name, value) ∈ fields → inputs.find? name.text = none →
      MissedIn schema type (.object fields span) name inputs.keys
  | inItem {type item : TypeRef} {items : List Value} {span : Span} {value : Value} {name : Name}
      {candidates : List String} : type.itemType? = some item → value ∈ items →
      MissedIn schema item value name candidates → MissedIn schema type (.list items span) name candidates
  | inField {type : TypeRef} {fields : List (Name × Value)} {span : Span} {key : Name} {value : Value}
      {object : String} {inputs : Inputs} {d : InputDef} {name : Name} {candidates : List String} :
      schema.type? type.baseName = some (.inputObject object inputs) → (key, value) ∈ fields →
      inputs.find? key.text = some d → MissedIn schema d.type value name candidates →
      MissedIn schema type (.object fields span) name candidates

/-- A name of a definition that is not found by the rule of a kind of diagnostics, with the names among which it is
looked for. -/
inductive Missed (schema : Schema) (s : Subject) : Diagnostic.Kind → Name → List String → Prop
  | condition {frag : Fragment} : .enterFragment frag ∈ s.visits schema → schema.type? frag.condition.text = none →
      Missed schema s .unknownType frag.condition schema.typeNames
  | inlineCondition {parent : Option TypeDef} {i : Inline} {name : Name} : .inline parent i ∈ s.visits schema →
      i.condition = some name → schema.type? name.text = none → Missed schema s .unknownType name schema.typeNames
  | variableType {v : VariableDefinition} {name : Name} : .variableDefinition v ∈ s.visits schema →
      name ∈ v.type.leadingNames v.typeSpan → schema.type? name.text = none →
      Missed schema s .unknownType name schema.typeNames
  | field {parent : TypeDef} {f : Field} {body : Option SelectionSet} :
      .field (some parent) f body none ∈ s.visits schema →
      Missed schema s .unknownField f.name ((parent.fields?.map OrderedMap.keys).getD [])
  | argument {site : ArgumentSite} {arguments : List Argument} {inputs : Inputs} {a : Argument} :
      .arguments site arguments ∈ s.visits schema → site.inputs? = some inputs → a ∈ arguments →
      inputs.find? a.name.text = none → Missed schema s .unknownArgument a.name inputs.keys
  | directive {location : DirectiveLocation} {directives : List Directive} {d : Directive} :
      .directives location directives ∈ s.visits schema → d ∈ directives → schema.directive? d.name.text = none →
      Missed schema s .unknownDirective d.name schema.directiveNames
  | inDefault {v : VariableDefinition} {value : Value} {name : Name} {candidates : List String} :
      .variableDefinition v ∈ s.visits schema → v.defaultValue = some value →
      MissedIn schema v.type value name candidates → Missed schema s .invalidValue name candidates
  | inArgument {site : ArgumentSite} {a : Argument} {d : InputDef} {name : Name} {candidates : List String} :
      .argument site a (some d) ∈ s.visits schema → MissedIn schema d.type a.value name candidates →
      Missed schema s .invalidValue name candidates

section Missed

variable {schema : Schema} {s : Subject} {kind : Diagnostic.Kind} {name : Name} {candidates : List String}

/-- A missed name inside a value is one of its names. -/
theorem MissedIn.mem_names {type : TypeRef} {value : Value} (h : MissedIn schema type value name candidates) :
    name ∈ value.names := by
  induction h with
  | enumValue _ _ => exact List.mem_singleton_self _
  | inputField _ hmem _ =>
    rw [Value.names, Value.namesInFields_eq]
    exact List.mem_flatMap.2 ⟨_, hmem, List.mem_cons_self⟩
  | inItem _ hmem _ ih =>
    rw [Value.names, Value.namesInItems_eq]
    exact List.mem_flatMap.2 ⟨_, hmem, ih⟩
  | inField _ hmem _ _ ih =>
    rw [Value.names, Value.namesInFields_eq]
    exact List.mem_flatMap.2 ⟨_, hmem, List.mem_cons_of_mem _ ih⟩

/-- A missed name inside a value is none of its candidates. -/
theorem MissedIn.not_mem {type : TypeRef} {value : Value} (h : MissedIn schema type value name candidates) :
    name.text ∉ candidates := by
  induction h with
  | enumValue _ hno => exact hno
  | inputField _ _ hno => exact OrderedMap.not_mem_keys hno
  | inItem _ _ _ ih | inField _ _ _ _ ih => exact ih

/-- A missed name is one of the definition. -/
theorem Missed.mem_names (h : Missed schema s kind name candidates) : name ∈ s.definition.names := by
  cases h with
  | condition hv _ => exact (stems_visits hv).names_subset (List.mem_cons_of_mem _ List.mem_cons_self)
  | inlineCondition hv hname _ =>
    refine (stems_visits hv).names_subset (List.mem_append_left _ ?_)
    rw [hname]
    exact List.mem_singleton_self _
  | variableType hv hname _ =>
    exact (stems_visits hv).names_subset (List.mem_append_left _ (List.mem_append_left _ hname))
  | field hv =>
    refine (stems_visits hv).names_subset (List.mem_append_left _ ?_)
    simp [Field.names]
  | argument hv _ ha _ => exact (stems_visits hv).names_subset (List.mem_flatMap.2 ⟨_, ha, List.mem_cons_self⟩)
  | directive hv hd _ => exact (stems_visits hv).names_subset (List.mem_flatMap.2 ⟨_, hd, List.mem_cons_self⟩)
  | inDefault hv hvalue hin =>
    exact (stems_visits hv).names_subset (VariableDefinition.default_subset_names hvalue hin.mem_names)
  | inArgument hv hin => exact (stems_visits hv).names_subset (List.mem_cons_of_mem _ hin.mem_names)

/-- A missed name is none of its candidates. -/
theorem Missed.not_mem (h : Missed schema s kind name candidates) : name.text ∉ candidates := by
  cases h with
  | condition _ hno | inlineCondition _ _ hno | variableType _ _ hno | argument _ _ _ hno | directive _ _ hno =>
    exact OrderedMap.not_mem_keys hno
  | @field parent f body hv =>
    have hdeclared : none = schema.field? parent f.name.text := (stems_visits hv).declared
    unfold Schema.field? at hdeclared
    split at hdeclared
    · cases hdeclared
    · cases hfields : parent.fields? with
      | none => exact List.not_mem_nil
      | some fields =>
        rw [hfields] at hdeclared
        exact OrderedMap.not_mem_keys hdeclared.symm
  | inDefault _ _ hin | inArgument _ hin => exact hin.not_mem

end Missed

/-! ## Proposals -/

/-- A diagnostic on a name of a definition that is missed. -/
def Subject.Misses (schema : Schema) (s : Subject) (d : Diagnostic) : Prop :=
  ∃ name candidates, Missed schema s d.kind name candidates ∧ d.Replaces s.source name candidates

/-- The diagnostics of a rule that propose something are on missed names. -/
def Proposes (rule : Rule) : Prop :=
  ∀ cx, ∀ f ∈ rule cx, ∀ d, f.diagnostic = some d → d.fix = none ∨ ∃ s ∈ cx.subjects, s.Misses cx.schema d

section Proposes

variable {schema : Schema} {s : Subject} {d : Diagnostic} {name : Name} {candidates : List String}

theorem replaces_suggest {text : String} (hfix : d.fix = none) :
    (suggest d text candidates).Replaces d.source ⟨text, d.span⟩ candidates := by
  unfold suggest
  split
  · rename_i candidate hclosest
    refine ⟨rfl, rfl, fun fix h => ?_⟩
    cases h
    exact hclosest
  · refine ⟨rfl, rfl, fun fix h => ?_⟩
    cases hfix.symm.trans h

/-- A suggestion for a name that is missed. -/
theorem misses_suggest {kind : Diagnostic.Kind} {text detail : String} {span : Span}
    (h : Missed schema s kind ⟨text, span⟩ candidates) :
    s.Misses schema (suggest ((s.diagnostic kind span).withDetail detail) text candidates) := by
  refine ⟨⟨text, span⟩, candidates, ?_, replaces_suggest rfl⟩
  rw [kind_suggest]
  exact h

/-- A rule proposes nothing if no kind of its diagnostics may. -/
theorem proposes_of_says {rule : Rule} {kinds : List Diagnostic.Kind} (h : Says rule kinds)
    (hkinds : ∀ kind ∈ kinds, kind ∉ proposingKinds) : Proposes rule := fun cx f hf d hd =>
  .inl ((h cx f hf d hd).fix_eq (hkinds _ (h cx f hf d hd).kind_mem))

theorem proposes_eachVisit {look : Context → Subject → Visit → List Finding}
    (h : ∀ cx s v, v ∈ s.visits cx.schema → ∀ f ∈ look cx s v, ∃ d, f = s.rejectedFor d ∧
      (d.fix = none ∨ s.Misses cx.schema d)) : Proposes (eachVisit look) := by
  intro cx f hf d hd
  obtain ⟨⟨s, v⟩, hv, hf⟩ := List.mem_flatMap.1 hf
  obtain ⟨s, hs, hv⟩ := List.mem_flatMap.1 hv
  obtain ⟨v, hv, hsv⟩ := List.mem_map.1 hv
  cases hsv
  obtain ⟨d, rfl, hmisses⟩ := h cx s v hv f hf
  cases hd
  exact hmisses.imp_right fun hmisses => ⟨s, hs, hmisses⟩

/-! ### Type names -/

theorem misses_ofName {cx : Context} (hmissed : cx.schema.type? name.text = none →
    Missed cx.schema s .unknownType name cx.schema.typeNames) (h : d ∈ unknownTypesAt.ofName cx s name) :
    s.Misses cx.schema d := by
  unfold unknownTypesAt.ofName at h
  split at h
  · exact absurd h List.not_mem_nil
  · rename_i hnone
    cases List.mem_singleton.1 h
    exact misses_suggest (hmissed (Option.not_isSome_iff_eq_none.1 hnone))

theorem misses_unknownTypesAt {cx : Context} {v : Visit} (hv : v ∈ s.visits cx.schema)
    (h : d ∈ unknownTypesAt cx s v) : d.fix = none ∨ s.Misses cx.schema d := by
  unfold unknownTypesAt at h
  split at h
  · exact .inr (misses_ofName (Missed.condition hv) h)
  · obtain ⟨name, hname, h⟩ := List.mem_flatMap.1 h
    exact .inr (misses_ofName (Missed.inlineCondition hv (Option.mem_toList.1 hname)) h)
  · dsimp only at h
    split at h
    · exact absurd h List.not_mem_nil
    · rename_i hnone
      split at h
      · rename_i v _ base hbase
        cases List.mem_singleton.1 h
        refine .inr (misses_suggest (.variableType hv ?_ (Option.not_isSome_iff_eq_none.1 hnone)))
        rw [TypeRef.leadingNames_of_nullable hbase]
        exact List.mem_singleton_self _
      · cases List.mem_singleton.1 h
        exact .inl rfl
  · exact absurd h List.not_mem_nil

theorem proposes_knownTypes : Proposes knownTypes := by
  refine proposes_eachVisit fun cx s v hv f hf => ?_
  obtain ⟨d, hd, rfl⟩ := List.mem_map.1 hf
  exact ⟨d, rfl, misses_unknownTypesAt hv hd⟩

/-! ### Fields, arguments and directives -/

theorem proposes_knownFields : Proposes knownFields := by
  refine proposes_eachVisit fun cx s v hv f hf => ?_
  dsimp only at hf
  split at hf
  · cases List.mem_singleton.1 hf
    exact ⟨_, rfl, .inr (misses_suggest (.field hv))⟩
  · exact absurd hf List.not_mem_nil

theorem proposes_knownArguments : Proposes knownArguments := by
  refine proposes_eachVisit fun cx s v hv f hf => ?_
  dsimp only at hf
  split at hf
  · split at hf
    · rename_i inputs hinputs
      obtain ⟨a, ha, rfl⟩ := List.mem_map.1 hf
      obtain ⟨ha, hno⟩ := List.mem_filter.1 ha
      have hnone : inputs.find? a.name.text = none := by
        rw [← Option.not_isSome_iff_eq_none, OrderedMap.find?_isSome_iff]
        simpa using hno
      exact ⟨_, rfl, .inr (misses_suggest (.argument hv hinputs ha hnone))⟩
    · exact absurd hf List.not_mem_nil
  · exact absurd hf List.not_mem_nil

theorem proposes_knownDirectives : Proposes knownDirectives := by
  refine proposes_eachVisit fun cx s v hv f hf => ?_
  dsimp only at hf
  split at hf
  · obtain ⟨x, hx, hf⟩ := List.mem_flatMap.1 hf
    split at hf
    · rename_i hnone
      cases List.mem_singleton.1 hf
      exact ⟨_, rfl, .inr (misses_suggest (.directive hv hx hnone))⟩
    · split at hf
      · exact absurd hf List.not_mem_nil
      · cases List.mem_singleton.1 hf
        exact ⟨_, rfl, .inl rfl⟩
  · exact absurd hf List.not_mem_nil

end Proposes

/-! ### Values -/

/-- A diagnostic proposes nothing, or is on a name inside a value that is missed. -/
def MissesIn (schema : Schema) (s : Subject) (type : TypeRef) (value : Value) (d : Diagnostic) : Prop :=
  d.fix = none ∨ d.kind = .invalidValue ∧
    ∃ name candidates, MissedIn schema type value name candidates ∧ d.Replaces s.source name candidates

section Values

variable {schema : Schema} {s : Subject} {d : Diagnostic}

theorem MissesIn.imp {type inner : TypeRef} {value part : Value} (h : MissesIn schema s inner part d)
    (himp : ∀ {name candidates}, MissedIn schema inner part name candidates →
      MissedIn schema type value name candidates) : MissesIn schema s type value d := by
  rcases h with hfix | ⟨hkind, name, candidates, hmissed, hreplaces⟩
  · exact .inl hfix
  · exact .inr ⟨hkind, name, candidates, himp hmissed, hreplaces⟩

theorem missesIn_suggest {type : TypeRef} {value : Value} {text detail : String} {span : Span}
    {candidates : List String} (h : MissedIn schema type value ⟨text, span⟩ candidates) : MissesIn schema s type value
      (suggest ((s.diagnostic .invalidValue span).withDetail detail) text candidates) := by
  refine .inr ⟨?_, ⟨text, span⟩, candidates, h, replaces_suggest rfl⟩
  rw [kind_suggest]
  rfl

theorem missesIn_namedFaults {type : TypeRef} {value : Value} (h : d ∈ namedFaults schema s type.baseName value) :
    MissesIn schema s type value d := by
  unfold namedFaults at h
  split at h
  · unfold scalarFaults at h
    split at h
    · split at h
      · exact absurd h List.not_mem_nil
      · cases List.mem_singleton.1 h
        exact .inl rfl
    · split at h
      · exact absurd h List.not_mem_nil
      · cases List.mem_singleton.1 h
        exact .inl rfl
  · rename_i enum values htype
    unfold enumFaults at h
    split at h
    · split at h
      · exact absurd h List.not_mem_nil
      · rename_i name span hno
        cases List.mem_singleton.1 h
        exact missesIn_suggest (.enumValue htype fun hmem => hno (List.contains_iff_mem.2 hmem))
    · cases List.mem_singleton.1 h
      exact .inl rfl
  · cases List.mem_singleton.1 h
    exact .inl rfl
  · exact absurd h List.not_mem_nil

mutual

theorem missesIn_valueFaults : ∀ (type : TypeRef) (value : Value), d ∈ valueFaults schema s type value →
    MissesIn schema s type value d
  | _, .variable _ _, h => absurd h List.not_mem_nil
  | _, .null _, h => by
    rw [valueFaults] at h
    split at h
    · cases List.mem_singleton.1 h
      exact .inl rfl
    · exact absurd h List.not_mem_nil
  | type, .list items span, h => by
    rw [valueFaults] at h
    split at h
    · rename_i item hitem
      exact missesIn_itemFaults hitem items (List.Subset.refl _) h
    · exact missesIn_namedFaults h
  | type, .object fields span, h => by
    rw [valueFaults] at h
    split at h
    · rename_i object inputs htype
      rcases List.mem_append.1 h with h | h
      · exact missesIn_fieldFaults htype fields (List.Subset.refl _) h
      · obtain ⟨x, -, rfl⟩ := List.mem_map.1 h
        exact .inl rfl
    · exact missesIn_namedFaults h
  | type, .int _ _, h => missesIn_namedFaults h
  | type, .float _ _, h => missesIn_namedFaults h
  | type, .string _ _, h => missesIn_namedFaults h
  | type, .boolean _ _, h => missesIn_namedFaults h
  | type, .enum _ _, h => missesIn_namedFaults h

theorem missesIn_itemFaults {type item : TypeRef} {all : List Value} {span : Span}
    (hitem : type.itemType? = some item) : ∀ items : List Value, items ⊆ all → d ∈ itemFaults schema s item items →
      MissesIn schema s type (.list all span) d
  | [], _, h => absurd h List.not_mem_nil
  | value :: items, hall, h => by
    rw [itemFaults, List.mem_append] at h
    rcases h with h | h
    · exact (missesIn_valueFaults item value h).imp (.inItem hitem (hall List.mem_cons_self))
    · exact missesIn_itemFaults hitem items (List.subset_of_cons_subset hall) h

theorem missesIn_fieldFaults {type : TypeRef} {object : String} {inputs : Inputs} {all : List (Name × Value)}
    {span : Span} (htype : schema.type? type.baseName = some (.inputObject object inputs)) :
    ∀ fields : List (Name × Value), fields ⊆ all → d ∈ fieldFaults schema s object inputs fields →
      MissesIn schema s type (.object all span) d
  | [], _, h => absurd h List.not_mem_nil
  | (name, value) :: fields, hall, h => by
    rw [fieldFaults, List.mem_append] at h
    rcases h with h | h
    · split at h
      · rename_i x hx
        exact (missesIn_valueFaults x.type value h).imp (.inField htype (hall List.mem_cons_self) hx)
      · rename_i hnone
        cases List.mem_singleton.1 h
        exact missesIn_suggest (.inputField htype (hall List.mem_cons_self) hnone)
    · exact missesIn_fieldFaults htype fields (List.subset_of_cons_subset hall) h

end

/-- What is missed inside a value of a definition is missed in the definition. -/
theorem MissesIn.misses {type : TypeRef} {value : Value} (h : MissesIn schema s type value d)
    (himp : ∀ {name candidates}, MissedIn schema type value name candidates →
      Missed schema s .invalidValue name candidates) : d.fix = none ∨ s.Misses schema d := by
  rcases h with hfix | ⟨hkind, name, candidates, hmissed, hreplaces⟩
  · exact .inl hfix
  · exact .inr ⟨name, candidates, hkind ▸ himp hmissed, hreplaces⟩

end Values

theorem proposes_correctValues : Proposes correctValues := by
  refine proposes_eachVisit fun cx s v hv f hf => ?_
  split at hf
  · obtain ⟨d, hd, rfl⟩ := List.mem_map.1 hf
    obtain ⟨value, hvalue, hd⟩ := List.mem_flatMap.1 hd
    exact ⟨d, rfl, (missesIn_valueFaults _ _ hd).misses (.inDefault hv (Option.mem_toList.1 hvalue))⟩
  · obtain ⟨d, hd, rfl⟩ := List.mem_map.1 hf
    exact ⟨d, rfl, (missesIn_valueFaults _ _ hd).misses (.inArgument hv)⟩
  · exact absurd hf List.not_mem_nil

/-! ## All rules -/

/-- What a structural rule proposes is for a missed name. -/
theorem proposes_structural {rule : Rule} (h : rule ∈ structuralRules) : Proposes rule := by
  simp only [structuralRules, List.mem_cons, List.not_mem_nil, or_false] at h
  rcases h with rfl | rfl | rfl | rfl | rfl | rfl | rfl | rfl
  · exact proposes_of_says says_loneAnonymous (by decide)
  · exact proposes_knownTypes
  · exact proposes_of_says says_compositeConditions (by decide)
  · exact proposes_of_says says_inputVariables (by decide)
  · exact proposes_of_says says_scalarLeafs (by decide)
  · exact proposes_of_says says_possibleSpreads (by decide)
  · exact proposes_correctValues
  · exact proposes_of_says says_variablePositions (by decide)

/-- What a global rule proposes is for a missed name. -/
theorem proposes_global {rule : Rule} (h : rule ∈ globalRules) : Proposes rule := by
  simp only [globalRules, List.mem_cons, List.not_mem_nil, or_false] at h
  rcases h with rfl | rfl | rfl | rfl | rfl | rfl | rfl | rfl | rfl | rfl | rfl | rfl | rfl | rfl | rfl
  · exact proposes_of_says says_uniqueOperationNames (by decide)
  · exact proposes_of_says says_singleRootField (by decide)
  · exact proposes_knownFields
  · exact proposes_of_says says_uniqueFragmentNames (by decide)
  · exact proposes_of_says says_acyclicFragments (by decide)
  · exact proposes_of_says says_uniqueVariables (by decide)
  · exact proposes_of_says says_definedVariables (by decide)
  · exact proposes_of_says says_usedVariables (by decide)
  · exact proposes_knownDirectives
  · exact proposes_of_says says_uniqueDirectives (by decide)
  · exact proposes_knownArguments
  · exact proposes_of_says says_uniqueArguments (by decide)
  · exact proposes_of_says says_requiredArguments (by decide)
  · exact proposes_of_says says_overlappingFields (by decide)
  · exact proposes_of_says says_uniqueInputFields (by decide)

end Rules

end QueryBatch
