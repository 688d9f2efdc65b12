import QueryBatch.Proofs.Rules.Overlap
import QueryBatch.Proofs.Rules.Rejection
import QueryBatch.Proofs.Rules.Spans
import QueryBatch.Rules.Validate

/-!
# Where diagnostics point

A diagnostic points to a place of a source. The source is that of a definition, and the place stands in the definition.

* `Diagnostic.points`: the places that a diagnostic points to, its own and the related ones.
* `Finding.Stands`: the places of a finding stand in definitions of the context.
* `Finding.Answers`: a finding points to the source of every definition that it rejects.
* `Grounded`: all findings of a rule do both. `grounded_structural`, `grounded_global`: so it is for all rules but two.
* `mem_singleRootField`: one of these points to fields of fragments as if they stood in the source of the operation.
* `exists_reported`: the other one reports a conflict once, whatever it is met in.
-/

namespace QueryBatch

/-- The places that a diagnostic points to: its own and the related ones. -/
def Diagnostic.points (d : Diagnostic) : List (Nat × Span) :=
  (d.source, d.span) :: d.related.map fun r => (r.source, r.span)

namespace Diagnostic

variable (d : Diagnostic)

@[simp] theorem points_of (source : Nat) (kind : Kind) (span : Span) :
    (of source kind span).points = [(source, span)] := rfl

@[simp] theorem points_withDetail (detail : String) : (d.withDetail detail).points = d.points := rfl

@[simp] theorem points_withFix (description replacement : String) :
    (d.withFix description replacement).points = d.points := rfl

@[simp] theorem points_withContext (key value : String) : (d.withContext key value).points = d.points := rfl

@[simp] theorem points_relatedTo (source : Nat) (span : Span) (message : String) :
    (d.relatedTo source span message).points = d.points ++ [(source, span)] := by
  unfold points relatedTo
  rw [List.map_append]
  rfl

theorem source_mem_points : (d.source, d.span) ∈ d.points := List.mem_cons_self

end Diagnostic

namespace Rules

@[simp] theorem points_diagnostic (s : Subject) (kind : Diagnostic.Kind) (span : Span) :
    (s.diagnostic kind span).points = [(s.source, span)] := rfl

@[simp] theorem points_suggest (d : Diagnostic) (name : String) (candidates : List String) :
    (suggest d name candidates).points = d.points := by
  unfold suggest
  split <;> rfl

/-! ## Findings -/

/-- The places of a finding stand in definitions of their sources. -/
def Finding.Stands (cx : Context) (f : Finding) : Prop :=
  ∀ d, f.diagnostic = some d → ∀ p ∈ d.points, ∃ t ∈ cx.subjects, t.source = p.1 ∧ p.2 ∈ t.definition.spans

/-- A finding says why it rejects definitions, and points to the source of each of them. -/
def Finding.Answers (cx : Context) (f : Finding) : Prop :=
  ∃ d, f.diagnostic = some d ∧
    ∀ owner ∈ f.rejected, ∃ t ∈ cx.subjects, t.owner = owner ∧ ∃ p ∈ d.points, p.1 = t.source

/-- All findings of a rule stand in definitions and answer for what they reject. -/
def Grounded (rule : Rule) : Prop := ∀ cx, ∀ f ∈ rule cx, f.Stands cx ∧ f.Answers cx

/-- All places of a diagnostic are in the source of a definition and among some spans. -/
def Subject.Marks (s : Subject) (spans : List Span) (d : Diagnostic) : Prop :=
  ∀ p ∈ d.points, p.1 = s.source ∧ p.2 ∈ spans

/-- A finding rejects a definition for a diagnostic among some spans. -/
def Subject.RejectedIn (s : Subject) (spans : List Span) (f : Finding) : Prop :=
  ∃ d, f = s.rejectedFor d ∧ s.Marks spans d

section Marks

variable {s : Subject} {spans : List Span} {d : Diagnostic} {f : Finding}

theorem marks_diagnostic {kind : Diagnostic.Kind} {span : Span} (h : span ∈ spans) :
    s.Marks spans (s.diagnostic kind span) := by
  intro p hp
  cases List.mem_singleton.1 hp
  exact ⟨rfl, h⟩

theorem Subject.Marks.withDetail (h : s.Marks spans d) {detail : String} : s.Marks spans (d.withDetail detail) := h

theorem Subject.Marks.suggest (h : s.Marks spans d) {name : String} {candidates : List String} :
    s.Marks spans (Rules.suggest d name candidates) := by
  unfold Subject.Marks
  rw [points_suggest]
  exact h

theorem Subject.Marks.relatedTo (h : s.Marks spans d) {span : Span} (hspan : span ∈ spans) {message : String} :
    s.Marks spans (d.relatedTo s.source span message) := by
  intro p hp
  rw [Diagnostic.points_relatedTo] at hp
  rcases List.mem_append.1 hp with hp | hp
  · exact h p hp
  · cases List.mem_singleton.1 hp
    exact ⟨rfl, hspan⟩

theorem Subject.Marks.mono {more : List Span} (h : s.Marks spans d) (hsub : spans ⊆ more) : s.Marks more d :=
  fun p hp => (h p hp).imp_right fun hspan => hsub hspan

theorem rejectedIn_of_mem_singleton (h : f ∈ [s.rejectedFor d]) (hd : s.Marks spans d) : s.RejectedIn spans f :=
  ⟨d, List.mem_singleton.1 h, hd⟩

theorem rejectedIn_of_mem_map {α : Type} {d : α → Diagnostic} {as : List α}
    (h : f ∈ as.map fun a => s.rejectedFor (d a)) (hd : ∀ a ∈ as, s.Marks spans (d a)) : s.RejectedIn spans f := by
  obtain ⟨a, ha, rfl⟩ := List.mem_map.1 h
  exact ⟨d a, rfl, hd a ha⟩

theorem rejectedIn_of_mem_nil (h : f ∈ ([] : List Finding)) : s.RejectedIn spans f := absurd h List.not_mem_nil

/-- A finding that rejects one definition stands and answers if all its places do, and one is in the source of the
definition. -/
theorem grounded_rejectedFor {cx : Context} (hs : s ∈ cx.subjects)
    (hstands : ∀ p ∈ d.points, ∃ t ∈ cx.subjects, t.source = p.1 ∧ p.2 ∈ t.definition.spans)
    (hown : ∃ p ∈ d.points, p.1 = s.source) : (s.rejectedFor d).Stands cx ∧ (s.rejectedFor d).Answers cx := by
  constructor
  · rintro _ ⟨⟩
    exact hstands
  · refine ⟨d, rfl, fun owner howner => ⟨s, hs, ?_, hown⟩⟩
    exact (List.mem_singleton.1 howner).symm

theorem Subject.RejectedIn.grounded {cx : Context} (hs : s ∈ cx.subjects) (h : s.RejectedIn s.definition.spans f) :
    f.Stands cx ∧ f.Answers cx := by
  obtain ⟨d, rfl, hd⟩ := h
  refine grounded_rejectedFor hs (fun p hp => ?_) ⟨_, d.source_mem_points, (hd _ d.source_mem_points).1⟩
  exact ⟨s, hs, (hd p hp).1.symm, (hd p hp).2⟩

/-- A rule on visits is grounded if it points to what is visited. -/
theorem grounded_eachVisit {look : Context → Subject → Visit → List Finding}
    (h : ∀ cx s v, ∀ f ∈ look cx s v, s.RejectedIn v.spans f) : Grounded (eachVisit look) := by
  intro cx f hf
  obtain ⟨⟨s, v⟩, hv, hf⟩ := List.mem_flatMap.1 hf
  obtain ⟨hs, hv⟩ := mem_visits.1 hv
  obtain ⟨d, rfl, hd⟩ := h cx s v f hf
  exact Subject.RejectedIn.grounded hs ⟨d, rfl, hd.mono (spans_visits hv)⟩

/-- A rule on operations is grounded if it points to the operation. -/
theorem grounded_onOperations {look : Context → Subject × Operation → List Finding}
    (h : ∀ cx s op, s ∈ cx.subjects → s.definition.operation? = some op → ∀ f ∈ look cx (s, op),
      f.Stands cx ∧ f.Answers cx) : Grounded fun cx => cx.operations.flatMap (look cx) := by
  intro cx f hf
  obtain ⟨⟨s, op⟩, hop, hf⟩ := List.mem_flatMap.1 hf
  obtain ⟨hs, hd⟩ := Context.mem_operations.1 hop
  exact h cx s op hs hd f hf

end Marks

theorem mem_repeats {α : Type} {key : α → String} {as : List α} {x : α × α} (h : x ∈ repeats key as) :
    x.1 ∈ as ∧ x.2 ∈ as := by
  obtain ⟨-, hsecond, hfirst⟩ := sublist_of_mem_repeatsAfter h
  refine ⟨?_, hsecond⟩
  exact (hfirst.resolve_left List.not_mem_nil).subset List.mem_cons_self

/-! ## Rules on visits -/

theorem grounded_knownFields : Grounded knownFields := by
  apply grounded_eachVisit
  intro cx s v f hf
  dsimp only at hf
  split at hf
  · refine rejectedIn_of_mem_singleton hf (marks_diagnostic ?_).withDetail.suggest
    simp [Visit.spans, Field.spans]
  · exact rejectedIn_of_mem_nil hf

theorem grounded_scalarLeafs : Grounded scalarLeafs := by
  apply grounded_eachVisit
  intro cx s v f hf
  split at hf
  · split at hf
    · split at hf
      · refine rejectedIn_of_mem_singleton hf (marks_diagnostic ?_).withDetail
        simp [Visit.spans, SelectionSet.spans]
      · exact rejectedIn_of_mem_nil hf
    · split at hf
      · exact rejectedIn_of_mem_nil hf
      · refine rejectedIn_of_mem_singleton hf (marks_diagnostic ?_).withDetail
        simp [Visit.spans, Field.spans]
    · exact rejectedIn_of_mem_nil hf
  · exact rejectedIn_of_mem_nil hf

theorem grounded_possibleSpreads : Grounded possibleSpreads := by
  apply grounded_eachVisit
  intro cx s v f hf
  dsimp only at hf
  split at hf
  · split at hf
    · split at hf
      · exact rejectedIn_of_mem_nil hf
      · refine rejectedIn_of_mem_singleton hf (marks_diagnostic ?_).withDetail
        simp [Visit.spans, Inline.spans]
    · exact rejectedIn_of_mem_nil hf
  · split at hf
    · split at hf
      · exact rejectedIn_of_mem_nil hf
      · refine rejectedIn_of_mem_singleton hf (marks_diagnostic ?_).withDetail
        simp [Visit.spans, Spread.spans]
    · exact rejectedIn_of_mem_nil hf
  · exact rejectedIn_of_mem_nil hf

/-! ### Types -/

theorem marks_ofName {cx : Context} {s : Subject} {spans : List Span} {name : Name} (h : name.span ∈ spans)
    {d : Diagnostic} (hd : d ∈ unknownTypesAt.ofName cx s name) : s.Marks spans d := by
  unfold unknownTypesAt.ofName at hd
  split at hd
  · exact absurd hd List.not_mem_nil
  · cases List.mem_singleton.1 hd
    exact (marks_diagnostic h).withDetail.suggest

theorem grounded_knownTypes : Grounded knownTypes := by
  apply grounded_eachVisit
  intro cx s v f hf
  refine rejectedIn_of_mem_map (d := id) hf fun d hd => ?_
  unfold unknownTypesAt at hd
  split at hd
  · exact marks_ofName (by simp [Visit.spans, Fragment.spans]) hd
  · rename_i i
    obtain ⟨name, hname, hd⟩ := List.mem_flatMap.1 hd
    refine marks_ofName ?_ hd
    exact List.mem_append_left _ (List.mem_cons_of_mem _ (List.mem_map_of_mem hname))
  · rename_i v
    dsimp only at hd
    split at hd
    · exact absurd hd List.not_mem_nil
    · split at hd
      · rename_i hbase
        cases List.mem_singleton.1 hd
        refine (marks_diagnostic ?_).withDetail.suggest
        have hmem : (⟨v.typeSpan.start, v.typeSpan.start + v.type.baseName.utf8ByteSize⟩ : Span) ∈ v.baseSpans := by
          unfold VariableDefinition.baseSpans
          rw [hbase]
          exact List.mem_singleton_self _
        simp [Visit.spans, VariableDefinition.spans, hmem]
      · cases List.mem_singleton.1 hd
        refine (marks_diagnostic ?_).withDetail
        simp [Visit.spans, VariableDefinition.spans]
  · exact absurd hd List.not_mem_nil

theorem grounded_compositeConditions : Grounded compositeConditions := by
  apply grounded_eachVisit
  intro cx s v f hf
  split at hf
  · split at hf
    · refine rejectedIn_of_mem_singleton hf (marks_diagnostic ?_).withDetail
      simp [Visit.spans, Fragment.spans]
    · exact rejectedIn_of_mem_nil hf
  · refine rejectedIn_of_mem_map hf fun name hname => (marks_diagnostic ?_).withDetail
    exact List.mem_append_left _ (List.mem_cons_of_mem _ (List.mem_map_of_mem (List.mem_filter.1 hname).1))
  · exact rejectedIn_of_mem_nil hf

theorem grounded_inputVariables : Grounded inputVariables := by
  apply grounded_eachVisit
  intro cx s v f hf
  split at hf
  · split at hf
    · refine rejectedIn_of_mem_singleton hf (marks_diagnostic ?_).withDetail
      simp [Visit.spans, VariableDefinition.spans]
    · exact rejectedIn_of_mem_nil hf
  · exact rejectedIn_of_mem_nil hf

/-! ### Values -/

section Values

variable {schema : Schema} {s : Subject} {d : Diagnostic}

theorem marks_scalarFaults {scalar : String} {value : Value} (h : d ∈ scalarFaults s scalar value) :
    s.Marks value.spans d := by
  unfold scalarFaults at h
  split at h
  · split at h
    · exact absurd h List.not_mem_nil
    · cases List.mem_singleton.1 h
      exact (marks_diagnostic (List.mem_singleton_self _)).withDetail
  · split at h
    · exact absurd h List.not_mem_nil
    · cases List.mem_singleton.1 h
      exact (marks_diagnostic value.span_mem_spans).withDetail

theorem marks_enumFaults {type : String} {values : List String} {value : Value}
    (h : d ∈ enumFaults s type values value) : s.Marks value.spans d := by
  unfold enumFaults at h
  split at h
  · split at h
    · exact absurd h List.not_mem_nil
    · cases List.mem_singleton.1 h
      exact (marks_diagnostic (List.mem_singleton_self _)).withDetail.suggest
  · cases List.mem_singleton.1 h
    exact (marks_diagnostic value.span_mem_spans).withDetail

theorem marks_namedFaults {name : String} {value : Value} (h : d ∈ namedFaults schema s name value) :
    s.Marks value.spans d := by
  unfold namedFaults at h
  split at h
  · exact marks_scalarFaults h
  · exact marks_enumFaults h
  · cases List.mem_singleton.1 h
    exact (marks_diagnostic value.span_mem_spans).withDetail
  · exact absurd h List.not_mem_nil

mutual

theorem marks_valueFaults : ∀ (type : TypeRef) (value : Value), d ∈ valueFaults schema s type value →
    s.Marks value.spans d
  | _, .variable _ _, h => absurd h List.not_mem_nil
  | type, .null span, h => by
    rw [valueFaults] at h
    split at h
    · cases List.mem_singleton.1 h
      exact (marks_diagnostic (List.mem_singleton_self _)).withDetail
    · exact absurd h List.not_mem_nil
  | type, .list items span, h => by
    rw [valueFaults] at h
    split at h
    · exact (marks_itemFaults _ items h).mono (List.subset_cons_self _ _)
    · exact marks_namedFaults h
  | type, .object fields span, h => by
    rw [valueFaults] at h
    split at h
    · rcases List.mem_append.1 h with h | h
      · exact (marks_fieldFaults _ _ fields h).mono (List.subset_cons_self _ _)
      · obtain ⟨_, -, rfl⟩ := List.mem_map.1 h
        exact (marks_diagnostic List.mem_cons_self).withDetail
    · exact marks_namedFaults h
  | _, .int _ _, h | _, .float _ _, h | _, .string _ _, h | _, .boolean _ _, h | _, .enum _ _, h => by
    simp only [valueFaults] at h
    exact marks_namedFaults h

theorem marks_itemFaults : ∀ (type : TypeRef) (items : List Value), d ∈ itemFaults schema s type items →
    s.Marks (Value.spansInItems items) d
  | _, [], h => absurd h List.not_mem_nil
  | type, item :: items, h => by
    rcases List.mem_append.1 h with h | h
    · exact (marks_valueFaults type item h).mono (List.subset_append_left _ _)
    · exact (marks_itemFaults type items h).mono (List.subset_append_right _ _)

theorem marks_fieldFaults : ∀ (object : String) (inputs : Inputs) (fields : List (Name × Value)),
    d ∈ fieldFaults schema s object inputs fields → s.Marks (Value.spansInFields fields) d
  | _, _, [], h => absurd h List.not_mem_nil
  | object, inputs, (name, value) :: fields, h => by
    rw [Value.spansInFields, List.cons_append]
    rcases List.mem_append.1 h with h | h
    · split at h
      · exact (marks_valueFaults _ value h).mono fun _ hspan =>
          List.mem_cons_of_mem _ (List.mem_append_left _ hspan)
      · cases List.mem_singleton.1 h
        exact (marks_diagnostic List.mem_cons_self).withDetail.suggest
    · exact (marks_fieldFaults object inputs fields h).mono fun _ hspan =>
        List.mem_cons_of_mem _ (List.mem_append_right _ hspan)

end

theorem marks_repeatedFields {fields : List (Name × Value)} (h : d ∈ repeatedFields s (fields.map Prod.fst)) :
    s.Marks (Value.spansInFields fields) d := by
  obtain ⟨⟨first, name⟩, hx, rfl⟩ := List.mem_map.1 h
  obtain ⟨hfirst, hsecond⟩ := mem_repeats hx
  obtain ⟨a, ha, rfl⟩ := List.mem_map.1 hfirst
  obtain ⟨b, hb, rfl⟩ := List.mem_map.1 hsecond
  exact (marks_diagnostic (Value.name_mem_spansInFields hb)).withDetail.relatedTo (Value.name_mem_spansInFields ha)

mutual

theorem marks_repeatedFieldsIn : ∀ value : Value, d ∈ repeatedFieldsIn s value → s.Marks value.spans d
  | .list items span, h => (marks_repeatedFieldsInItems items h).mono (List.subset_cons_self _ _)
  | .object fields span, h => by
    rcases List.mem_append.1 h with h | h
    · exact (marks_repeatedFields h).mono (List.subset_cons_self _ _)
    · exact (marks_repeatedFieldsInFields fields h).mono (List.subset_cons_self _ _)
  | .variable _ _, h | .int _ _, h | .float _ _, h | .string _ _, h | .boolean _ _, h | .null _, h
  | .enum _ _, h => absurd h List.not_mem_nil

theorem marks_repeatedFieldsInItems : ∀ items : List Value, d ∈ repeatedFieldsInItems s items →
    s.Marks (Value.spansInItems items) d
  | [], h => absurd h List.not_mem_nil
  | item :: items, h => by
    rcases List.mem_append.1 h with h | h
    · exact (marks_repeatedFieldsIn item h).mono (List.subset_append_left _ _)
    · exact (marks_repeatedFieldsInItems items h).mono (List.subset_append_right _ _)

theorem marks_repeatedFieldsInFields : ∀ fields : List (Name × Value), d ∈ repeatedFieldsInFields s fields →
    s.Marks (Value.spansInFields fields) d
  | [], h => absurd h List.not_mem_nil
  | (name, value) :: fields, h => by
    rw [Value.spansInFields, List.cons_append]
    rcases List.mem_append.1 h with h | h
    · exact (marks_repeatedFieldsIn value h).mono fun _ hspan =>
        List.mem_cons_of_mem _ (List.mem_append_left _ hspan)
    · exact (marks_repeatedFieldsInFields fields h).mono fun _ hspan =>
        List.mem_cons_of_mem _ (List.mem_append_right _ hspan)

end

end Values

theorem defaultValue_spans {v : VariableDefinition} {value : Value} (h : value ∈ v.defaultValue.toList) :
    value.spans ⊆ v.spans := fun _ hspan =>
  List.mem_append_left _ (List.mem_append_right _ (List.mem_flatMap.2 ⟨value, h, hspan⟩))

theorem value_spans (a : Argument) : a.value.spans ⊆ a.spans := fun _ hspan =>
  List.mem_cons_of_mem _ (List.mem_cons_of_mem _ hspan)

theorem grounded_correctValues : Grounded correctValues := by
  apply grounded_eachVisit
  intro cx s v f hf
  split at hf
  · refine rejectedIn_of_mem_map (d := id) hf fun d hd => ?_
    obtain ⟨value, hvalue, hd⟩ := List.mem_flatMap.1 hd
    exact (marks_valueFaults _ value hd).mono (defaultValue_spans hvalue)
  · refine rejectedIn_of_mem_map (d := id) hf fun d hd => ?_
    exact (marks_valueFaults _ _ hd).mono (value_spans _)
  · exact rejectedIn_of_mem_nil hf

theorem grounded_uniqueInputFields : Grounded uniqueInputFields := by
  apply grounded_eachVisit
  intro cx s v f hf
  cases v with
  | variableDefinition v =>
    refine rejectedIn_of_mem_map (d := id) hf fun d hd => ?_
    obtain ⟨value, hvalue, hd⟩ := List.mem_flatMap.1 hd
    exact (marks_repeatedFieldsIn value hd).mono (defaultValue_spans hvalue)
  | argument site a declared =>
    refine rejectedIn_of_mem_map (d := id) hf fun d hd => ?_
    exact (marks_repeatedFieldsIn a.value hd).mono (value_spans a)
  | _ => exact rejectedIn_of_mem_nil hf

/-! ### Directives and arguments -/

theorem directive_span_mem {directives : List Directive} {d : Directive} (h : d ∈ directives) :
    d.span ∈ directives.flatMap Directive.spans ∧ d.name.span ∈ directives.flatMap Directive.spans :=
  ⟨List.mem_flatMap.2 ⟨d, h, List.mem_cons_of_mem _ List.mem_cons_self⟩, List.mem_flatMap.2 ⟨d, h, List.mem_cons_self⟩⟩

theorem argument_name_mem {site : ArgumentSite} {arguments : List Argument} {a : Argument} (h : a ∈ arguments) :
    a.name.span ∈ (Visit.arguments site arguments).spans :=
  List.mem_cons_of_mem _ (List.mem_flatMap.2 ⟨a, h, List.mem_cons_self⟩)

theorem grounded_knownDirectives : Grounded knownDirectives := by
  apply grounded_eachVisit
  intro cx s v f hf
  cases v with
  | directives location directives =>
    obtain ⟨d, hd, hf⟩ := List.mem_flatMap.1 hf
    dsimp only at hf
    split at hf
    · exact rejectedIn_of_mem_singleton hf (marks_diagnostic (directive_span_mem hd).2).withDetail.suggest
    · split at hf
      · exact rejectedIn_of_mem_nil hf
      · exact rejectedIn_of_mem_singleton hf (marks_diagnostic (directive_span_mem hd).1).withDetail
  | _ => exact rejectedIn_of_mem_nil hf

theorem grounded_uniqueDirectives : Grounded uniqueDirectives := by
  apply grounded_eachVisit
  intro cx s v f hf
  cases v with
  | directives location directives =>
    refine rejectedIn_of_mem_map hf fun x hx => ?_
    obtain ⟨hfirst, hsecond⟩ := mem_repeats hx
    exact (marks_diagnostic (directive_span_mem (List.mem_filter.1 hsecond).1).1).withDetail.relatedTo
      (directive_span_mem (List.mem_filter.1 hfirst).1).1
  | _ => exact rejectedIn_of_mem_nil hf

theorem grounded_knownArguments : Grounded knownArguments := by
  apply grounded_eachVisit
  intro cx s v f hf
  cases v with
  | arguments site arguments =>
    dsimp only at hf
    split at hf
    · refine rejectedIn_of_mem_map hf fun a ha => ?_
      exact (marks_diagnostic (argument_name_mem (List.mem_filter.1 ha).1)).withDetail.suggest
    · exact rejectedIn_of_mem_nil hf
  | _ => exact rejectedIn_of_mem_nil hf

theorem grounded_uniqueArguments : Grounded uniqueArguments := by
  apply grounded_eachVisit
  intro cx s v f hf
  cases v with
  | arguments site arguments =>
    refine rejectedIn_of_mem_map hf fun x hx => ?_
    obtain ⟨hfirst, hsecond⟩ := mem_repeats hx
    exact (marks_diagnostic (argument_name_mem hsecond)).withDetail.relatedTo (argument_name_mem hfirst)
  | _ => exact rejectedIn_of_mem_nil hf

theorem grounded_requiredArguments : Grounded requiredArguments := by
  apply grounded_eachVisit
  intro cx s v f hf
  cases v with
  | arguments site arguments =>
    dsimp only at hf
    split at hf
    · exact rejectedIn_of_mem_map hf fun _ _ => (marks_diagnostic List.mem_cons_self).withDetail
    · exact rejectedIn_of_mem_nil hf
  | _ => exact rejectedIn_of_mem_nil hf

/-! ## Rules on operations -/

theorem variable_spans {s : Subject} {op : Operation} (hd : s.definition.operation? = some op) {v : VariableDefinition}
    (hv : v ∈ op.variableDefinitions) : v.spans ⊆ s.definition.spans := by
  cases hdef : s.definition with
  | operation op' =>
    rw [hdef] at hd
    cases hd
    exact fun _ hspan => List.mem_append_left _ (List.mem_append_left _ (List.mem_append_right _
      (List.mem_flatMap.2 ⟨v, hv, hspan⟩)))
  | fragment frag =>
    rw [hdef] at hd
    cases hd

theorem operationName_span {s : Subject} {op : Operation} (hd : s.definition.operation? = some op) {name : Name}
    (hname : op.name = some name) : name.span ∈ s.definition.spans := by
  cases hdef : s.definition with
  | operation op' =>
    rw [hdef] at hd
    cases hd
    simp [Definition.spans, Operation.spans, hname]
  | fragment frag =>
    rw [hdef] at hd
    cases hd

theorem grounded_loneAnonymous : Grounded loneAnonymous := by
  intro cx f hf
  unfold loneAnonymous at hf
  split at hf
  · exact absurd hf List.not_mem_nil
  · obtain ⟨⟨s, op⟩, hop, rfl⟩ := List.mem_map.1 hf
    obtain ⟨hs, hd⟩ := Context.mem_operations.1 (List.mem_filter.1 hop).1
    exact Subject.RejectedIn.grounded hs ⟨_, rfl, (marks_diagnostic (Definition.headSpan_mem_spans hd)).withDetail⟩

theorem mem_namedOperations {cx : Context} {s : Subject} {name : Name} (h : (s, name) ∈ namedOperations cx) :
    s ∈ cx.subjects ∧ name.span ∈ s.definition.spans := by
  obtain ⟨⟨s', op⟩, hop, he⟩ := List.mem_filterMap.1 h
  obtain ⟨name', hname, he⟩ := Option.map_eq_some_iff.1 he
  cases he
  obtain ⟨hs, hd⟩ := Context.mem_operations.1 hop
  exact ⟨hs, operationName_span hd hname⟩

theorem grounded_uniqueOperationNames : Grounded uniqueOperationNames := by
  intro cx f hf
  obtain ⟨⟨⟨first, firstName⟩, s, name⟩, hx, rfl⟩ := List.mem_map.1 hf
  obtain ⟨hfirst, hsecond⟩ := mem_repeats hx
  obtain ⟨hfs, hfspan⟩ := mem_namedOperations hfirst
  obtain ⟨hs, hspan⟩ := mem_namedOperations hsecond
  refine grounded_rejectedFor hs (fun p hp => ?_) ⟨_, Diagnostic.source_mem_points _, rfl⟩
  simp only [Diagnostic.points_relatedTo, Diagnostic.points_withDetail, points_diagnostic, List.cons_append,
    List.nil_append, List.mem_cons, List.not_mem_nil, or_false] at hp
  rcases hp with rfl | rfl
  · exact ⟨s, hs, rfl, hspan⟩
  · exact ⟨first, hfs, rfl, hfspan⟩

theorem grounded_uniqueVariables : Grounded uniqueVariables := by
  apply grounded_onOperations
  intro cx s op hs hd f hf
  refine Subject.RejectedIn.grounded hs (rejectedIn_of_mem_map hf fun x hx => ?_)
  obtain ⟨hfirst, hsecond⟩ := mem_repeats hx
  exact (marks_diagnostic (variable_spans hd hsecond List.mem_cons_self)).withDetail.relatedTo
    (variable_spans hd hfirst List.mem_cons_self)

theorem grounded_usedVariables : Grounded usedVariables := by
  apply grounded_onOperations
  intro cx s op hs hd f hf
  refine Subject.RejectedIn.grounded hs (rejectedIn_of_mem_map hf fun v hv => ?_)
  exact (marks_diagnostic (variable_spans hd (List.mem_filter.1 hv).1 List.mem_cons_self)).withDetail

/-- A diagnostic at the use of a variable, with a place of the operation beside it, stands and answers. -/
theorem grounded_usage {cx : Context} {s : Subject} {op : Operation} (hs : s ∈ cx.subjects) {u : Usage}
    (hu : u ∈ usagesOf cx s op) {kind : Diagnostic.Kind} {detail message : String} {span : Span}
    (hspan : span ∈ s.definition.spans) :
    (s.rejectedFor (((u.subject.diagnostic kind u.span).withDetail detail).relatedTo s.source span message)).Stands cx ∧
      (s.rejectedFor (((u.subject.diagnostic kind u.span).withDetail detail).relatedTo s.source span
        message)).Answers cx := by
  obtain ⟨hus, huspan⟩ := usagesOf_spans hs hu
  refine grounded_rejectedFor hs (fun p hp => ?_) ⟨(s.source, span), ?_, rfl⟩
  · simp only [Diagnostic.points_relatedTo, Diagnostic.points_withDetail, points_diagnostic, List.cons_append,
      List.nil_append, List.mem_cons, List.not_mem_nil, or_false] at hp
    rcases hp with rfl | rfl
    · exact ⟨u.subject, hus, rfl, huspan⟩
    · exact ⟨s, hs, rfl, hspan⟩
  · rw [Diagnostic.points_relatedTo]
    exact List.mem_append_right _ (List.mem_singleton_self _)

theorem distinctUsages_subset (done : List (String × Nat × Span)) (us : List Usage) : distinctUsages done us ⊆ us := by
  induction us generalizing done with
  | nil => exact List.Subset.refl _
  | cons u rest ih =>
    rw [distinctUsages]
    split
    · exact List.Subset.trans (ih done) (List.subset_cons_self _ _)
    · exact List.cons_subset_cons u (ih _)

theorem grounded_definedVariables : Grounded definedVariables := by
  apply grounded_onOperations
  intro cx s op hs hd f hf
  obtain ⟨u, hu, rfl⟩ := List.mem_map.1 hf
  have hmem := (List.mem_filter.1 (distinctUsages_subset _ _ hu)).1
  exact grounded_usage hs hmem (Definition.headSpan_mem_spans hd)

theorem grounded_variablePositions : Grounded variablePositions := by
  apply grounded_onOperations
  intro cx s op hs hd f hf
  obtain ⟨u, hu, hf⟩ := List.mem_filterMap.1 hf
  split at hf
  · rename_i v expected hv _
    split at hf
    · cases hf
    · cases hf
      refine grounded_usage hs hu (variable_spans hd (List.mem_reverse.1 (List.mem_of_find?_eq_some hv)) ?_)
      exact List.mem_cons_of_mem _ (List.mem_cons_of_mem _ List.mem_cons_self)
  · cases hf

/-! ## Rules on fragments -/

theorem fragmentName_span {cx : Context} {s : Subject} {frag : Fragment} (h : (s, frag) ∈ cx.fragments) :
    s ∈ cx.subjects ∧ frag.name.span ∈ s.definition.spans := by
  obtain ⟨hs, hd⟩ := Context.mem_fragments.1 h
  refine ⟨hs, ?_⟩
  cases hdef : s.definition with
  | operation op =>
    rw [hdef] at hd
    cases hd
  | fragment frag' =>
    rw [hdef] at hd
    cases hd
    exact List.mem_cons_self

theorem grounded_uniqueFragmentNames : Grounded uniqueFragmentNames := by
  intro cx f hf
  obtain ⟨⟨⟨first, firstFrag⟩, s, frag⟩, hx, rfl⟩ := List.mem_map.1 hf
  obtain ⟨hfirst, hsecond⟩ := mem_repeats hx
  obtain ⟨hfs, hfspan⟩ := fragmentName_span hfirst
  obtain ⟨hs, hspan⟩ := fragmentName_span hsecond
  constructor
  · rintro _ ⟨⟩ p hp
    simp only [Diagnostic.points_relatedTo, Diagnostic.points_withDetail, points_diagnostic, List.cons_append,
      List.nil_append, List.mem_cons, List.not_mem_nil, or_false] at hp
    rcases hp with rfl | rfl
    · exact ⟨s, hs, rfl, hspan⟩
    · exact ⟨first, hfs, rfl, hfspan⟩
  · refine ⟨_, rfl, fun owner howner => ?_⟩
    rw [Diagnostic.points_relatedTo]
    rcases List.mem_cons.1 howner with rfl | howner
    · exact ⟨s, hs, rfl, _, List.mem_append_left _ (Diagnostic.source_mem_points _), rfl⟩
    · cases List.mem_singleton.1 howner
      exact ⟨first, hfs, rfl, _, List.mem_append_right _ (List.mem_singleton_self _), rfl⟩

/-- The places of the diagnostic for a cycle are those of the spreads on it. -/
theorem points_cycleFinding (first : Step) (rest : List Step) : ∃ d, (cycleFinding first rest).diagnostic = some d ∧
    d.points = (first :: rest).map fun step => (step.subject.source, step.spread.span) := by
  refine ⟨_, diagnostic_cycleFinding first rest, ?_⟩
  change (first.subject.source, first.spread.span) :: (rest.map Step.related).map _ = _
  rw [List.map_map]
  rfl

theorem grounded_acyclicFragments : Grounded acyclicFragments := by
  intro cx f hf
  obtain ⟨first, rest, hcycle, rfl⟩ := mem_acyclicFragments.1 hf
  obtain ⟨d, hd, hpoints⟩ := points_cycleFinding first rest
  have hspans := spans_of_mem_cycles hcycle
  constructor
  · intro d' hd' p hp
    cases hd.symm.trans hd'
    rw [hpoints] at hp
    obtain ⟨step, hstep, rfl⟩ := List.mem_map.1 hp
    obtain ⟨hs, hspread⟩ := hspans step hstep
    exact ⟨step.subject, hs, rfl, Definition.spread_subset_spans hspread List.mem_cons_self⟩
  · refine ⟨d, hd, fun owner howner => ?_⟩
    obtain ⟨step, hstep, rfl⟩ := List.mem_map.1 howner
    refine ⟨step.subject, (hspans step hstep).1, rfl, (step.subject.source, step.spread.span), ?_, rfl⟩
    rw [hpoints]
    exact List.mem_map_of_mem hstep

/-! ## Subscriptions -/

/-- The top-level fields that do not fit are fields of the expansion of the operation. -/
theorem exists_of_mem_extraRootFields {cx : Context} {s : Subject} {op : Operation} {f : Field}
    (h : f ∈ extraRootFields cx s op) : ∃ p ∈ (cx.expand s none op.body []).1, p.field = f := by
  unfold extraRootFields at h
  split at h
  · exact absurd h List.not_mem_nil
  · rename_i first rest hfields
    refine List.mem_map.1 ?_
    rw [hfields]
    exact List.mem_cons_of_mem _ (List.mem_filter.1 h).1

/-- The span that holds all of some fields. -/
def coverAll (extra : Field) (more : List Field) : Span := more.foldl (fun span f => span.cover f.span) extra.span

/-- The rule on subscriptions points to the fields that do not fit, in the source of the operation. -/
theorem mem_singleRootField {cx : Context} {f : Finding} (h : f ∈ singleRootField cx) :
    ∃ s op extra more d, (s, op) ∈ cx.operations ∧ op.kind = .subscription ∧ extraRootFields cx s op = extra :: more ∧
      f = s.rejectedFor d ∧ d.kind = .subscriptionMultipleRootFields ∧
      d.points = [(s.source, coverAll extra more)] := by
  obtain ⟨⟨s, op⟩, hop, h⟩ := List.mem_filterMap.1 h
  dsimp only at h
  split at h
  · rename_i extra more hkind hextra
    cases h
    exact ⟨s, op, extra, more, _, hop, hkind, hextra, rfl, rfl, rfl⟩
  · cases h

theorem answers_singleRootField {cx : Context} {f : Finding} (h : f ∈ singleRootField cx) : f.Answers cx := by
  obtain ⟨s, op, extra, more, d, hop, -, -, rfl, -, hpoints⟩ := mem_singleRootField h
  refine ⟨d, rfl, fun owner howner => ?_⟩
  cases List.mem_singleton.1 howner
  refine ⟨s, (Context.mem_operations.1 hop).1, rfl, (s.source, coverAll extra more), ?_, rfl⟩
  rw [hpoints]
  exact List.mem_singleton_self _

/-! ## Conflicts -/

section Conflicts

variable {cx : Context} {s : Subject} {c : Conflict}

@[simp] theorem points_conflict (c : Conflict) : c.diagnostic.points =
    [(c.second.subject.source, c.second.field.span), (c.first.subject.source, c.first.field.span)] := rfl

/-- The fields of a conflict stand in definitions of the context. -/
theorem conflict_spans (h : (s, c) ∈ conflicts cx) :
    (c.first.subject ∈ cx.subjects ∧ c.first.field.span ∈ c.first.subject.definition.spans) ∧
      c.second.subject ∈ cx.subjects ∧ c.second.field.span ∈ c.second.subject.definition.spans := by
  obtain ⟨parent, set, group, hv, hgroup, hab, -⟩ := mem_conflicts.1 h
  obtain ⟨ha, hb⟩ := mem_orderedPairs hab
  have hspan : ∀ f : Field, f.span ∈ f.spans := fun f => by simp [Field.spans]
  refine ⟨?_, ?_⟩
  · exact (expand_spans hv (mem_grouped hgroup ha)).imp_right fun hsub => hsub (hspan _)
  · exact (expand_spans hv (mem_grouped hgroup hb)).imp_right fun hsub => hsub (hspan _)

theorem exists_of_diagnostic {found : List (Subject × Conflict)} {reported : List ((Owner × Span) × (Owner × Span))}
    {f : Finding} (hf : f ∈ conflictFindings reported found) {d : Diagnostic} (hd : f.diagnostic = some d) :
    ∃ x ∈ found, d = x.2.diagnostic := by
  induction found generalizing reported with
  | nil => exact absurd hf List.not_mem_nil
  | cons x rest ih =>
    obtain ⟨s, c⟩ := x
    rw [conflictFindings] at hf
    split at hf
    · rcases List.mem_cons.1 hf with rfl | hf
      · cases hd
      · obtain ⟨x, hx, he⟩ := ih hf
        exact ⟨x, List.mem_cons_of_mem _ hx, he⟩
    · rcases List.mem_cons.1 hf with rfl | hf
      · cases hd
        exact ⟨(s, c), List.mem_cons_self, rfl⟩
      · obtain ⟨x, hx, he⟩ := ih hf
        exact ⟨x, List.mem_cons_of_mem _ hx, he⟩

theorem stands_overlappingFields {f : Finding} (hf : f ∈ overlappingFields cx) : f.Stands cx := by
  intro d hd p hp
  obtain ⟨⟨s, c⟩, hc, rfl⟩ := exists_of_diagnostic hf hd
  obtain ⟨⟨hfirst, hfspan⟩, hsecond, hsspan⟩ := conflict_spans hc
  rw [points_conflict] at hp
  rcases List.mem_cons.1 hp with rfl | hp
  · exact ⟨_, hsecond, rfl, hsspan⟩
  · cases List.mem_singleton.1 hp
    exact ⟨_, hfirst, rfl, hfspan⟩

/-- Two conflicts are between the fields of the same places. -/
def Conflict.Repeats (c c' : Conflict) : Prop :=
  (c'.second.place, c'.first.place) = (c.second.place, c.first.place) ∨
    (c'.second.place, c'.first.place) = (c.first.place, c.second.place)

/-- Every conflict is reported, or one between the same places is, or was before. -/
theorem exists_conflictFindings {found : List (Subject × Conflict)} (h : (s, c) ∈ found)
    (reported : List ((Owner × Span) × (Owner × Span))) :
    (∃ x ∈ found, c.Repeats x.2 ∧ ∃ f ∈ conflictFindings reported found, f.diagnostic = some x.2.diagnostic) ∨
      (c.second.place, c.first.place) ∈ reported ∨ (c.first.place, c.second.place) ∈ reported := by
  induction found generalizing reported with
  | nil => exact absurd h List.not_mem_nil
  | cons y rest ih =>
    obtain ⟨s', c'⟩ := y
    rw [conflictFindings]
    split
    · rename_i hreported
      rcases List.mem_cons.1 h with he | h
      · cases he
        unfold wasReported at hreported
        rw [Bool.or_eq_true, List.contains_iff_mem, List.contains_iff_mem] at hreported
        exact .inr hreported
      · refine (ih h reported).imp_left ?_
        rintro ⟨x, hx, hrepeats, f, hf, hd⟩
        exact ⟨x, List.mem_cons_of_mem _ hx, hrepeats, f, List.mem_cons_of_mem _ hf, hd⟩
    · have hnow : c.Repeats c' → ∃ x ∈ (s', c') :: rest, c.Repeats x.2 ∧
          ∃ f ∈ ⟨some c'.diagnostic, [c'.second.subject.owner, c'.first.subject.owner, s'.owner]⟩ ::
            conflictFindings ((c'.second.place, c'.first.place) :: reported) rest, f.diagnostic = some x.2.diagnostic :=
        fun hrepeats => ⟨_, List.mem_cons_self, hrepeats, _, List.mem_cons_self, rfl⟩
      rcases List.mem_cons.1 h with he | h
      · cases he
        exact .inl (hnow (.inl rfl))
      · rcases ih h ((c'.second.place, c'.first.place) :: reported) with ⟨x, hx, hrepeats, f, hf, hd⟩ | hmem | hmem
        · exact .inl ⟨x, List.mem_cons_of_mem _ hx, hrepeats, f, List.mem_cons_of_mem _ hf, hd⟩
        · rcases List.mem_cons.1 hmem with he | hmem
          · exact .inl (hnow (.inl he.symm))
          · exact .inr (.inl hmem)
        · rcases List.mem_cons.1 hmem with he | hmem
          · exact .inl (hnow (.inr he.symm))
          · exact .inr (.inr hmem)

/-- Of every conflict one between the same places is reported. -/
theorem exists_reported (h : (s, c) ∈ conflicts cx) :
    ∃ s' c', (s', c') ∈ conflicts cx ∧ c.Repeats c' ∧
      ∃ f ∈ overlappingFields cx, f.diagnostic = some c'.diagnostic := by
  rcases exists_conflictFindings h [] with ⟨x, hx, hrepeats, hf⟩ | hmem | hmem
  · exact ⟨x.1, x.2, hx, hrepeats, hf⟩
  · exact absurd hmem List.not_mem_nil
  · exact absurd hmem List.not_mem_nil

end Conflicts

/-! ## All rules -/

theorem grounded_structural {rule : Rule} (h : rule ∈ structuralRules) : Grounded rule := by
  simp only [structuralRules, List.mem_cons, List.not_mem_nil, or_false] at h
  rcases h with rfl | rfl | rfl | rfl | rfl | rfl | rfl | rfl
  · exact grounded_loneAnonymous
  · exact grounded_knownTypes
  · exact grounded_compositeConditions
  · exact grounded_inputVariables
  · exact grounded_scalarLeafs
  · exact grounded_possibleSpreads
  · exact grounded_correctValues
  · exact grounded_variablePositions

/-- All global rules but two are grounded. -/
theorem grounded_global {rule : Rule} (h : rule ∈ globalRules) :
    Grounded rule ∨ rule = singleRootField ∨ rule = overlappingFields := by
  simp only [globalRules, List.mem_cons, List.not_mem_nil, or_false] at h
  rcases h with rfl | rfl | rfl | rfl | rfl | rfl | rfl | rfl | rfl | rfl | rfl | rfl | rfl | rfl | rfl
  · exact .inl grounded_uniqueOperationNames
  · exact .inr (.inl rfl)
  · exact .inl grounded_knownFields
  · exact .inl grounded_uniqueFragmentNames
  · exact .inl grounded_acyclicFragments
  · exact .inl grounded_uniqueVariables
  · exact .inl grounded_definedVariables
  · exact .inl grounded_usedVariables
  · exact .inl grounded_knownDirectives
  · exact .inl grounded_uniqueDirectives
  · exact .inl grounded_knownArguments
  · exact .inl grounded_uniqueArguments
  · exact .inl grounded_requiredArguments
  · exact .inr (.inr rfl)
  · exact .inl grounded_uniqueInputFields

end Rules

end QueryBatch
