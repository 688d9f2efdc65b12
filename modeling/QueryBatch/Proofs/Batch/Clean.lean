import QueryBatch.Proofs.Batch.Reordered
import QueryBatch.Proofs.Batch.Silent

/-!
# Clean batches

What is reported and what is rejected go together: a validation says nothing just if it rejects nothing. So a batch
without a diagnostic compiles all its operations.

* `Finding.Condemns`: a finding rejects a definition of the context. `condemns_global`: all findings of the global rules
  do.
* `validateGlobal_clean_iff`: a validation has no diagnostics just if it rejects no operation and taints no fragment.
* `Batch.clean_complete`: a batch that is a success has a query for every operation, one operation at most in every
  file, and no two operations of one name.
-/

namespace QueryBatch

open Rules

namespace Rules

/-! ## Findings that reject -/

/-- A finding rejects a definition of the context. -/
def Finding.Condemns (cx : Context) (f : Finding) : Prop := ∃ s ∈ cx.subjects, s.owner ∈ f.rejected

section Condemns

variable {cx : Context} {f : Finding}

theorem Subjectwise.condemns {rule : Rule} (h : Subjectwise rule) (hf : f ∈ rule cx) : f.Condemns cx := by
  obtain ⟨s, hs, d, rfl⟩ := h.accuses hf
  exact ⟨s, hs, List.mem_singleton_self _⟩

/-- What answers for the definitions that it rejects, and rejects something, rejects a definition of the context. -/
theorem Finding.Answers.condemns (h : f.Answers cx) {owner : Owner} (howner : owner ∈ f.rejected) : f.Condemns cx := by
  obtain ⟨d, -, hall⟩ := h
  obtain ⟨t, ht, rfl, -⟩ := hall owner howner
  exact ⟨t, ht, howner⟩

theorem condemns_uniqueOperationNames (hf : f ∈ uniqueOperationNames cx) : f.Condemns cx := by
  have hanswers := (grounded_uniqueOperationNames cx f hf).2
  obtain ⟨x, -, rfl⟩ := List.mem_map.1 hf
  exact hanswers.condemns (List.mem_singleton_self _)

theorem condemns_uniqueFragmentNames (hf : f ∈ uniqueFragmentNames cx) : f.Condemns cx := by
  have hanswers := (grounded_uniqueFragmentNames cx f hf).2
  obtain ⟨x, -, rfl⟩ := List.mem_map.1 hf
  exact hanswers.condemns List.mem_cons_self

theorem condemns_acyclicFragments (hf : f ∈ acyclicFragments cx) : f.Condemns cx := by
  have hanswers := (grounded_acyclicFragments cx f hf).2
  obtain ⟨way, -, hway⟩ := List.mem_filterMap.1 hf
  cases way with
  | nil => cases hway
  | cons first rest =>
    cases hway
    exact hanswers.condemns (List.mem_map_of_mem List.mem_cons_self)

/-- A finding on a conflict rejects the definition that it is met in, whether it is the first one or not. -/
theorem exists_of_conflictFindings {found : List (Subject × Conflict)}
    {reported : List ((Owner × Span) × (Owner × Span))}
    (hf : f ∈ conflictFindings reported found) : ∃ x ∈ found, x.1.owner ∈ f.rejected := by
  induction found generalizing reported with
  | nil => exact absurd hf List.not_mem_nil
  | cons x rest ih =>
    obtain ⟨s, c⟩ := x
    rw [conflictFindings] at hf
    split at hf
    · rcases List.mem_cons.1 hf with rfl | hf
      · exact ⟨_, List.mem_cons_self, List.mem_singleton_self _⟩
      · exact (ih hf).imp fun _ h => h.imp_left (List.mem_cons_of_mem _)
    · rcases List.mem_cons.1 hf with rfl | hf
      · exact ⟨_, List.mem_cons_self, List.mem_cons_of_mem _ (List.mem_cons_of_mem _ (List.mem_singleton_self _))⟩
      · exact (ih hf).imp fun _ h => h.imp_left (List.mem_cons_of_mem _)

theorem condemns_overlappingFields (hf : f ∈ overlappingFields cx) : f.Condemns cx := by
  obtain ⟨⟨s, c⟩, hc, howner⟩ := exists_of_conflictFindings hf
  obtain ⟨parent, set, group, hv, -⟩ := mem_conflicts.1 hc
  exact ⟨s, (mem_visits.1 hv).1, howner⟩

/-- No global rule finds something without rejecting a definition for it. -/
theorem condemns_global {rule : Rule} (hrule : rule ∈ globalRules) (hf : f ∈ rule cx) : f.Condemns cx := by
  simp only [globalRules, List.mem_cons, List.not_mem_nil, or_false] at hrule
  rcases hrule with rfl | rfl | rfl | rfl | rfl | rfl | rfl | rfl | rfl | rfl | rfl | rfl | rfl | rfl | rfl
  · exact condemns_uniqueOperationNames hf
  · exact subjectwise_singleRootField.condemns hf
  · exact local_knownFields.subjectwise.condemns hf
  · exact condemns_uniqueFragmentNames hf
  · exact condemns_acyclicFragments hf
  · exact subjectwise_uniqueVariables.condemns hf
  · exact subjectwise_definedVariables.condemns hf
  · exact subjectwise_usedVariables.condemns hf
  · exact local_knownDirectives.subjectwise.condemns hf
  · exact local_uniqueDirectives.subjectwise.condemns hf
  · exact local_knownArguments.subjectwise.condemns hf
  · exact local_uniqueArguments.subjectwise.condemns hf
  · exact local_requiredArguments.subjectwise.condemns hf
  · exact condemns_overlappingFields hf
  · exact local_uniqueInputFields.subjectwise.condemns hf

end Condemns

end Rules

/-! ## Validations -/

section Validations

variable {schema : Schema} {operations : List (Nat × Operation)} {fragments : List (Nat × Fragment)}

/-- Global rules that reject nothing find nothing. -/
theorem rules_eq_nil_of_spared (hrejected : (validateGlobal schema operations fragments).rejected.toList = [])
    (htainted : (validateGlobal schema operations fragments).tainted.toList = []) :
    ∀ rule ∈ globalRules, rule (.of schema operations fragments) = [] := by
  intro rule hrule
  refine List.eq_nil_iff_forall_not_mem.2 fun f hf => ?_
  obtain ⟨s, hs, howner⟩ := condemns_global hrule hf
  rcases Context.mem_subjects_of.1 hs with ⟨index, x, -, rfl⟩ | ⟨index, x, hx, rfl⟩
  · have hmem : index ∈ (validateGlobal schema operations fragments).rejected :=
      mem_rejected.2 ⟨rule, hrule, f, hf, howner⟩
    rw [OrderedSet.mem_iff, hrejected] at hmem
    exact List.not_mem_nil hmem
  · have hmem : x.2.name.text ∈ (validateGlobal schema operations fragments).tainted :=
      mem_tainted.2 ⟨rule, hrule, index, x, ⟨f, hf, howner⟩, hx, rfl⟩
    rw [OrderedSet.mem_iff, htainted] at hmem
    exact List.not_mem_nil hmem

/-- A validation says nothing just if it rejects no operation and taints no fragment. -/
theorem validateGlobal_clean_iff : (validateGlobal schema operations fragments).diagnostics = [] ↔
    (validateGlobal schema operations fragments).rejected.toList = [] ∧
      (validateGlobal schema operations fragments).tainted.toList = [] := by
  constructor
  · exact fun hsilent => (validateGlobal_of_nil (Batch.rules_eq_nil_of_silent hsilent)).2
  · exact fun hspared => (validateGlobal_of_nil (rules_eq_nil_of_spared hspared.1 hspared.2)).1

end Validations

/-- The named operations that the rules see are those with a name. -/
theorem Rules.map_name_namedOperations (schema : Schema) (operations : List (Nat × Operation))
    (fragments : List (Nat × Fragment)) :
    (namedOperations (.of schema operations fragments)).map (fun x => x.2.text) =
      operations.filterMap fun x => x.2.name.map Name.text := by
  have hfst : operations.filterMap (fun x => x.2.name.map Name.text) =
      (operations.zipIdx.map Prod.fst).filterMap fun x => x.2.name.map Name.text := by
    rw [List.zipIdx_map_fst]
  unfold namedOperations
  rw [Context.operations_of, List.filterMap_map, List.map_filterMap, hfst, List.filterMap_map]
  refine List.filterMap_congr fun x _ => ?_
  simp only [Function.comp_apply, Option.map_map]
  rfl

namespace Batch

/-! ## Batches -/

section Batches

variable {settings : Settings} {schema : Schema} {files : List QueryFile} {outcome : BatchOutcome}

/-- The names of the operations of some files, in order. -/
def operationNames (files : List QueryFile) : List String :=
  (files.flatMap fun file => file.document.operations).filterMap fun op => op.name.map Name.text

/-- The rule on names of operations sees the names of the files. -/
theorem nodup_operationNames {registry : Registry} (hgather : gather schema 0 {} files = .ok registry)
    (hunique : uniqueOperationNames (batchContext schema registry) = []) : (operationNames files).Nodup := by
  have hoperations : registry.operations.map RegisteredOperation.definition =
      files.flatMap fun file => file.document.operations := by
    have hpairs := congrArg (List.map Prod.snd) (map_operationsFrom 0 files)
    simp only [List.map_map, List.map_flatMap] at hpairs
    rw [operations_gather hgather, List.nil_append]
    exact hpairs.trans (List.flatMap_congr fun file _ => List.map_id _)
  have hnames : (namedOperations (batchContext schema registry)).map (fun x => x.2.text) = operationNames files := by
    unfold operationNames batchContext
    rw [map_name_namedOperations, ← hoperations, List.filterMap_map, List.filterMap_map]
    rfl
  rw [← hnames]
  exact repeats_eq_nil_iff.1 (List.map_eq_nil_iff.1 hunique)

/-- A validation says nothing just if it rejects nothing. Therefore a batch that is a success, and no two files of which
have one path, has a query under the path of each file for every operation in it, one operation at most in each file,
and no two operations of one name. -/
theorem clean_complete :
    (∀ (schema : Schema) (operations : List (Nat × Operation)) (fragments : List (Nat × Fragment)),
      (validateGlobal schema operations fragments).diagnostics = [] ↔
        (validateGlobal schema operations fragments).rejected.toList = [] ∧
          (validateGlobal schema operations fragments).tainted.toList = []) ∧
    ∀ (settings : Settings) (schema : Schema) (files : List QueryFile) (outcome : BatchOutcome),
      (files.map QueryFile.path).Nodup → (compile settings schema files).result = .ok outcome →
      outcome.isSuccess = true →
      (∃ registry, gather schema 0 {} files = .ok registry ∧
        ∀ source file definition, files[source]? = some file → definition ∈ file.document.operations →
          ∃ index closure, (Plan.of settings schema registry).Compiles index ⟨source, file, definition⟩ closure ∧
            outcome.queries.find? file.path =
              some ((Plan.of settings schema registry).queryOf ⟨source, file, definition⟩ closure)) ∧
      (∀ file ∈ files, file.document.operations.length ≤ 1) ∧ (operationNames files).Nodup := by
  refine ⟨fun schema operations fragments => validateGlobal_clean_iff, ?_⟩
  intro settings schema files outcome hpaths hrun hsuccess
  obtain ⟨registry, hgather, hrules, hsmooth⟩ := exists_smooth hrun hsuccess
  have hoperations : registry.operations = operationsFrom 0 files := operations_gather hgather
  refine ⟨⟨registry, hgather, fun source file definition hfile hmem => ?_⟩, ?_, ?_⟩
  · have hop : (⟨source, file, definition⟩ : RegisteredOperation) ∈ registry.operations := by
      rw [hoperations]
      exact mem_operationsFrom.2 ⟨source, hfile, (Nat.zero_add _).symm, hmem⟩
    exact exists_query hpaths hrun hsuccess hgather hop
  · refine nodup_operationsFrom_iff.1 (?_ : ((operationsFrom 0 files).map RegisteredOperation.source).Nodup)
    rw [← hoperations]
    exact hsmooth.sources
  · refine nodup_operationNames hgather (hrules _ ?_)
    unfold globalRules
    exact List.mem_cons_self

end Batches

/-- Two files with an operation each, one of which needs a fragment. -/
def cleanFiles : List QueryFile :=
  [sampleFile "a.js" "query A \x7b a \x7d",
    sampleFile "b.js" "query B($n: Int) \x7b ...F \x7d fragment F on Query \x7b a(n: $n) \x7d"]

theorem clean_complete_sample : ∃ outcome, (compile {} sampleSchema cleanFiles).result = .ok outcome ∧
    outcome.isSuccess = true ∧ (outcome.queries.find? "b.js").map CompiledQuery.name = some "B" ∧
    operationNames cleanFiles = ["A", "B"] ∧ (operationNames cleanFiles).Nodup := by
  obtain ⟨outcome, hrun, hstatus, hlength⟩ := @exists_completeOutcome sampleSchema cleanFiles
    (fun outcome => outcome.diagnostics.length = 0) _ (by decide +kernel)
  have hsuccess := BatchOutcome.isSuccess_iff.2 ⟨hstatus, List.eq_nil_of_length_eq_zero hlength⟩
  obtain ⟨definition, hmem, hname⟩ : ∃ definition ∈ (cleanFiles.getD 1 default).document.operations,
      definition.displayName = "B" := by decide +kernel
  obtain ⟨⟨registry, -, hall⟩, -, hnames⟩ :=
    clean_complete.2 {} sampleSchema cleanFiles outcome (by decide +kernel) hrun hsuccess
  obtain ⟨index, closure, -, hquery⟩ := hall 1 (cleanFiles.getD 1 default) definition rfl hmem
  refine ⟨outcome, hrun, hsuccess, ?_, by decide +kernel, hnames⟩
  rw [show "b.js" = (cleanFiles.getD 1 default).path from rfl, hquery]
  exact congrArg some hname

end Batch

end QueryBatch
