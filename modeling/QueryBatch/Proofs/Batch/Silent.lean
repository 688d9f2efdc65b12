import QueryBatch.Proofs.Batch.Accounted
import QueryBatch.Proofs.Rules.Moved

/-!
# Batches without a diagnostic

A batch is a success just if the global rules find nothing in it and nothing speaks against any of its operations.

* `Plan.Smooth`: nothing speaks against the operations of a plan, and no two of them stand in one file.
* `smooth_of_silent`: so it is if a run says nothing. `Plan.Smooth.exists_run`: and then a run says nothing, and
  compiles all operations.
* `Batch.exists_smooth`: what is known of a batch that is a success. `Batch.exists_isSuccess`: such a batch is one.
* `Batch.exists_query`: it has the queries of all its operations, if no two files have one path.
-/

namespace QueryBatch

open Rules

theorem BatchOutcome.isSuccess_iff {o : BatchOutcome} :
    o.isSuccess = true ↔ o.status = .complete ∧ o.diagnostics = [] := by
  unfold isSuccess
  rw [Bool.and_eq_true, beq_iff_eq, List.isEmpty_iff]

namespace Batch

/-! ## Silent runs -/

/-- Nothing speaks against any operation of a plan, and no two operations stand in one file. -/
structure Plan.Smooth (plan : Plan) : Prop where
  admits : ∀ index op, plan.registry.operations[index]? = some op → plan.Admits index op
  hooks : ∀ op ∈ plan.registry.operations, refusesHook plan.settings op.file = false
  sources : (plan.registry.operations.map RegisteredOperation.source).Nodup

section Runs

variable {plan : Plan} {p p' : Progress} {index : Nat} {op : RegisteredOperation}

/-- An operation that is not rejected and of which nothing is said is compiled. -/
theorem Plan.Handles.compiled_of_silent (h : plan.Handles index op p p') (hpasses : index ∉ plan.validation.rejected)
    (hsilent : p'.diagnostics = []) :
    plan.Takes p.compiled index op ∧ refusesHook plan.settings op.file = false ∧ p'.compiled = p.compiled ++ [op] := by
  cases h with
  | rejected hr => exact absurd hr hpasses
  | unresolved _ _ => exact absurd (List.append_eq_nil_iff.1 hsilent).2 (missingDiagnostics_ne_nil _ _ _ _ _)
  | tainted _ _ _ => exact absurd (List.append_eq_nil_iff.1 hsilent).2 (List.cons_ne_nil _ _)
  | second _ _ _ => exact absurd (List.append_eq_nil_iff.1 hsilent).2 (List.cons_ne_nil _ _)
  | compiled htakes hcompiles => exact ⟨htakes, hcompiles.not_refused, rfl⟩

/-- An operation that a plan takes is compiled, and nothing is said of it. -/
theorem Plan.Handles.silent_of_takes (h : plan.Handles index op p p') (htakes : plan.Takes p.compiled index op) :
    p'.diagnostics = p.diagnostics ∧ p'.compiled = p.compiled ++ [op] := by
  cases h with
  | rejected hr => exact absurd hr htakes.1.passes
  | unresolved hclosure hmissing =>
    refine absurd (hclosure.missing_eq_nil_iff.2 htakes.1.complete) ?_
    rw [hmissing]
    exact List.cons_ne_nil _ _
  | tainted _ hreach htainted => exact absurd htainted (htakes.1.clean _ hreach)
  | second _ hfirst hsource => exact absurd hsource (htakes.2 _ hfirst)
  | compiled _ _ => exact ⟨rfl, rfl⟩

/-- A run over some operations that says nothing compiles them one by one, and nothing speaks against any of them. -/
theorem compiled_of_silent (hpasses : ∀ index, index ∉ plan.validation.rejected)
    {before after : List RegisteredOperation} (hops : plan.registry.operations = before ++ after)
    (hrun : compileOperations plan 0 {} before = (p, none)) (hsilent : p.diagnostics = []) :
    p.compiled = before ∧ (before.map RegisteredOperation.source).Nodup ∧
      ∀ index op, before[index]? = some op → plan.Admits index op ∧ refusesHook plan.settings op.file = false := by
  induction before using List.reverseRecOn generalizing p after with
  | nil =>
    cases hrun
    exact ⟨rfl, List.nodup_nil, nofun⟩
  | append_singleton before op ih =>
    obtain ⟨q, hq, hlast⟩ := compileOperations_concat_iff.1 hrun
    rw [List.append_assoc] at hops
    have hhandles := handles_of_compileOperation hops hq hlast
    -- nothing is taken back, so the operations before were compiled in silence too
    have hsilent' : q.diagnostics = [] := by
      refine List.eq_nil_of_subset_nil ?_
      rw [← hsilent]
      exact hhandles.diagnostics_subset
    obtain ⟨hcompiled, hsources, hall⟩ := ih hops hq hsilent'
    obtain ⟨⟨hadmits, hfirst⟩, hhook, hgrown⟩ := hhandles.compiled_of_silent (hpasses _) hsilent
    rw [hcompiled] at hgrown hfirst
    refine ⟨hgrown, ?_, fun index other hother => ?_⟩
    · rw [List.map_append, List.map_singleton, List.nodup_append]
      refine ⟨hsources, List.nodup_singleton _, fun n hn m hm he => ?_⟩
      obtain ⟨other, hother, rfl⟩ := List.mem_map.1 hn
      exact hfirst other hother (he.trans (List.mem_singleton.1 hm))
    · rcases Nat.lt_trichotomy index before.length with hlt | rfl | hlt
      · rw [List.getElem?_append_left hlt] at hother
        exact hall index other hother
      · rw [List.getElem?_append_right (Nat.le_refl _), Nat.sub_self] at hother
        cases hother
        exact ⟨hadmits, hhook⟩
      · rw [List.getElem?_eq_none (by rw [List.length_append, List.length_singleton]; omega)] at hother
        cases hother

/-- If a run says nothing, and the rules reject nothing, then nothing speaks against any operation. -/
theorem smooth_of_silent (hpasses : ∀ index, index ∉ plan.validation.rejected)
    (hrun : compileOperations plan 0 {} plan.registry.operations = (p, none)) (hsilent : p.diagnostics = []) :
    plan.Smooth := by
  obtain ⟨-, hsources, hall⟩ := compiled_of_silent hpasses (List.append_nil _).symm hrun hsilent
  refine ⟨fun index op hop => (hall index op hop).1, fun op hop => ?_, hsources⟩
  obtain ⟨index, hindex⟩ := List.mem_iff_getElem?.1 hop
  exact (hall index op hindex).2

/-- If nothing speaks against any operation, then a run over the first of them says nothing and compiles them. -/
theorem Plan.Smooth.exists_run_append (h : plan.Smooth) {before after : List RegisteredOperation}
    (hops : plan.registry.operations = before ++ after) :
    ∃ p, compileOperations plan 0 {} before = (p, none) ∧ p.diagnostics = [] ∧ p.compiled = before := by
  induction before using List.reverseRecOn generalizing after with
  | nil => exact ⟨{}, rfl, rfl, rfl⟩
  | append_singleton before op ih =>
    rw [List.append_assoc] at hops
    obtain ⟨p, hrun, hsilent, hcompiled⟩ := ih hops
    have hop : plan.registry.operations[before.length]? = some op := by
      rw [hops, List.getElem?_append_right (Nat.le_refl _), Nat.sub_self]
      rfl
    -- all that is before was compiled, so that `op` must differ from all of it in its source
    have hfirst : ∀ other ∈ before, other.source ≠ op.source := by
      have hsources := h.sources
      rw [hops, List.map_append, List.nodup_append] at hsources
      exact fun other hother => hsources.2.2 _ (List.mem_map_of_mem hother) _ List.mem_cons_self
    have htakes : plan.Takes p.compiled before.length op := ⟨h.admits _ op hop, hcompiled ▸ hfirst⟩
    obtain ⟨p', hstep, -⟩ := @compileOperation_next plan p before.length op (sound_of_append hops hrun).holds
      (h.hooks op (List.mem_of_getElem? hop))
    obtain ⟨htold, hgrown⟩ := (handles_of_compileOperation hops hrun hstep).silent_of_takes htakes
    exact ⟨p', compileOperations_concat_iff.2 ⟨p, hrun, hstep⟩, htold.trans hsilent, by rw [hgrown, hcompiled]⟩

theorem Plan.Smooth.exists_run (h : plan.Smooth) :
    ∃ p, compileOperations plan 0 {} plan.registry.operations = (p, none) ∧ p.diagnostics = [] := by
  obtain ⟨p, hrun, hsilent, -⟩ := h.exists_run_append (List.append_nil _).symm
  exact ⟨p, hrun, hsilent⟩

end Runs

/-! ## Batches -/

section Batches

variable {settings : Settings} {schema : Schema} {files : List QueryFile} {registry : Registry}
  {outcome : BatchOutcome}

/-- Global rules that report nothing find nothing. -/
theorem rules_eq_nil_of_silent {operations : List (Nat × Operation)} {fragments : List (Nat × Fragment)}
    (h : (validateGlobal schema operations fragments).diagnostics = []) :
    ∀ rule ∈ globalRules, rule (.of schema operations fragments) = [] := by
  have hnone : ∀ rule ∈ globalRules, ∀ f ∈ rule (.of schema operations fragments), ∀ d, f.diagnostic ≠ some d := by
    intro rule hrule f hf d hd
    have hmem : d ∈ (validateGlobal schema operations fragments).diagnostics :=
      List.mem_filterMap.2 ⟨f, List.mem_flatMap.2 ⟨rule, hrule, hf⟩, hd⟩
    rw [h] at hmem
    exact List.not_mem_nil hmem
  intro rule hrule
  rcases grounded_global hrule with hgrounded | rfl | rfl
  · refine List.eq_nil_iff_forall_not_mem.2 fun f hf => ?_
    obtain ⟨-, d, hd, -⟩ := hgrounded _ f hf
    exact hnone _ hrule f hf d hd
  · refine List.eq_nil_iff_forall_not_mem.2 fun f hf => ?_
    obtain ⟨d, hd, -⟩ := answers_singleRootField hf
    exact hnone _ hrule f hf d hd
  · refine overlappingFields_eq_nil_iff.2 (List.eq_nil_iff_forall_not_mem.2 fun ⟨s, c⟩ hc => ?_)
    obtain ⟨_, c', -, -, f, hf, hd⟩ := exists_reported hc
    exact hnone _ hrule f hf _ hd

/-- In a batch that is a success, the global rules find nothing, and nothing speaks against any operation. -/
theorem exists_smooth (h : (compile settings schema files).result = .ok outcome) (hsuccess : outcome.isSuccess = true) :
    ∃ registry, gather schema 0 {} files = .ok registry ∧
      (∀ rule ∈ globalRules, rule (batchContext schema registry) = []) ∧ (Plan.of settings schema registry).Smooth := by
  rw [BatchOutcome.isSuccess_iff] at hsuccess
  obtain ⟨registry, p, hgather, hrun, -, hdiagnostics⟩ := exists_run h hsuccess.1
  rw [hsuccess.2] at hdiagnostics
  obtain ⟨hvalid, hsilent⟩ := List.append_eq_nil_iff.1 hdiagnostics.symm
  have hrules := rules_eq_nil_of_silent hvalid
  refine ⟨registry, hgather, hrules, smooth_of_silent (fun index hr => ?_) hrun hsilent⟩
  obtain ⟨rule, hrule, f, hf, -⟩ := mem_rejected.1 hr
  rw [show rule (.of schema _ _) = [] from hrules rule hrule] at hf
  exact List.not_mem_nil hf

/-- A batch is a success if the global rules find nothing and nothing speaks against any operation. -/
theorem exists_isSuccess (hgather : gather schema 0 {} files = .ok registry)
    (hrules : ∀ rule ∈ globalRules, rule (batchContext schema registry) = [])
    (hsmooth : (Plan.of settings schema registry).Smooth) :
    ∃ outcome, (compile settings schema files).result = .ok outcome ∧ outcome.isSuccess = true := by
  obtain ⟨p, hrun, hsilent⟩ := hsmooth.exists_run
  obtain ⟨outcome, hresult, hstatus, -⟩ := exists_outcome hgather hrun
  obtain ⟨registry', p', hgather', hrun', -, hdiagnostics⟩ := exists_run hresult hstatus
  cases hgather.symm.trans hgather'
  cases hrun.symm.trans hrun'
  refine ⟨outcome, hresult, ?_⟩
  have hvalid : (Plan.of settings schema registry).validation.diagnostics = [] := (validateGlobal_of_nil hrules).1
  rw [BatchOutcome.isSuccess_iff, hdiagnostics, hvalid, hsilent]
  exact ⟨hstatus, rfl⟩

/-- A batch that is a success has the queries of all its operations, if no two files have one path. -/
theorem exists_query (hpaths : (files.map QueryFile.path).Nodup)
    (h : (compile settings schema files).result = .ok outcome) (hsuccess : outcome.isSuccess = true)
    (hgather : gather schema 0 {} files = .ok registry) {op : RegisteredOperation} (hop : op ∈ registry.operations) :
    ∃ index closure, (Plan.of settings schema registry).Compiles index op closure ∧
      outcome.queries.find? op.file.path = some ((Plan.of settings schema registry).queryOf op closure) := by
  obtain ⟨registry', hgather', -, hsmooth⟩ := exists_smooth h hsuccess
  cases hgather.symm.trans hgather'
  rw [BatchOutcome.isSuccess_iff] at hsuccess
  obtain ⟨registry', p, hgather', hrun, hqueries, hdiagnostics⟩ := exists_run h hsuccess.1
  cases hgather.symm.trans hgather'
  rw [hsuccess.2] at hdiagnostics
  obtain ⟨index, hindex⟩ := List.mem_iff_getElem?.1 hop
  rw [hqueries]
  rcases (hsmooth.admits index op hindex).compiled_or_reported hindex hrun with
    ⟨closure, hcompiles, hkept | hreplaced⟩ | hsecond
  · exact ⟨index, closure, hcompiles, hkept⟩
  · exact absurd hreplaced (not_replaces hpaths hgather hop)
  · obtain ⟨_, _, _, -, -, hmem⟩ := hsecond
    rw [(List.append_eq_nil_iff.1 hdiagnostics.symm).2] at hmem
    exact absurd hmem List.not_mem_nil

end Batches

end Batch

end QueryBatch
