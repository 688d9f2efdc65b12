import QueryBatch.Proofs.Batch.Compiled
import QueryBatch.Proofs.Batch.Filed

/-!
# What becomes of every operation

* `Plan.Handles`: the five things that a run does with an operation. `handles_of_compileOperation`: it does one of them.
* `diagnostics_subset`: what a run has said stays said.
* `exists_handles`: in a run without a fault, every operation is handled, and what is said of it is in the outcome.
* `Plan.Replaces`: a later operation of another file has its query under the same path. `kept_or_replaced`: this alone
  removes a query.
* `Batch.compiled_or_second`: so no query is lost otherwise. `Batch.compiled_query_lost`: but some are lost.
-/

namespace QueryBatch.Batch

/-! ## One operation -/

/-- What a run does with the operation of an index: nothing if it is rejected; otherwise it carries out a verdict, which
rests on what the operation reaches. -/
inductive Plan.Handles (plan : Plan) (index : Nat) (op : RegisteredOperation) (p : Progress) : Progress → Prop
  | rejected : index ∈ plan.validation.rejected → Handles plan index op p p
  | unresolved {cache : ClosureCache} {closure : Closure} {first : MissingSpread} {others : List MissingSpread} :
    closure.IsClosureOf plan.registry op.source op.definition.body → closure.missing.toList = first :: others →
    Handles plan index op p { p with
      cache
      diagnostics := p.diagnostics ++ missingDiagnostics plan.registry p.reported op first others
      reported := p.reported ++ (first :: others).map fun m => (m.source, m.span)
      events := p.events ++ [.extractionFailed op.file.path] }
  | tainted {cache : ClosureCache} {name : String} :
    ¬ plan.registry.Lacking op.definition.body → Reaches plan.registry.bodyOf op.definition.body name →
    name ∈ plan.validation.tainted →
    Handles plan index op p
      { p with cache, diagnostics := p.diagnostics ++ [invalidDependency plan.registry op name] }
  | second {cache : ClosureCache} {first : RegisteredOperation} :
    plan.Admits index op → first ∈ p.compiled → first.source = op.source →
    Handles plan index op p { p with cache, diagnostics := p.diagnostics ++ [multipleRoots first op] }
  | compiled {cache : ClosureCache} {closure : Closure} :
    plan.Takes p.compiled index op → plan.Compiles index op closure →
    Handles plan index op p { p with
      cache
      compiled := p.compiled ++ [op]
      queries := p.queries.insert op.file.path (plan.queryOf op closure) }

/-- An operation that comes to missing spreads is told so. -/
theorem missingDiagnostics_ne_nil (registry : Registry) (reported : List (Nat × Span)) (op : RegisteredOperation)
    (first : MissingSpread) (others : List MissingSpread) :
    missingDiagnostics registry reported op first others ≠ [] := by
  unfold missingDiagnostics
  dsimp only
  split
  · exact List.cons_ne_nil _ _
  · rename_i hfresh
    exact fun h => hfresh (List.isEmpty_iff.2 (List.map_eq_nil_iff.1 h))

section Step

variable {plan : Plan} {p p' : Progress} {index : Nat} {op : RegisteredOperation}

/-- A run handles every operation that it comes to. -/
theorem handles_of_compileOperation {before after : List RegisteredOperation}
    (hops : plan.registry.operations = before ++ op :: after) (hrun : compileOperations plan 0 {} before = (p, none))
    (h : compileOperation plan p before.length op = .ok p') : plan.Handles before.length op p p' := by
  unfold compileOperation at h
  split at h
  · rename_i hr
    cases h
    exact .rejected hr
  rename_i hr
  have hclosure := (ClosureCache.resolve_spec (sound_of_append hops hrun).holds op.source op.definition.body).1
  have hcompiles : verdict plan.validation.tainted p.compiled op
      (p.cache.resolve plan.registry op.source op.definition.body).1 = .compiled →
      refusesHook plan.settings op.file = false → plan.Compiles before.length op
        (p.cache.resolve plan.registry op.source op.definition.body).1 := fun hv hhook =>
    ⟨before, after, p, hops, rfl, hrun, hr, rfl, hv, hhook⟩
  generalize p.cache.resolve plan.registry op.source op.definition.body = found at h hclosure hcompiles
  obtain ⟨closure, cache⟩ := found
  dsimp only at h hclosure hcompiles
  generalize hv : verdict plan.validation.tainted p.compiled op closure = v at h hcompiles
  unfold verdict at hv
  split at hv
  · rename_i first others hmissing
    cases hv
    cases h
    exact .unresolved hclosure hmissing
  rename_i hmissing
  have hcomplete : ¬ plan.registry.Lacking op.definition.body := hclosure.missing_eq_nil_iff.1 hmissing
  split at hv
  · rename_i name htainted
    cases hv
    cases h
    refine .tainted hcomplete ((hclosure.mem_fragments name).1 (List.mem_of_find?_eq_some htainted)) ?_
    simpa using List.find?_some htainted
  rename_i hclean
  have hadmits : plan.Admits before.length op := by
    refine ⟨hr, hcomplete, fun name hreach htainted => ?_⟩
    have hmem : name ∈ closure.fragments.toList := (hclosure.mem_fragments name).2 hreach
    exact List.find?_eq_none.1 hclean name hmem (decide_eq_true htainted)
  split at hv
  · rename_i first hfirst
    cases hv
    cases h
    exact .second hadmits (List.mem_of_find?_eq_some hfirst) (beq_iff_eq.1 (List.find?_some hfirst :))
  · rename_i hfirst
    cases hv
    unfold Progress.settle at h
    dsimp only at h
    split at h
    · cases h
    · rename_i hhook
      cases h
      refine .compiled ⟨hadmits, fun other hother hsame => ?_⟩ (hcompiles rfl (by simpa using hhook))
      exact List.find?_eq_none.1 hfirst other hother (beq_iff_eq.2 hsame)

/-- An operation is handled without taking back a diagnostic. -/
theorem Plan.Handles.diagnostics_subset (h : plan.Handles index op p p') : p.diagnostics ⊆ p'.diagnostics := by
  cases h with
  | rejected _ => exact List.Subset.refl _
  | unresolved _ _ => exact List.subset_append_left _ _
  | tainted _ _ _ => exact List.subset_append_left _ _
  | second _ _ _ => exact List.subset_append_left _ _
  | compiled _ _ => exact List.Subset.refl _

/-- An operation is handled without forgetting one that was compiled. -/
theorem Plan.Handles.compiled_subset (h : plan.Handles index op p p') : p.compiled ⊆ p'.compiled := by
  cases h with
  | rejected _ => exact List.Subset.refl _
  | unresolved _ _ => exact List.Subset.refl _
  | tainted _ _ _ => exact List.Subset.refl _
  | second _ _ _ => exact List.Subset.refl _
  | compiled _ _ => exact List.subset_append_left _ _

end Step

/-! ## Runs -/

section Runs

variable {plan : Plan} {p q : Progress} {index : Nat} {op : RegisteredOperation}

/-- What the handling of every operation keeps holds at the end of a run, if it holds somewhere on the way. -/
theorem compileOperations_induction {P : Progress → Prop} {before after : List RegisteredOperation}
    (hops : plan.registry.operations = before ++ after) (hbefore : compileOperations plan 0 {} before = (q, none))
    (hstep : ∀ index op q q', before.length ≤ index → plan.registry.operations[index]? = some op →
      plan.Handles index op q q' → P q → P q')
    (hrun : compileOperations plan before.length q after = (p, none)) (hq : P q) : P p := by
  induction after generalizing before q with
  | nil =>
    cases hrun
    exact hq
  | cons op after ih =>
    obtain ⟨q', hnext, hrun⟩ := compileOperations_cons_iff.1 hrun
    have hhandles := handles_of_compileOperation hops hbefore hnext
    have hbefore' := compileOperations_concat_iff.2 ⟨q, hbefore, hnext⟩
    have hlength : (before ++ [op]).length = before.length + 1 := List.length_append
    have hop : plan.registry.operations[before.length]? = some op := by
      rw [hops, List.getElem?_append_right (Nat.le_refl _), Nat.sub_self]
      rfl
    refine @ih q' (before ++ [op]) (by rw [hops, List.append_assoc]; rfl) hbefore' ?_ ?_
      (hstep _ op q q' (Nat.le_refl _) hop hhandles hq)
    · exact fun index op q q' hle => hstep index op q q' (by omega)
    · rw [hlength]
      exact hrun

/-- In a run without a fault every operation is handled, and what holds then, if the handling of the operations behind
it keeps it, holds at the end. -/
theorem exists_handles (hop : plan.registry.operations[index]? = some op)
    (hrun : compileOperations plan 0 {} plan.registry.operations = (p, none)) :
    ∃ q q', q.Sound plan ∧ plan.Handles index op q q' ∧
      ∀ P : Progress → Prop, (∀ index' op' q q', index < index' → plan.Handles index' op' q q' → P q → P q') →
        P q' → P p := by
  obtain ⟨before, after, hops, hlength⟩ := exists_split_of_getElem? hop
  -- the run is one over the operations before, a step, and one over those behind, which keeps `P`
  have hsplit : plan.registry.operations = (before ++ [op]) ++ after := by
    rw [hops, List.append_assoc]
    rfl
  rw [hsplit] at hrun
  obtain ⟨q', hq', hafter⟩ := exists_of_compileOperations_append hrun
  obtain ⟨q, hq, hstep⟩ := compileOperations_concat_iff.1 hq'
  refine ⟨q, q', sound_of_append hops hq, hlength ▸ handles_of_compileOperation hops hq hstep, ?_⟩
  intro P hkeeps hnow
  rw [Nat.zero_add] at hafter
  refine compileOperations_induction hsplit hq' (fun index' op' q q' hle _ => hkeeps index' op' q q' ?_) hafter hnow
  rw [List.length_append, List.length_singleton, hlength] at hle
  exact hle

/-- What is said of an operation when it is handled is said at the end. -/
theorem exists_handles_diagnostics (hop : plan.registry.operations[index]? = some op)
    (hrun : compileOperations plan 0 {} plan.registry.operations = (p, none)) :
    ∃ q q', q.Sound plan ∧ plan.Handles index op q q' ∧ q'.diagnostics ⊆ p.diagnostics := by
  obtain ⟨q, q', hsound, hhandles, hlast⟩ := exists_handles hop hrun
  refine ⟨q, q', hsound, hhandles, hlast (fun p => q'.diagnostics ⊆ p.diagnostics) ?_ (List.Subset.refl _)⟩
  exact fun _ _ _ _ _ h hsub => List.Subset.trans hsub h.diagnostics_subset

/-! ## Queries that are kept -/

/-- Nothing speaks against an operation that is compiled. -/
theorem Plan.Compiles.admits {closure : Closure} (h : plan.Compiles index op closure) : plan.Admits index op :=
  ⟨h.not_rejected, h.isClosureOf.missing_eq_nil_iff.1 h.missing_eq_nil, fun _ hreach =>
    h.not_tainted ((h.isClosureOf.mem_fragments _).2 hreach)⟩

/-- A later operation, which stands in another file of the same path, is compiled and has its query under that path. -/
def Plan.Replaces (plan : Plan) (queries : OrderedMap CompiledQuery) (index : Nat) (op : RegisteredOperation) : Prop :=
  ∃ index' op' closure, index < index' ∧ plan.Compiles index' op' closure ∧ op'.source ≠ op.source ∧
    op'.file.path = op.file.path ∧ queries.find? op.file.path = some (plan.queryOf op' closure)

/-- What keeps the query of an operation, or has it replaced, does so when the operations behind are handled. -/
theorem Plan.Handles.kept_or_replaced {index' : Nat} {op' : RegisteredOperation} {closure : Closure} {q' : Progress}
    (h : plan.Handles index' op' q q') (hlt : index < index') (hmem : op ∈ q.compiled)
    (hq : q.queries.find? op.file.path = some (plan.queryOf op closure) ∨ plan.Replaces q.queries index op) :
    q'.queries.find? op.file.path = some (plan.queryOf op closure) ∨ plan.Replaces q'.queries index op := by
  cases h with
  | rejected _ => exact hq
  | unresolved _ _ => exact hq
  | tainted _ _ _ => exact hq
  | second _ _ _ => exact hq
  | compiled htakes hcompiles =>
    rename_i cache closure'
    have hfind := OrderedMap.find?_insert q.queries op'.file.path (plan.queryOf op' closure') op.file.path
    by_cases hpath : op'.file.path = op.file.path
    · rw [if_pos hpath] at hfind
      exact .inr ⟨index', op', closure', hlt, hcompiles, (htakes.2 op hmem).symm, hpath, hfind⟩
    · rw [if_neg hpath] at hfind
      refine hq.imp (fun hkept => hfind.trans hkept) ?_
      rintro ⟨i, other, c, hi, hother, hsource, hsame, hreplaced⟩
      exact ⟨i, other, c, hi, hother, hsource, hsame, hfind.trans hreplaced⟩

/-- An operation that nothing speaks against is compiled, and keeps its query or has it replaced, or it is reported to
be a further one of its file. -/
theorem Plan.Admits.compiled_or_reported (hadmits : plan.Admits index op)
    (hop : plan.registry.operations[index]? = some op)
    (hrun : compileOperations plan 0 {} plan.registry.operations = (p, none)) :
    (∃ closure, plan.Compiles index op closure ∧
      (p.queries.find? op.file.path = some (plan.queryOf op closure) ∨ plan.Replaces p.queries index op)) ∨
    ∃ index' first closure, plan.Compiles index' first closure ∧ first.source = op.source ∧
      multipleRoots first op ∈ p.diagnostics := by
  obtain ⟨q, q', hsound, hhandles, hlast⟩ := exists_handles hop hrun
  cases hhandles with
  | rejected hr => exact absurd hr hadmits.passes
  | unresolved hclosure hmissing =>
    refine absurd (hclosure.missing_eq_nil_iff.2 hadmits.complete) ?_
    rw [hmissing]
    exact List.cons_ne_nil _ _
  | tainted _ hreach htainted => exact absurd htainted (hadmits.clean _ hreach)
  | second _ hfirst hsource =>
    obtain ⟨index', closure, hcompiles⟩ := hsound.compiled _ hfirst
    refine .inr ⟨index', _, closure, hcompiles, hsource, ?_⟩
    refine hlast (fun p => multipleRoots _ op ∈ p.diagnostics) ?_ (List.mem_append_right _ (List.mem_singleton_self _))
    exact fun _ _ _ _ _ h hmem => h.diagnostics_subset hmem
  | compiled htakes hcompiles =>
    rename_i cache closure
    refine .inl ⟨closure, hcompiles, ?_⟩
    refine (hlast (fun p => op ∈ p.compiled ∧ (p.queries.find? op.file.path = some (plan.queryOf op closure) ∨
      plan.Replaces p.queries index op)) ?_ ⟨List.mem_append_right _ (List.mem_singleton_self op), .inl ?_⟩).2
    · exact fun _ _ _ _ hlt h hq => ⟨h.compiled_subset hq.1, h.kept_or_replaced hlt hq.1 hq.2⟩
    · rw [OrderedMap.find?_insert, if_pos rfl]

end Runs

/-! ## Batches -/

section Batches

variable {settings : Settings} {schema : Schema} {files : List QueryFile} {outcome : BatchOutcome}

/-- A batch that is complete has gathered its files, and its outcome is what their operations were made to. -/
theorem exists_run (h : (compile settings schema files).result = .ok outcome) (hstatus : outcome.status = .complete) :
    ∃ registry p, gather schema 0 {} files = .ok registry ∧
      compileOperations (Plan.of settings schema registry) 0 {} registry.operations = (p, none) ∧
      outcome.queries = p.queries ∧
      outcome.diagnostics = (Plan.of settings schema registry).validation.diagnostics ++ p.diagnostics := by
  unfold compile at h
  dsimp only at h
  split at h
  · rename_i registry hgather
    unfold compileRegistry at h
    dsimp only at h
    split at h
    · cases h
    · rename_i p hrun
      cases h
      exact ⟨registry, p, hgather, hrun, rfl, rfl⟩
  · cases h
    cases hstatus

/-- In a complete batch, every operation that is not rejected, spreads no missing fragment and reaches no tainted one is
compiled, and the outcome has its query under the path of its file, unless an operation behind it, which stands in
another file of this path, is compiled and has its query there; or it is reported to be a further root query of its
file. -/
theorem compiled_or_second (h : (compile settings schema files).result = .ok outcome)
    (hstatus : outcome.status = .complete) :
    ∃ registry, gather schema 0 {} files = .ok registry ∧
      ∀ index op, registry.operations[index]? = some op → (Plan.of settings schema registry).Admits index op →
        (∃ closure, (Plan.of settings schema registry).Compiles index op closure ∧
          (outcome.queries.find? op.file.path = some ((Plan.of settings schema registry).queryOf op closure) ∨
            (Plan.of settings schema registry).Replaces outcome.queries index op)) ∨
        ∃ index' first closure, (Plan.of settings schema registry).Compiles index' first closure ∧
          first.source = op.source ∧ multipleRoots first op ∈ outcome.diagnostics := by
  obtain ⟨registry, p, hgather, hrun, hqueries, hdiagnostics⟩ := exists_run h hstatus
  refine ⟨registry, hgather, fun index op hop hadmits => ?_⟩
  rw [hqueries, hdiagnostics]
  refine (hadmits.compiled_or_reported hop hrun).imp_right ?_
  rintro ⟨index', first, closure, hcompiles, hsource, hmem⟩
  exact ⟨index', first, closure, hcompiles, hsource, List.mem_append_right _ hmem⟩

end Batches

/-! ## Two files of one path -/

/-- Two files of one path, each with an operation. -/
def twinFiles : List QueryFile := [sampleFile "a.js" "query A \x7b a \x7d", sampleFile "a.js" "query B \x7b a \x7d"]

/-- The outcome of a batch if it is complete. -/
def completeOutcome (schema : Schema) (files : List QueryFile) : Option BatchOutcome :=
  (compile {} schema files).result.toOption.filter fun outcome => outcome.status = .complete

theorem completeOutcome_eq_some {schema : Schema} {files : List QueryFile} {outcome : BatchOutcome}
    (h : completeOutcome schema files = some outcome) :
    (compile {} schema files).result = .ok outcome ∧ outcome.status = .complete := by
  unfold completeOutcome at h
  obtain ⟨hresult, hstatus⟩ := Option.filter_eq_some_iff.1 h
  refine ⟨?_, of_decide_eq_true hstatus⟩
  cases hrun : (compile {} schema files).result with
  | error fault =>
    rw [hrun] at hresult
    cases hresult
  | ok found =>
    rw [hrun] at hresult
    cases hresult
    rfl

/-- What a decidable property says of the outcome of a batch. -/
theorem exists_completeOutcome {schema : Schema} {files : List QueryFile} {P : BatchOutcome → Prop} [DecidablePred P]
    (h : (completeOutcome schema files).any (fun outcome => P outcome) = true) :
    ∃ outcome, (compile {} schema files).result = .ok outcome ∧ outcome.status = .complete ∧ P outcome := by
  obtain ⟨outcome, houtcome, hP⟩ := (Option.any_eq_true _ _).1 h
  obtain ⟨hresult, hstatus⟩ := completeOutcome_eq_some houtcome
  exact ⟨outcome, hresult, hstatus, of_decide_eq_true hP⟩

/-- What is seen of an operation that a batch compiles. -/
theorem exists_compiles_of_mem {α : Type} {schema : Schema} {files : List QueryFile} {view : RegisteredOperation → α}
    {a : α} (h : a ∈ (compiledOperations schema files).map view) : ∃ registry index op closure,
    gather schema 0 {} files = .ok registry ∧ (Plan.of {} schema registry).Compiles index op closure ∧ view op = a := by
  obtain ⟨op, hop, hview⟩ := List.mem_map.1 h
  unfold compiledOperations at hop
  split at hop
  · rename_i registry hgather
    obtain ⟨index, closure, hcompiles⟩ := mem_compiled_iff.1 hop
    exact ⟨registry, index, op, closure, hgather, hcompiles, hview⟩
  · exact absurd hop List.not_mem_nil

/-- The batch of two files of one path is complete without a diagnostic. It compiles the first operation, and has the
query of the second one. -/
theorem twinFiles_complete : ∃ outcome registry index op closure,
    (compile {} sampleSchema twinFiles).result = .ok outcome ∧ outcome.status = .complete ∧
    outcome.diagnostics = [] ∧ (outcome.queries.find? op.file.path).map CompiledQuery.name = some "B" ∧
    gather sampleSchema 0 {} twinFiles = .ok registry ∧
    (Plan.of {} sampleSchema registry).Compiles index op closure ∧ op.definition.displayName = "A" := by
  obtain ⟨registry, index, op, closure, hgather, hcompiles, hname⟩ := @exists_compiles_of_mem _ sampleSchema twinFiles
    (fun op => op.definition.displayName) "A" (by decide +kernel)
  obtain ⟨outcome, hresult, hstatus, hsilent, hquery⟩ := @exists_completeOutcome sampleSchema twinFiles
    (fun outcome => outcome.diagnostics.length = 0 ∧ (outcome.queries.find? "a.js").map CompiledQuery.name = some "B") _
    (by decide +kernel)
  have hpath : op.file.path = "a.js" := by
    have hall : ∀ file ∈ twinFiles, file.path = "a.js" := by decide +kernel
    exact hall op.file (List.mem_of_getElem? (file_of_operation hgather hcompiles.mem_operations).1)
  rw [← hpath] at hquery
  exact ⟨outcome, registry, index, op, closure, hresult, hstatus, List.eq_nil_of_length_eq_zero hsilent, hquery,
    hgather, hcompiles, hname⟩

theorem compiled_or_second_sample : ∃ outcome registry index op,
    (compile {} sampleSchema twinFiles).result = .ok outcome ∧ outcome.status = .complete ∧
    gather sampleSchema 0 {} twinFiles = .ok registry ∧ (Plan.of {} sampleSchema registry).Admits index op ∧
    op.definition.displayName = "A" ∧ (Plan.of {} sampleSchema registry).Replaces outcome.queries index op := by
  obtain ⟨outcome, registry, index, op, closure, hresult, hstatus, hsilent, hquery, hgather, hcompiles, hname⟩ :=
    twinFiles_complete
  obtain ⟨registry', hgather', hall⟩ := compiled_or_second hresult hstatus
  cases hgather.symm.trans hgather'
  refine ⟨outcome, registry, index, op, hresult, hstatus, hgather, hcompiles.admits, hname, ?_⟩
  rcases hall index op hcompiles.getElem? hcompiles.admits with ⟨_, -, hkept | hreplaced⟩ | ⟨_, _, _, -, -, hsecond⟩
  · rw [hkept] at hquery
    have hsame : "A" = "B" := hname.symm.trans (Option.some.inj hquery)
    exact absurd hsame (by decide)
  · exact hreplaced
  · rw [hsilent] at hsecond
    exact absurd hsecond List.not_mem_nil

/-- In general a compiled query can be lost. Of two files of one path, the second has its query in the place of that of
the first, and nothing is said of it. -/
theorem compiled_query_lost : ¬ ∀ (settings : Settings) (schema : Schema) (files : List QueryFile)
    (outcome : BatchOutcome) (registry : Registry) (index : Nat) (op : RegisteredOperation),
    (compile settings schema files).result = .ok outcome → outcome.status = .complete →
    gather schema 0 {} files = .ok registry → registry.operations[index]? = some op →
    (Plan.of settings schema registry).Admits index op →
    (∃ closure, outcome.queries.find? op.file.path = some ((Plan.of settings schema registry).queryOf op closure)) ∨
      ∃ d ∈ outcome.diagnostics, d.kind = .multipleRootQueries ∧ d.source = op.source ∧
        d.span = op.definition.headSpan := by
  intro hall
  obtain ⟨outcome, registry, index, op, closure, hresult, hstatus, hsilent, hquery, hgather, hcompiles, hname⟩ :=
    twinFiles_complete
  rcases hall _ _ _ outcome registry index op hresult hstatus hgather hcompiles.getElem? hcompiles.admits with
    ⟨closure', hkept⟩ | ⟨d, hd, -⟩
  · rw [hkept] at hquery
    have hsame : "A" = "B" := hname.symm.trans (Option.some.inj hquery)
    exact absurd hsame (by decide)
  · rw [hsilent] at hd
    exact absurd hd List.not_mem_nil

end QueryBatch.Batch
