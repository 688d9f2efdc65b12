import QueryBatch.Proofs.Batch.Missing

/-!
# How a run ends

A run ends in a fault just if it comes to a hook that it would compile, while nothing can run one. A run that has an
outcome reports all its diagnostics at its end.

* `Plan.Roots`: the operation of an index is the one that its file is compiled from, unless it is a refused hook.
* `Progress.Covers`: the compiled operations of a run speak for all admitted ones before. `covers_of_run`: every run
  without a fault keeps this up.
* `compileOperation_eq_error_iff`: the step that ends a run. `fault_of_run`, `exists_fault_iff`: the runs that it ends.
* `Batch.ended`: the fault of a batch, and the events of a batch that has one and of one that has none.
-/

namespace QueryBatch.Batch

/-! ## Roots of files -/

/-- The operation of an index is admitted, and no operation of its file is before. -/
structure Plan.Roots (plan : Plan) (index : Nat) (op : RegisteredOperation) : Prop where
  getElem? : plan.registry.operations[index]? = some op
  admits : plan.Admits index op
  first : ∀ i < index, ∀ other, plan.registry.operations[i]? = some other → other.source = op.source →
    ¬ plan.Admits i other

/-- The compiled operations are admitted ones among those before, and speak for the file of each of these. -/
structure Progress.Covers (plan : Plan) (before : List RegisteredOperation) (p : Progress) : Prop where
  admits : ∀ op ∈ p.compiled, ∃ i, before[i]? = some op ∧ plan.Admits i op
  source : ∀ i op, before[i]? = some op → plan.Admits i op → ∃ other ∈ p.compiled, other.source = op.source

section Runs

variable {plan : Plan} {before after : List RegisteredOperation} {op : RegisteredOperation} {p p' : Progress}

/-- A step ends a run just if it takes an operation whose hook is refused. -/
theorem compileOperation_eq_error_iff {index : Nat} {fault : BatchFault}
    (hholds : ClosureCache.Holds plan.registry p.cache.entries) :
    compileOperation plan p index op = .error fault ↔ plan.Takes p.compiled index op ∧
      refusesHook plan.settings op.file = true ∧ fault = .unsupportedHook op.file.path := by
  by_cases hr : index ∈ plan.validation.rejected
  · unfold compileOperation
    rw [if_pos hr]
    exact iff_of_false (fun h => by cases h) fun h => h.1.1.passes hr
  have hclosure := (ClosureCache.resolve_spec hholds op.source op.definition.body).1
  rw [← verdict_eq_compiled_iff_takes hr hclosure]
  unfold compileOperation
  rw [if_neg hr]
  dsimp only
  generalize verdict plan.validation.tainted p.compiled op
    (p.cache.resolve plan.registry op.source op.definition.body).1 = v
  cases v with
  | unresolved first others => exact iff_of_false (fun h => by cases h) fun h => by cases h.1
  | tainted fragment => exact iff_of_false (fun h => by cases h) fun h => by cases h.1
  | secondRoot first => exact iff_of_false (fun h => by cases h) fun h => by cases h.1
  | compiled =>
    unfold Progress.settle
    cases refusesHook plan.settings op.file with
    | false => exact iff_of_false (fun h => by cases h) fun h => by cases h.2.1
    | true => exact ⟨fun h => by cases h; exact ⟨rfl, rfl, rfl⟩, fun h => by rw [h.2.2]; rfl⟩

/-- A run with a fault is one without up to some operation, whose step ends it. -/
theorem exists_step_of_fault {ops : List RegisteredOperation} {index : Nat} {fault : BatchFault}
    (h : compileOperations plan index p ops = (p', some fault)) : ∃ before op after, ops = before ++ op :: after ∧
      compileOperations plan index p before = (p', none) ∧
      compileOperation plan p' (index + before.length) op = .error fault := by
  induction ops generalizing index p with
  | nil => cases h
  | cons op rest ih =>
    rw [compileOperations] at h
    cases hstep : compileOperation plan p index op with
    | error other =>
      rw [hstep] at h
      cases h
      exact ⟨[], op, rest, rfl, rfl, hstep⟩
    | ok next =>
      rw [hstep] at h
      obtain ⟨before, last, after, rfl, hbefore, hlast⟩ := ih h
      refine ⟨op :: before, last, after, rfl, compileOperations_cons_iff.2 ⟨next, hstep, hbefore⟩, ?_⟩
      rw [List.length_cons, Nat.add_comm before.length, ← Nat.add_assoc]
      exact hlast

/-! ## Files that are spoken for -/

/-- An operation that is compiled for an admitted one at its index, or is not admitted, keeps the files of the admitted
ones spoken for. -/
theorem Plan.Handles.covers (h : plan.Handles before.length op p p') (hc : p.Covers plan before) :
    p'.Covers plan (before ++ [op]) := by
  have hold : ∀ {i other}, before[i]? = some other → (before ++ [op])[i]? = some other := fun hi => by
    rw [List.getElem?_append_left (List.getElem?_eq_some_iff.1 hi).1]
    exact hi
  have hnew : ∀ {i other}, (before ++ [op])[i]? = some other →
      before[i]? = some other ∨ i = before.length ∧ other = op := fun {i other} hi => by
    rcases Nat.lt_or_ge i before.length with hlt | hge
    · exact .inl (List.getElem?_append_left hlt ▸ hi)
    · have hlast := (List.getElem?_eq_some_iff.1 hi).1
      rw [List.length_append, List.length_singleton] at hlast
      obtain rfl := Nat.le_antisymm (Nat.le_of_lt_succ hlast) hge
      rw [List.getElem?_concat_length] at hi
      exact .inr ⟨rfl, (Option.some.inj hi).symm⟩
  have hkept : (plan.Admits before.length op → ∃ other ∈ p.compiled, other.source = op.source) →
      p'.compiled = p.compiled → p'.Covers plan (before ++ [op]) := fun hspoken hsame => by
    refine ⟨fun other ho => ?_, fun i other hi hadmits => ?_⟩
    · obtain ⟨i, hi, hadmits⟩ := hc.admits other (hsame ▸ ho)
      exact ⟨i, hold hi, hadmits⟩
    · rw [hsame]
      rcases hnew hi with hi | ⟨rfl, rfl⟩
      · exact hc.source i other hi hadmits
      · exact hspoken hadmits
  cases h with
  | rejected hr => exact hkept (fun hadmits => absurd hr hadmits.passes) rfl
  | unresolved hclosure hmissing =>
    refine hkept (fun hadmits => ?_) rfl
    rw [hclosure.missing_eq_nil_iff.2 hadmits.complete] at hmissing
    cases hmissing
  | tainted _ hreach htainted => exact hkept (fun hadmits => absurd htainted (hadmits.clean _ hreach)) rfl
  | second _ hfirst hsource => exact hkept (fun _ => ⟨_, hfirst, hsource⟩) rfl
  | compiled htakes _ =>
    refine ⟨fun other ho => ?_, fun i other hi hadmits => ?_⟩
    · rcases List.mem_append.1 ho with ho | ho
      · obtain ⟨i, hi, hadmits⟩ := hc.admits other ho
        exact ⟨i, hold hi, hadmits⟩
      · cases List.mem_singleton.1 ho
        exact ⟨before.length, List.getElem?_concat_length, htakes.1⟩
    · rcases hnew hi with hi | ⟨rfl, rfl⟩
      · obtain ⟨first, hfirst, hsource⟩ := hc.source i other hi hadmits
        exact ⟨first, List.mem_append_left _ hfirst, hsource⟩
      · exact ⟨other, List.mem_append_right _ (List.mem_singleton_self other), rfl⟩

theorem covers_of_run (hops : plan.registry.operations = before ++ after)
    (hrun : compileOperations plan 0 {} before = (p, none)) : p.Covers plan before := by
  refine steps_induction ⟨fun _ h => absurd h List.not_mem_nil, fun _ _ h => by cases h⟩ ?_ hops hrun
  exact fun before op after p p' hops hrun hstep => (handles_of_compileOperation hops hrun hstep).covers

/-- The plan takes the operation behind those of a run just if it is the one that its file is compiled from. -/
theorem takes_iff_roots (hops : plan.registry.operations = before ++ op :: after) (hc : p.Covers plan before) :
    plan.Takes p.compiled before.length op ↔ plan.Roots before.length op := by
  have hget : ∀ i < before.length, plan.registry.operations[i]? = before[i]? := fun i hi => by
    rw [hops, List.getElem?_append_left hi]
  constructor
  · rintro ⟨hadmits, hfirst⟩
    refine ⟨by rw [hops, List.getElem?_append_right (Nat.le_refl _), Nat.sub_self]; rfl, hadmits, ?_⟩
    intro i hi other hother hsource hadmitted
    rw [hget i hi] at hother
    obtain ⟨compiled, hcompiled, hsame⟩ := hc.source i other hother hadmitted
    exact hfirst compiled hcompiled (hsame.trans hsource)
  · rintro ⟨-, hadmits, hfirst⟩
    refine ⟨hadmits, fun other ho hsource => ?_⟩
    obtain ⟨i, hi, hadmitted⟩ := hc.admits other ho
    have hlt := (List.getElem?_eq_some_iff.1 hi).1
    exact hfirst i hlt other ((hget i hlt).trans hi) hsource hadmitted

/-! ## Runs with a fault -/

/-- The step behind a run is without a fault just if it does not come to a hook that is refused. -/
theorem step_eq_error_iff {fault : BatchFault} (hops : plan.registry.operations = before ++ op :: after)
    (hrun : compileOperations plan 0 {} before = (p, none)) :
    compileOperation plan p before.length op = .error fault ↔ plan.Roots before.length op ∧
      refusesHook plan.settings op.file = true ∧ fault = .unsupportedHook op.file.path := by
  rw [compileOperation_eq_error_iff (sound_of_append hops hrun).holds, takes_iff_roots hops (covers_of_run hops hrun)]

/-- A run without a fault has come to no hook that is refused. -/
theorem not_refused_of_run {i : Nat} (hops : plan.registry.operations = before ++ after)
    (hrun : compileOperations plan 0 {} before = (p, none)) (hi : i < before.length) (hroots : plan.Roots i op) :
    refusesHook plan.settings op.file = false := by
  have hop := hroots.getElem?
  rw [hops, List.getElem?_append_left hi] at hop
  obtain ⟨first, rest, rfl, rfl⟩ := exists_split_of_getElem? hop
  rw [List.append_assoc] at hops
  obtain ⟨q, hq, hrest⟩ := exists_of_compileOperations_append hrun
  obtain ⟨q', hstep, -⟩ := compileOperations_cons_iff.1 hrest
  rw [Nat.zero_add] at hstep
  by_contra hrefused
  have herror := (step_eq_error_iff hops hq).2 ⟨hroots, Bool.not_eq_false _ ▸ hrefused, rfl⟩
  rw [hstep] at herror
  cases herror

/-- The fault of a run is that of the first hook that is refused, and up to it the build is told just the files that
come to missing fragments. -/
theorem fault_of_run {fault : BatchFault}
    (h : compileOperations plan 0 {} plan.registry.operations = (p, some fault)) : ∃ index op, plan.Roots index op ∧
      refusesHook plan.settings op.file = true ∧
      (∀ i < index, ∀ other, plan.Roots i other → refusesHook plan.settings other.file = false) ∧
      fault = .unsupportedHook op.file.path ∧
      p.events = ((plan.registry.operations.take index).zipIdx.filter fun x => plan.Fails x.2 x.1).map
        fun x => .extractionFailed x.1.file.path := by
  obtain ⟨before, op, after, hops, hrun, hstep⟩ := exists_step_of_fault h
  rw [Nat.zero_add] at hstep
  obtain ⟨hroots, hrefused, hfault⟩ := (step_eq_error_iff hops hrun).1 hstep
  refine ⟨before.length, op, hroots, hrefused, fun i hi other => not_refused_of_run hops hrun hi, hfault, ?_⟩
  rw [events_of_run hops hrun, hops, List.take_left]

/-- A run has a fault just if there is a hook that is refused. -/
theorem exists_fault_iff : (∃ p fault, compileOperations plan 0 {} plan.registry.operations = (p, some fault)) ↔
    ∃ index op, plan.Roots index op ∧ refusesHook plan.settings op.file = true := by
  constructor
  · rintro ⟨p, fault, h⟩
    obtain ⟨index, op, hroots, hrefused, -⟩ := fault_of_run h
    exact ⟨index, op, hroots, hrefused⟩
  · rintro ⟨index, op, hroots, hrefused⟩
    cases h : compileOperations plan 0 {} plan.registry.operations with
    | mk p fault =>
      cases fault with
      | some fault => exact ⟨p, fault, rfl⟩
      | none =>
        have hlt := (List.getElem?_eq_some_iff.1 hroots.getElem?).1
        rw [not_refused_of_run (List.append_nil _).symm h hlt hroots] at hrefused
        cases hrefused

end Runs

/-! ## Batches -/

section Batches

variable {settings : Settings} {schema : Schema} {files : List QueryFile}

theorem refusesHook_iff {file : QueryFile} : refusesHook settings file = true ↔
    file.isHook = true ∧ settings.develop = false ∧ settings.hooksSupported = false := by
  unfold refusesHook
  rw [Bool.and_eq_true, Bool.and_eq_true, Bool.not_eq_true', Bool.not_eq_true', and_assoc]

/-- What ends a run with an outcome: the diagnostics as errors, if there are any, and then, in a development session,
what to show. -/
theorem closingEvents_eq (settings : Settings) (sources : Sources) (diagnostics : List Diagnostic) :
    closingEvents settings sources diagnostics =
      (if diagnostics.isEmpty then [] else [.batchFailed (diagnostics.map fun d => d.report sources)]) ++
      (if settings.develop then
        [.publish overlayChannel
          (if diagnostics.isEmpty then none else some (diagnostics.map fun d => d.report sources))]
      else []) := by
  unfold closingEvents reportAll
  simp only [List.isEmpty_map]

/-- A batch with a fault has gathered its files, and the run over their operations ends in it. -/
theorem exists_run_of_fault {fault : BatchFault} (h : (compile settings schema files).result = .error fault) :
    ∃ registry p, gather schema 0 {} files = .ok registry ∧
      compileOperations (Plan.of settings schema registry) 0 {} registry.operations = (p, some fault) := by
  cases hgather : gather schema 0 {} files with
  | error found =>
    unfold compile at h
    rw [hgather] at h
    cases h
  | ok registry =>
    refine ⟨registry, _, rfl, Prod.ext rfl ?_⟩
    cases hrun : compileOperations (Plan.of settings schema registry) 0 {} registry.operations with
    | mk p ending =>
      cases ending with
      | none =>
        rw [compile_of_run hgather hrun] at h
        cases h
      | some other =>
        rw [compile_of_fault hgather hrun] at h
        cases h
        rfl

/-- A run with an outcome ends in the report of its diagnostics, and tells the build before of nothing but files that
nothing can be compiled from. -/
theorem events_of_outcome {outcome : BatchOutcome} (h : (compile settings schema files).result = .ok outcome) :
    ∃ paths : List String, (compile settings schema files).events = paths.map .extractionFailed ++
      closingEvents settings (QueryFile.sources files) outcome.diagnostics := by
  cases hgather : gather schema 0 {} files with
  | error found =>
    unfold compile at h ⊢
    rw [hgather] at h ⊢
    cases h
    exact ⟨[found.1.path], rfl⟩
  | ok registry =>
    cases hrun : compileOperations (Plan.of settings schema registry) 0 {} registry.operations with
    | mk p ending =>
      cases ending with
      | some fault =>
        rw [compile_of_fault hgather hrun] at h
        cases h
      | none =>
        have hevents := @events_of_run (Plan.of settings schema registry) _ [] p (List.append_nil _).symm hrun
        rw [compile_of_run hgather hrun] at h ⊢
        cases h
        refine ⟨(registry.operations.zipIdx.filter fun x => (Plan.of settings schema registry).Fails x.2 x.1).map
          fun x => x.1.file.path, ?_⟩
        rw [List.map_map]
        exact congrArg (· ++ _) hevents

/-- A batch ends in a fault just if all its files pass the structural rules, hooks are neither run nor supported, and a
hook is the operation that its file is compiled from. The fault names the first such hook, and the build has been told
just the files of the operations before that come to missing fragments. A batch with an outcome reports its diagnostics
as errors, one each, once at its end if there are any; then, in a development session alone, it shows them. -/
theorem ended (settings : Settings) (schema : Schema) (files : List QueryFile) :
    ((∃ fault, (compile settings schema files).result = .error fault) ↔
      (∀ i file, files[i]? = some file → validateStructural schema i file.document = []) ∧
      settings.develop = false ∧ settings.hooksSupported = false ∧
      ∃ registry, gather schema 0 {} files = .ok registry ∧
        ∃ index op, (Plan.of settings schema registry).Roots index op ∧ op.file.isHook = true) ∧
    (∀ fault, (compile settings schema files).result = .error fault →
      ∃ registry index op, gather schema 0 {} files = .ok registry ∧
        (Plan.of settings schema registry).Roots index op ∧ op.file.isHook = true ∧
        (∀ i < index, ∀ other, (Plan.of settings schema registry).Roots i other → other.file.isHook = false) ∧
        fault = .unsupportedHook op.file.path ∧
        (compile settings schema files).events = ((registry.operations.take index).zipIdx.filter
          fun x => (Plan.of settings schema registry).Fails x.2 x.1).map fun x => .extractionFailed x.1.file.path) ∧
    ∀ outcome, (compile settings schema files).result = .ok outcome →
      ∃ (paths : List String) (errors : List ReportedError),
        errors = outcome.diagnostics.map (fun d => d.report (QueryFile.sources files)) ∧
        (compile settings schema files).events = paths.map .extractionFailed ++
          (if outcome.diagnostics.isEmpty then [] else [.batchFailed errors]) ++
          (if settings.develop then
            [.publish overlayChannel (if outcome.diagnostics.isEmpty then none else some errors)]
          else []) := by
  refine ⟨⟨?_, ?_⟩, ?_, ?_⟩
  · rintro ⟨fault, h⟩
    obtain ⟨registry, p, hgather, hrun⟩ := exists_run_of_fault h
    obtain ⟨index, op, hroots, hrefused⟩ := exists_fault_iff.1 ⟨p, fault, hrun⟩
    obtain ⟨hhook, hdevelop, hsupported⟩ := refusesHook_iff.1 hrefused
    refine ⟨fun i file hi => ?_, hdevelop, hsupported, registry, hgather, index, op, hroots, hhook⟩
    exact structural_of_source (passes_of_gather hgather (List.mem_of_getElem? hi)) i
  · rintro ⟨-, hdevelop, hsupported, registry, hgather, index, op, hroots, hhook⟩
    obtain ⟨p, fault, hrun⟩ := exists_fault_iff.2 ⟨index, op, hroots, refusesHook_iff.2 ⟨hhook, hdevelop, hsupported⟩⟩
    exact ⟨fault, by rw [compile_of_fault hgather hrun]⟩
  · intro fault h
    obtain ⟨registry, p, hgather, hrun⟩ := exists_run_of_fault h
    obtain ⟨index, op, hroots, hrefused, hfirst, hpath, hevents⟩ := fault_of_run hrun
    obtain ⟨hhook, hdevelop, hsupported⟩ := refusesHook_iff.1 hrefused
    refine ⟨registry, index, op, hgather, hroots, hhook, fun i hi other hother => ?_, hpath, ?_⟩
    · have hpasses := hfirst i hi other hother
      by_contra hhook'
      rw [refusesHook_iff.2 ⟨Bool.not_eq_false _ ▸ hhook', hdevelop, hsupported⟩] at hpasses
      cases hpasses
    · rw [compile_of_fault hgather hrun]
      exact hevents
  · intro outcome h
    obtain ⟨paths, hevents⟩ := events_of_outcome h
    refine ⟨paths, _, rfl, ?_⟩
    rw [hevents, closingEvents_eq, List.append_assoc]

end Batches

/-- An operation that spreads a fragment that does not exist, and two hooks. -/
def hookFiles : List QueryFile :=
  [sampleFile "a.js" "query A \x7b ...Gone \x7d", { sampleFile "h.js" "query H \x7b a \x7d" with isHook := true },
    { sampleFile "i.js" "query I \x7b a \x7d" with isHook := true }]

theorem ended_sample :
    (compile { hooksSupported := false } sampleSchema hookFiles).result = .error (.unsupportedHook "h.js") ∧
    (∀ i file, hookFiles[i]? = some file → validateStructural sampleSchema i file.document = []) ∧
    ∃ outcome, (compile { develop := true, hooksSupported := false } sampleSchema hookFiles).result = .ok outcome ∧
      ∃ (paths : List String) (errors : List ReportedError),
        (compile { develop := true, hooksSupported := false } sampleSchema hookFiles).events =
          paths.map .extractionFailed ++ [.batchFailed errors, .publish overlayChannel (some errors)] := by
  have hfault : ((compile { hooksSupported := false } sampleSchema hookFiles).result.map fun _ => ()) =
      .error (.unsupportedHook "h.js") := by
    decide +kernel
  have houtcome : ((compile { develop := true, hooksSupported := false } sampleSchema hookFiles).result.map
      fun outcome => outcome.diagnostics.isEmpty) = .ok false := by
    decide +kernel
  cases hresult : (compile { hooksSupported := false } sampleSchema hookFiles).result with
  | ok outcome =>
    rw [hresult] at hfault
    cases hfault
  | error fault =>
    rw [hresult] at hfault
    cases hfault
    cases hresult' : (compile { develop := true, hooksSupported := false } sampleSchema hookFiles).result with
    | error fault =>
      rw [hresult'] at houtcome
      cases houtcome
    | ok outcome =>
      rw [hresult'] at houtcome
      have hsome : outcome.diagnostics.isEmpty = false := Except.ok.inj houtcome
      obtain ⟨paths, errors, -, hevents⟩ := (ended _ sampleSchema hookFiles).2.2 outcome hresult'
      refine ⟨rfl, ((ended _ sampleSchema hookFiles).1.1 ⟨_, hresult⟩).1, outcome, rfl, paths, errors, ?_⟩
      rw [hevents, hsome, List.append_assoc]
      rfl

end QueryBatch.Batch
