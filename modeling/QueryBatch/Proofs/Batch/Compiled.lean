import Mathlib.Data.List.Induction
import QueryBatch.Batch
import QueryBatch.Parse.Document
import QueryBatch.Proofs.Closure

/-!
# What a batch compiles

* `Batch.Plan.of`: the plan of a batch, whose global rules look at all definitions of its registry.
* `Plan.Compiles`: the operation of an index is compiled, with a closure.
* `verdict_eq_compiled_iff`: what the verdict demands of it.
* `Progress.Sound`: the cache of a run holds closures, and its queries and operations are compiled ones.
  `sound_compileOperations`: every run keeps this up. `steps_induction`: the induction over the steps of a run.
* `mem_compiled_iff`: the operations that a run has compiled are those that its plan compiles.
* `Plan.Takes`: what decides whether an operation is compiled. `compileOperation_next`: the step of a run in these
  terms. `compile_of_run`, `compile_of_fault`: the run of a batch, by that over its operations.
-/

namespace QueryBatch.Batch

/-- The plan of a batch. -/
def Plan.of (settings : Settings) (schema : Schema) (registry : Registry) : Plan :=
  ⟨settings, registry, validateGlobal schema (registry.operations.map fun op => (op.source, op.definition))
    (registry.fragments.map fun f => (f.source, f.definition))⟩

/-- The operation of an index is compiled, with this closure: the operations before it are settled without a fault, the
rules do not reject it, and the verdict on it is to compile. -/
def Plan.Compiles (plan : Plan) (index : Nat) (op : RegisteredOperation) (closure : Closure) : Prop :=
  ∃ before after p, plan.registry.operations = before ++ op :: after ∧ before.length = index ∧
    compileOperations plan 0 {} before = (p, none) ∧ index ∉ plan.validation.rejected ∧
    (p.cache.resolve plan.registry op.source op.definition.body).1 = closure ∧
    verdict plan.validation.tainted p.compiled op closure = .compiled ∧ refusesHook plan.settings op.file = false

/-- The query of an operation that is compiled with a closure. -/
def Plan.queryOf (plan : Plan) (op : RegisteredOperation) (closure : Closure) : CompiledQuery :=
  .of plan.settings.projectRoot op.file op.definition (minimalDocument plan.registry closure op.definition)

/-! ## Verdicts -/

/-- An operation is compiled just if it spreads no missing and no tainted fragment and is the first of its file. -/
theorem verdict_eq_compiled_iff {tainted : OrderedSet String} {compiled : List RegisteredOperation}
    {op : RegisteredOperation} {closure : Closure} : verdict tainted compiled op closure = .compiled ↔
      closure.missing.toList = [] ∧ (∀ name ∈ closure.fragments, name ∉ tainted) ∧
        ∀ other ∈ compiled, other.source ≠ op.source := by
  unfold verdict
  cases hmissing : closure.missing.toList with
  | cons first others => exact iff_of_false nofun fun h => List.cons_ne_nil _ _ h.1
  | nil =>
    cases htainted : closure.fragments.toList.find? fun name => name ∈ tainted with
    | some name =>
      refine iff_of_false nofun fun h => h.2.1 name (List.mem_of_find?_eq_some htainted) ?_
      simpa using List.find?_some htainted
    | none =>
      have hclean : ∀ name ∈ closure.fragments, name ∉ tainted := fun name hn ht =>
        List.find?_eq_none.1 htainted name hn (decide_eq_true ht)
      cases hfirst : compiled.find? fun other => other.source == op.source with
      | some first =>
        refine iff_of_false nofun fun h => h.2.2 first (List.mem_of_find?_eq_some hfirst) ?_
        simpa using List.find?_some hfirst
      | none =>
        refine iff_of_true rfl ⟨rfl, hclean, fun other ho he => ?_⟩
        exact List.find?_eq_none.1 hfirst other ho (beq_iff_eq.2 he)

/-! ## One operation -/

section Step

variable {plan : Plan} {p p' : Progress} {index : Nat} {op : RegisteredOperation}

/-- What one operation does to a run: nothing if it is rejected; otherwise its closure is resolved, and only if it is
compiled the queries change. -/
theorem compileOperation_cases (h : compileOperation plan p index op = .ok p') :
    (index ∈ plan.validation.rejected ∧ p' = p) ∨
    (index ∉ plan.validation.rejected ∧
      p'.cache = (p.cache.resolve plan.registry op.source op.definition.body).2 ∧
      ((p'.queries = p.queries ∧ p'.compiled = p.compiled) ∨
        ∃ closure, (p.cache.resolve plan.registry op.source op.definition.body).1 = closure ∧
          verdict plan.validation.tainted p.compiled op closure = .compiled ∧
          refusesHook plan.settings op.file = false ∧
          p'.queries = p.queries.insert op.file.path (plan.queryOf op closure) ∧
          p'.compiled = p.compiled ++ [op])) := by
  unfold compileOperation at h
  split at h
  · rename_i hr
    cases h
    exact .inl ⟨hr, rfl⟩
  · rename_i hr
    refine .inr ⟨hr, ?_⟩
    generalize hres : p.cache.resolve plan.registry op.source op.definition.body = res at h ⊢
    obtain ⟨closure, cache⟩ := res
    dsimp only at h
    cases hv : verdict plan.validation.tainted p.compiled op closure with
    | unresolved first others =>
      rw [hv] at h
      cases h
      exact ⟨rfl, .inl ⟨rfl, rfl⟩⟩
    | tainted fragment =>
      rw [hv] at h
      cases h
      exact ⟨rfl, .inl ⟨rfl, rfl⟩⟩
    | secondRoot first =>
      rw [hv] at h
      cases h
      exact ⟨rfl, .inl ⟨rfl, rfl⟩⟩
    | compiled =>
      rw [hv] at h
      simp only [Progress.settle] at h
      split at h
      · cases h
      · rename_i hhook
        cases h
        exact ⟨rfl, .inr ⟨closure, rfl, hv, by simpa using hhook, rfl, rfl⟩⟩

end Step

/-! ## Runs -/

/-- An index splits a list. -/
theorem exists_split_of_getElem? {α : Type} {as : List α} {i : Nat} {a : α} (h : as[i]? = some a) :
    ∃ before after, as = before ++ a :: after ∧ before.length = i := by
  obtain ⟨hlt, rfl⟩ := List.getElem?_eq_some_iff.1 h
  refine ⟨as.take i, as.drop (i + 1), ?_, List.length_take_of_le (Nat.le_of_lt hlt)⟩
  rw [List.getElem_cons_drop, List.take_append_drop]

/-- A run whose cache holds closures, and whose queries and operations are compiled ones. -/
structure Progress.Sound (plan : Plan) (p : Progress) : Prop where
  holds : ClosureCache.Holds plan.registry p.cache.entries
  queries : ∀ path q, p.queries.find? path = some q →
    ∃ index op closure, plan.Compiles index op closure ∧ op.file.path = path ∧ plan.queryOf op closure = q
  compiled : ∀ op ∈ p.compiled, ∃ index closure, plan.Compiles index op closure

theorem sound_empty (plan : Plan) : Progress.Sound plan {} :=
  ⟨ClosureCache.holds_empty plan.registry, nofun, nofun⟩

section Runs

variable {plan : Plan}

/-- A run over some operations goes on with the others. -/
theorem compileOperations_append {before : List RegisteredOperation} {index : Nat} {p p' : Progress}
    (h : compileOperations plan index p before = (p', none)) (after : List RegisteredOperation) :
    compileOperations plan index p (before ++ after) = compileOperations plan (index + before.length) p' after := by
  induction before generalizing index p with
  | nil =>
    cases h
    rfl
  | cons op before ih =>
    rw [compileOperations] at h
    rw [List.cons_append, compileOperations]
    split at h
    · rw [ih h, List.length_cons, Nat.add_assoc, Nat.add_comm 1]
    · cases h

/-- A run without a fault is a step without one and a run over what is left. -/
theorem compileOperations_cons_iff {op : RegisteredOperation} {ops : List RegisteredOperation} {index : Nat}
    {p p' : Progress} : compileOperations plan index p (op :: ops) = (p', none) ↔
      ∃ q, compileOperation plan p index op = .ok q ∧ compileOperations plan (index + 1) q ops = (p', none) := by
  rw [compileOperations]
  cases compileOperation plan p index op with
  | error fault =>
    refine iff_of_false (fun h => by cases h) ?_
    rintro ⟨q, h, -⟩
    cases h
  | ok next =>
    refine ⟨fun h => ⟨next, rfl, h⟩, ?_⟩
    rintro ⟨q, ⟨⟩, h⟩
    exact h

/-- A run without a fault over some operations and others is one over the first and one over the others. -/
theorem exists_of_compileOperations_append {before after : List RegisteredOperation} {index : Nat} {p p' : Progress}
    (h : compileOperations plan index p (before ++ after) = (p', none)) :
    ∃ q, compileOperations plan index p before = (q, none) ∧
      compileOperations plan (index + before.length) q after = (p', none) := by
  induction before generalizing index p with
  | nil => exact ⟨p, rfl, h⟩
  | cons op before ih =>
    obtain ⟨next, hnext, h⟩ := compileOperations_cons_iff.1 h
    obtain ⟨q, hq, hrest⟩ := ih h
    refine ⟨q, compileOperations_cons_iff.2 ⟨next, hnext, hq⟩, ?_⟩
    rw [List.length_cons, Nat.add_comm before.length, ← Nat.add_assoc]
    exact hrest

/-- A run without a fault and one more step without one. -/
theorem compileOperations_concat_iff {before : List RegisteredOperation} {op : RegisteredOperation} {p : Progress} :
    compileOperations plan 0 {} (before ++ [op]) = (p, none) ↔
      ∃ q, compileOperations plan 0 {} before = (q, none) ∧ compileOperation plan q before.length op = .ok p := by
  constructor
  · intro h
    obtain ⟨q, hq, hlast⟩ := exists_of_compileOperations_append h
    obtain ⟨p', hstep, ⟨⟩⟩ := compileOperations_cons_iff.1 hlast
    exact ⟨q, hq, Nat.zero_add before.length ▸ hstep⟩
  · rintro ⟨q, hq, hstep⟩
    rw [compileOperations_append hq, Nat.zero_add]
    exact compileOperations_cons_iff.2 ⟨p, hstep, rfl⟩

/-- What holds at the start of a run, and is kept by every step of it, holds of the run. -/
theorem steps_induction {P : List RegisteredOperation → Progress → Prop} {before after : List RegisteredOperation}
    {p : Progress} (hstart : P [] {})
    (hstep : ∀ before op after p p', plan.registry.operations = before ++ op :: after →
      compileOperations plan 0 {} before = (p, none) → compileOperation plan p before.length op = .ok p' →
      P before p → P (before ++ [op]) p')
    (hops : plan.registry.operations = before ++ after) (hrun : compileOperations plan 0 {} before = (p, none)) :
    P before p := by
  induction before using List.reverseRecOn generalizing after p with
  | nil =>
    cases hrun
    exact hstart
  | append_singleton before op ih =>
    obtain ⟨q, hq, hlast⟩ := compileOperations_concat_iff.1 hrun
    have hops' : plan.registry.operations = before ++ op :: after := by
      rw [hops, List.append_assoc]
      rfl
    exact hstep before op after q p hops' hq hlast (ih hops' hq)

/-- The operation behind those of a run keeps the run sound. -/
theorem sound_compileOperation {before after : List RegisteredOperation} {op : RegisteredOperation} {p p' : Progress}
    (hops : plan.registry.operations = before ++ op :: after) (hrun : compileOperations plan 0 {} before = (p, none))
    (hp : p.Sound plan) (h : compileOperation plan p before.length op = .ok p') : p'.Sound plan := by
  rcases compileOperation_cases h with ⟨-, rfl⟩ | ⟨hr, hcache, hrest⟩
  · exact hp
  · have hholds : ClosureCache.Holds plan.registry p'.cache.entries := by
      rw [hcache]
      exact (ClosureCache.resolve_spec hp.holds op.source op.definition.body).2
    rcases hrest with ⟨hq, hc⟩ | ⟨closure, hclosure, hv, hhook, hq, hc⟩
    · exact ⟨hholds, by rw [hq]; exact hp.queries, by rw [hc]; exact hp.compiled⟩
    · have hcompiles : plan.Compiles before.length op closure :=
        ⟨before, after, p, hops, rfl, hrun, hr, hclosure, hv, hhook⟩
      refine ⟨hholds, fun path q hfind => ?_, fun other ho => ?_⟩
      · rw [hq, OrderedMap.find?_insert] at hfind
        split at hfind
        · rename_i hpath
          cases hfind
          exact ⟨_, op, closure, hcompiles, hpath, rfl⟩
        · exact hp.queries path q hfind
      · rw [hc] at ho
        rcases List.mem_append.1 ho with ho | ho
        · exact hp.compiled other ho
        · cases List.mem_singleton.1 ho
          exact ⟨_, closure, hcompiles⟩

/-- Every run over some of the operations is sound, whether or not a fault ends it. -/
theorem sound_compileOperations {before middle after : List RegisteredOperation} {p : Progress}
    (hops : plan.registry.operations = before ++ (middle ++ after))
    (hrun : compileOperations plan 0 {} before = (p, none)) (hp : p.Sound plan) :
    (compileOperations plan before.length p middle).1.Sound plan := by
  induction middle generalizing before p with
  | nil => exact hp
  | cons op middle ih =>
    rw [compileOperations]
    cases hstep : compileOperation plan p before.length op with
    | error fault => exact hp
    | ok next =>
      have hnext := compileOperations_concat_iff.2 ⟨p, hrun, hstep⟩
      have hops' : plan.registry.operations = before ++ [op] ++ (middle ++ after) := by
        rw [List.append_assoc]
        exact hops
      have := ih hops' hnext (sound_compileOperation hops hrun hp hstep)
      rwa [List.length_append, List.length_singleton] at this

theorem sound_of_append {before after : List RegisteredOperation} {p : Progress}
    (hops : plan.registry.operations = before ++ after) (hrun : compileOperations plan 0 {} before = (p, none)) :
    p.Sound plan := by
  have hsound : (compileOperations plan 0 {} before).1.Sound plan :=
    @sound_compileOperations plan [] before after {} hops rfl (sound_empty plan)
  rwa [hrun] at hsound

theorem sound_run (plan : Plan) : (compileOperations plan 0 {} plan.registry.operations).1.Sound plan :=
  @sound_compileOperations plan [] _ [] {} (by simp) rfl (sound_empty plan)

/-- A run forgets no operation that it has compiled. -/
theorem compiled_subset (after : List RegisteredOperation) (index : Nat) (p : Progress) :
    p.compiled ⊆ (compileOperations plan index p after).1.compiled := by
  induction after generalizing index p with
  | nil => exact fun _ h => h
  | cons op after ih =>
    rw [compileOperations]
    cases hstep : compileOperation plan p index op with
    | error fault => exact fun _ h => h
    | ok next =>
      refine List.Subset.trans ?_ (ih (index + 1) next)
      rcases compileOperation_cases hstep with ⟨-, rfl⟩ | ⟨-, -, ⟨-, hc⟩ | ⟨_, -, -, -, -, hc⟩⟩
      · exact fun _ h => h
      · exact fun _ h => hc ▸ h
      · exact fun _ h => hc ▸ List.mem_append_left _ h

/-- The operations that a run has compiled are those that the plan compiles. -/
theorem mem_compiled_iff {op : RegisteredOperation} :
    op ∈ (compileOperations plan 0 {} plan.registry.operations).1.compiled ↔
      ∃ index closure, plan.Compiles index op closure := by
  constructor
  · exact (sound_run plan).compiled op
  · rintro ⟨index, closure, before, after, p, hops, rfl, hrun, hr, rfl, hv, hhook⟩
    rw [hops, compileOperations_append hrun, Nat.zero_add, compileOperations]
    have hstep : ∃ next, compileOperation plan p before.length op = .ok next ∧ op ∈ next.compiled := by
      simp only [compileOperation, if_neg hr, hv, Progress.settle, hhook, Bool.false_eq_true, if_false]
      exact ⟨_, rfl, List.mem_append_right _ (List.mem_singleton_self op)⟩
    obtain ⟨next, hnext, hmem⟩ := hstep
    rw [hnext]
    exact compiled_subset after _ next hmem

end Runs

/-! ## Compiled operations -/

namespace Plan.Compiles

variable {plan : Plan} {index : Nat} {op : RegisteredOperation} {closure : Closure}

theorem getElem? (h : plan.Compiles index op closure) : plan.registry.operations[index]? = some op := by
  obtain ⟨before, after, -, hops, rfl, -⟩ := h
  rw [hops, List.getElem?_append_right (Nat.le_refl _), Nat.sub_self]
  rfl

theorem mem_operations (h : plan.Compiles index op closure) : op ∈ plan.registry.operations :=
  List.mem_of_getElem? h.getElem?

theorem not_rejected (h : plan.Compiles index op closure) : index ∉ plan.validation.rejected := by
  obtain ⟨_, _, _, _, _, _, hr, _⟩ := h
  exact hr

theorem not_refused (h : plan.Compiles index op closure) : refusesHook plan.settings op.file = false := by
  obtain ⟨_, _, _, _, _, _, _, _, _, hhook⟩ := h
  exact hhook

/-- The closure that an operation is compiled with holds just what the operation depends on. -/
theorem isClosureOf (h : plan.Compiles index op closure) :
    closure.IsClosureOf plan.registry op.source op.definition.body := by
  obtain ⟨before, after, p, hops, -, hrun, -, rfl, -⟩ := h
  exact (ClosureCache.resolve_spec (sound_of_append hops hrun).holds op.source op.definition.body).1

theorem missing_eq_nil (h : plan.Compiles index op closure) : closure.missing.toList = [] := by
  obtain ⟨_, _, _, _, _, _, _, _, hv, _⟩ := h
  exact (verdict_eq_compiled_iff.1 hv).1

/-- Whatever an operation that is compiled spreads, directly or through others, is the name of a fragment. -/
theorem fragment?_ne_none (h : plan.Compiles index op closure) {part : Nat × SelectionSet}
    (hpart : plan.registry.Part (op.source, op.definition.body) part) {s : Spread} (hs : s ∈ part.2.spreads) :
    plan.registry.fragment? s.name.text ≠ none := by
  intro hnone
  have hm := (h.isClosureOf.mem_missing _).2 ⟨part, hpart, s, hs, hnone, rfl⟩
  rw [OrderedSet.mem_iff, h.missing_eq_nil] at hm
  exact List.not_mem_nil hm

/-- Every name of the closure stands for a fragment. -/
theorem exists_fragment? (h : plan.Compiles index op closure) {name : String} (hn : name ∈ closure.fragments) :
    ∃ f, plan.registry.fragment? name = some f := by
  obtain ⟨body, hbody⟩ := ((h.isClosureOf.mem_fragments name).1 hn).exists_body
  obtain ⟨f, hf, -⟩ := Registry.exists_of_bodyOf hbody
  exact ⟨f, hf⟩

theorem not_tainted (h : plan.Compiles index op closure) {name : String} (hn : name ∈ closure.fragments) :
    name ∉ plan.validation.tainted := by
  obtain ⟨_, _, _, _, _, _, _, _, hv, _⟩ := h
  exact (verdict_eq_compiled_iff.1 hv).2.1 name hn

end Plan.Compiles

/-! ## What an operation needs -/

/-- What the verdict demands of an operation, whatever was compiled before: it is not rejected, and spreads no missing
and no tainted fragment. -/
structure Plan.Admits (plan : Plan) (index : Nat) (op : RegisteredOperation) : Prop where
  passes : index ∉ plan.validation.rejected
  complete : ¬ plan.registry.Lacking op.definition.body
  clean : ∀ name, Reaches plan.registry.bodyOf op.definition.body name → name ∉ plan.validation.tainted

/-- The operation is compiled behind these: it is admitted, and the first of its file. -/
def Plan.Takes (plan : Plan) (compiled : List RegisteredOperation) (index : Nat) (op : RegisteredOperation) : Prop :=
  plan.Admits index op ∧ ∀ other ∈ compiled, other.source ≠ op.source

section Next

variable {plan : Plan} {p : Progress} {index : Nat} {op : RegisteredOperation}

/-- A verdict is to compile just if the plan takes the operation. -/
theorem verdict_eq_compiled_iff_takes {compiled : List RegisteredOperation} {closure : Closure}
    (hpasses : index ∉ plan.validation.rejected)
    (hclosure : closure.IsClosureOf plan.registry op.source op.definition.body) :
    verdict plan.validation.tainted compiled op closure = .compiled ↔ plan.Takes compiled index op := by
  rw [verdict_eq_compiled_iff, hclosure.missing_eq_nil_iff]
  constructor
  · rintro ⟨hcomplete, hclean, hfirst⟩
    exact ⟨⟨hpasses, hcomplete, fun name hreach => hclean name ((hclosure.mem_fragments name).2 hreach)⟩, hfirst⟩
  · rintro ⟨hadmits, hfirst⟩
    exact ⟨hadmits.complete, fun name hn => hadmits.clean name ((hclosure.mem_fragments name).1 hn), hfirst⟩

/-- A run goes on with every operation, if no hook is refused, and compiles those that the plan takes. -/
theorem compileOperation_next (hholds : ClosureCache.Holds plan.registry p.cache.entries)
    (hhook : refusesHook plan.settings op.file = false) : ∃ p', compileOperation plan p index op = .ok p' ∧
      ClosureCache.Holds plan.registry p'.cache.entries ∧
      ((plan.Takes p.compiled index op ∧ p'.compiled = p.compiled ++ [op] ∧
          ∃ closure, closure.IsClosureOf plan.registry op.source op.definition.body ∧
            p'.queries = p.queries.insert op.file.path (plan.queryOf op closure)) ∨
        (¬ plan.Takes p.compiled index op ∧ p'.compiled = p.compiled ∧ p'.queries = p.queries)) := by
  by_cases hr : index ∈ plan.validation.rejected
  · refine ⟨p, ?_, hholds, .inr ⟨fun h => h.1.passes hr, rfl, rfl⟩⟩
    unfold compileOperation
    rw [if_pos hr]
  · obtain ⟨hclosure, hcache⟩ := ClosureCache.resolve_spec hholds op.source op.definition.body
    have hstep : compileOperation plan p index op =
        { p with cache := (p.cache.resolve plan.registry op.source op.definition.body).2 }.settle plan op
          (p.cache.resolve plan.registry op.source op.definition.body).1
          (verdict plan.validation.tainted p.compiled op
            (p.cache.resolve plan.registry op.source op.definition.body).1) := by
      unfold compileOperation
      rw [if_neg hr]
    rw [hstep]
    generalize p.cache.resolve plan.registry op.source op.definition.body = found at hclosure hcache
    have htakes : verdict plan.validation.tainted p.compiled op found.1 = .compiled ↔ plan.Takes p.compiled index op :=
      verdict_eq_compiled_iff_takes hr hclosure
    cases hv : verdict plan.validation.tainted p.compiled op found.1 with
    | unresolved first others => exact ⟨_, rfl, hcache, .inr ⟨by rw [← htakes, hv]; exact nofun, rfl, rfl⟩⟩
    | tainted fragment => exact ⟨_, rfl, hcache, .inr ⟨by rw [← htakes, hv]; exact nofun, rfl, rfl⟩⟩
    | secondRoot first => exact ⟨_, rfl, hcache, .inr ⟨by rw [← htakes, hv]; exact nofun, rfl, rfl⟩⟩
    | compiled =>
      unfold Progress.settle
      dsimp only
      rw [hhook]
      exact ⟨_, rfl, hcache, .inl ⟨htakes.1 hv, rfl, _, hclosure, rfl⟩⟩

end Next

/-! ## Runs of batches -/

section Batches

variable {settings : Settings} {schema : Schema} {files : List QueryFile} {registry : Registry} {p : Progress}

/-- The run of a batch whose operations are all handled. -/
theorem compile_of_run (hgather : gather schema 0 {} files = .ok registry)
    (hrun : compileOperations (Plan.of settings schema registry) 0 {} registry.operations = (p, none)) :
    compile settings schema files =
      let diagnostics := (Plan.of settings schema registry).validation.diagnostics ++ p.diagnostics
      ⟨p.events ++ closingEvents settings (QueryFile.sources files) diagnostics,
        .ok { queries := p.queries, diagnostics, status := .complete }⟩ := by
  unfold Plan.of at hrun ⊢
  unfold compile
  rw [hgather]
  dsimp only
  unfold compileRegistry
  dsimp only
  rw [hrun]

/-- The run of a batch that ends in a fault. -/
theorem compile_of_fault {fault : BatchFault} (hgather : gather schema 0 {} files = .ok registry)
    (hrun : compileOperations (Plan.of settings schema registry) 0 {} registry.operations = (p, some fault)) :
    compile settings schema files = ⟨p.events, .error fault⟩ := by
  unfold Plan.of at hrun
  unfold compile
  rw [hgather]
  dsimp only
  unfold compileRegistry
  dsimp only
  rw [hrun]

/-- What a run makes of its operations is the outcome of the batch. -/
theorem exists_outcome (hgather : gather schema 0 {} files = .ok registry)
    (hrun : compileOperations (Plan.of settings schema registry) 0 {} registry.operations = (p, none)) :
    ∃ outcome, (compile settings schema files).result = .ok outcome ∧ outcome.status = .complete ∧
      outcome.queries = p.queries := by
  rw [compile_of_run hgather hrun]
  exact ⟨_, rfl, rfl, rfl⟩

end Batches

/-! ## A batch of two files -/

/-- A schema of one object type. -/
def sampleSchema : Schema where
  queryType := some "Query"
  mutationType := none
  subscriptionType := none
  types := .ofList [("String", .scalar "String"), ("Int", .scalar "Int"), ("Query", .object "Query" (.ofList
    [("a", ⟨"a", .ofList [("n", ⟨"n", .named "Int", none⟩)], .named "String"⟩),
      ("b", ⟨"b", .empty, .named "Query"⟩)]) [])]
  directives := .empty

def sampleFile (path text : String) : QueryFile :=
  { source := { path, text }
    document := (Document.ofText text).toOption.getD ⟨[]⟩ }

/-- An operation that needs a fragment of its own file, which needs one of the other file; and a fragment that nothing
spreads. -/
def sampleFiles : List QueryFile :=
  [sampleFile "a.js" ("query Q($n: Int) \x7b ...F \x7d fragment U on Query \x7b a \x7d " ++
      "fragment F on Query \x7b b \x7b ...G \x7d \x7d"),
    sampleFile "b.js" "fragment G on Query \x7b a(n: $n) \x7d"]

/-- The operations that a batch compiles. -/
def compiledOperations (schema : Schema) (files : List QueryFile) : List RegisteredOperation :=
  match gather schema 0 {} files with
  | .ok r => (compileOperations (Plan.of {} schema r) 0 {} r.operations).1.compiled
  | .error _ => []

/-- What is seen of the operation of a batch that compiles one alone. -/
theorem exists_compiles {α : Type} {schema : Schema} {files : List QueryFile} {view : RegisteredOperation → α} {a : α}
    (h : (compiledOperations schema files).map view = [a]) : ∃ registry index op closure,
    gather schema 0 {} files = .ok registry ∧ (Plan.of {} schema registry).Compiles index op closure ∧ view op = a := by
  unfold compiledOperations at h
  split at h
  · rename_i registry hgather
    obtain ⟨op, hop, hview⟩ := List.map_eq_singleton_iff.1 h
    have hmem : op ∈ (compileOperations (Plan.of {} schema registry) 0 {} registry.operations).1.compiled := by
      rw [hop]
      exact List.mem_singleton_self op
    obtain ⟨index, closure, hcompiles⟩ := mem_compiled_iff.1 hmem
    exact ⟨registry, index, op, closure, hgather, hcompiles, hview⟩
  · cases h

/-- The operation of the sample is compiled. -/
theorem sample_compiles : ∃ registry index op closure, gather sampleSchema 0 {} sampleFiles = .ok registry ∧
    (Plan.of {} sampleSchema registry).Compiles index op closure ∧ op.definition.displayName = "Q" :=
  @exists_compiles _ _ _ (fun op => op.definition.displayName) _ (by decide +kernel)

end QueryBatch.Batch
