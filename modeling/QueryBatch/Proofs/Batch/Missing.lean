import QueryBatch.Proofs.Batch.Located
import QueryBatch.Proofs.Document.Heads
import QueryBatch.Proofs.Rules.Kinds

/-!
# How missing fragments are reported

A spread of a fragment that does not exist is reported once in a batch, however many operations come to it, and every
operation that comes to one is told of it.

* `SpreadAt`: a spread is written at a place of a batch. `SpreadAt.unique`, `SpreadAt.ne_head`: the place tells its
  name, and is not the head of an operation.
* `Plan.Fails`: an operation that is not rejected comes to a missing spread. `Plan.Tells`: what the step of a run does
  about it. `tells_of_compileOperation`: every step does that.
* `run_induction`: what every step keeps holds of a whole run. `events_of_run`, `places_of_run`, `count_of_run`: the
  events, the places and the number of the diagnostics on missing spreads.
* `Batch.missing_reported`: all of this for the outcome and the events of a batch.
-/

namespace QueryBatch

open Rules

namespace Batch

/-! ## Places of spreads -/

/-- A spread of a name is written at a place of some files. -/
def SpreadAt (files : List QueryFile) (place : Nat × Span) (name : String) : Prop :=
  ∃ file x s, files[place.1]? = some file ∧ x ∈ file.document.definitions ∧ s ∈ x.body.spreads ∧
    s.name.span = place.2 ∧ s.name.text = name

section Places

variable {schema : Schema} {files : List QueryFile} {registry : Registry} {op : RegisteredOperation}
  {place : Nat × Span} {name other : String}

/-- The place of a spread tells its name. -/
theorem SpreadAt.unique (hread : ∀ file ∈ files, file.IsRead) (h : SpreadAt files place name)
    (h' : SpreadAt files place other) : name = other := by
  obtain ⟨file, x, s, hfile, hx, hs, hspan, rfl⟩ := h
  obtain ⟨file', x', s', hfile', hx', hs', hspan', rfl⟩ := h'
  obtain rfl := Option.some.inj (hfile.symm.trans hfile')
  obtain ⟨limits, n, hfileRead⟩ := hread file (List.mem_of_getElem? hfile)
  have htext := Document.hasText_of_read hfileRead hx hs
  have htext' := Document.hasText_of_read hfileRead hx' hs'
  rw [hspan] at htext
  rw [hspan'] at htext'
  exact htext.unique htext'

/-- No operation has its head where a spread is written. -/
theorem SpreadAt.ne_head (hread : ∀ file ∈ files, file.IsRead) (hgather : gather schema 0 {} files = .ok registry)
    (h : SpreadAt files place name) (hop : op ∈ registry.operations) : place ≠ (op.source, op.definition.headSpan) := by
  rintro rfl
  obtain ⟨file, x, s, hfile, hx, hs, hspan, -⟩ := h
  obtain ⟨limits, n, hfileRead⟩ := hread file (List.mem_of_getElem? hfile)
  obtain ⟨file', hfile', hdefinition⟩ := (all_gather_file hgather).operations op hop
  obtain rfl := Option.some.inj (hfile.symm.trans hfile')
  exact Document.headSpan_ne_spread hfileRead hdefinition hx hs hspan.symm

/-- A missing spread that an operation comes to is written where it says. -/
theorem spreadAt_of_missing (hgather : gather schema 0 {} files = .ok registry) (hop : op ∈ registry.operations)
    {closure : Closure} (hclosure : closure.IsClosureOf registry op.source op.definition.body) {m : MissingSpread}
    (hm : m ∈ closure.missing) : SpreadAt files (m.source, m.span) m.name ∧ registry.fragment? m.name = none := by
  obtain ⟨part, hpart, s, hs, hnone, rfl⟩ := (hclosure.mem_missing m).1 hm
  refine ⟨?_, hnone⟩
  have hall := all_gather_file hgather
  cases hpart with
  | start =>
    obtain ⟨file, hfile, hdefinition⟩ := hall.operations op hop
    exact ⟨file, _, s, hfile, hdefinition, hs, rfl, rfl⟩
  | @fragment _ f _ hfound =>
    obtain ⟨file, hfile, hdefinition⟩ := hall.fragments f (Registry.mem_of_fragment? hfound)
    exact ⟨file, _, s, hfile, hdefinition, hs, rfl, rfl⟩

/-- The missing spreads of an operation are written at different places. -/
theorem nodup_places (hread : ∀ file ∈ files, file.IsRead) (hgather : gather schema 0 {} files = .ok registry)
    (hop : op ∈ registry.operations) {closure : Closure}
    (hclosure : closure.IsClosureOf registry op.source op.definition.body) :
    (closure.missing.toList.map fun m => (m.source, m.span)).Nodup := by
  refine closure.missing.nodup.map_on fun m hm m' hm' he => ?_
  have hat := (spreadAt_of_missing hgather hop hclosure hm).1
  have hat' := (spreadAt_of_missing hgather hop hclosure hm').1
  rw [← he] at hat'
  obtain ⟨name, source, span⟩ := m
  obtain ⟨name', source', span'⟩ := m'
  cases he
  cases hat.unique hread hat'
  rfl

end Places

/-! ## Diagnostics on missing spreads -/

/-- A diagnostic says at a place that a fragment is missing. -/
def UndefinedAt (place : Nat × Span) (d : Diagnostic) : Prop :=
  d.kind = .undefinedFragment ∧ (d.source, d.span) = place

instance (place : Nat × Span) : DecidablePred (UndefinedAt place) := fun _ => inferInstanceAs (Decidable (_ ∧ _))

section Diagnostics

variable {registry : Registry} {reported : List (Nat × Span)} {op : RegisteredOperation} {first : MissingSpread}
  {others : List MissingSpread} {place : Nat × Span} {d : Diagnostic}

theorem undefinedAt_undefinedFragment (registry : Registry) (m : MissingSpread) :
    UndefinedAt (m.source, m.span) (undefinedFragment registry m) := by
  unfold undefinedFragment
  dsimp only
  split <;> exact ⟨rfl, rfl⟩

theorem undefinedAt_undefinedFragment_iff {m : MissingSpread} :
    UndefinedAt place (undefinedFragment registry m) ↔ (m.source, m.span) = place := by
  obtain ⟨hkind, hplace⟩ := undefinedAt_undefinedFragment registry m
  exact ⟨fun h => hplace.symm.trans h.2, fun h => ⟨hkind, hplace.trans h⟩⟩

/-- An operation is told of a missing spread at that spread, or at its head. -/
theorem undefinedAt_of_mem (h : d ∈ missingDiagnostics registry reported op first others) :
    (∃ m ∈ first :: others, UndefinedAt (m.source, m.span) d) ∨
      UndefinedAt (op.source, op.definition.headSpan) d := by
  unfold missingDiagnostics at h
  dsimp only at h
  split at h
  · rw [List.mem_singleton.1 h]
    exact .inr ⟨rfl, rfl⟩
  · obtain ⟨m, hm, rfl⟩ := List.mem_map.1 h
    exact .inl ⟨m, (List.mem_filter.1 hm).1, undefinedAt_undefinedFragment registry m⟩

/-- At a place other than its head an operation is told of the missing spreads that are written there, unless they were
reported before. -/
theorem count_missingDiagnostics (hhead : place ≠ (op.source, op.definition.headSpan)) :
    (missingDiagnostics registry reported op first others).countP (UndefinedAt place) =
      if place ∈ reported then 0 else (first :: others).countP fun m => (m.source, m.span) = place := by
  unfold missingDiagnostics
  dsimp only
  generalize first :: others = all
  have hfresh : (all.filter fun m => !reported.contains (m.source, m.span)).countP
      (fun m => decide ((m.source, m.span) = place)) =
        if place ∈ reported then 0 else all.countP fun m => (m.source, m.span) = place := by
    rw [List.countP_filter]
    split
    · rename_i hold
      refine List.countP_eq_zero.2 fun m _ hm => ?_
      simp only [Bool.and_eq_true, decide_eq_true_eq, Bool.not_eq_true', List.contains_eq_mem, decide_eq_false_iff_not]
        at hm
      exact hm.2 (hm.1 ▸ hold)
    · rename_i hnew
      refine List.countP_congr fun m _ => ?_
      simp only [Bool.and_eq_true, decide_eq_true_eq, Bool.not_eq_true', List.contains_eq_mem, decide_eq_false_iff_not]
      exact ⟨fun h => h.1, fun h => ⟨h, h ▸ hnew⟩⟩
  rw [← hfresh]
  split
  · rename_i hnone
    rw [List.isEmpty_iff.1 hnone, List.countP_singleton]
    refine if_neg fun h => hhead ?_
    exact (of_decide_eq_true h).2.symm
  · rw [List.countP_map]
    refine List.countP_congr fun m _ => ?_
    simp only [Function.comp_apply, decide_eq_true_eq, undefinedAt_undefinedFragment_iff]

end Diagnostics

/-! ## One operation -/

/-- An operation that the rules let pass comes to a spread of a missing fragment. -/
def Plan.Fails (plan : Plan) (index : Nat) (op : RegisteredOperation) : Prop :=
  index ∉ plan.validation.rejected ∧ plan.registry.Lacking op.definition.body

instance (plan : Plan) (index : Nat) (op : RegisteredOperation) : Decidable (plan.Fails index op) :=
  decidable_of_iff (index ∉ plan.validation.rejected ∧
    (({} : ClosureCache).resolve plan.registry op.source op.definition.body).1.missing.toList ≠ [])
    (and_congr_right fun _ => (not_congr (ClosureCache.resolve_spec (ClosureCache.holds_empty plan.registry) op.source
      op.definition.body).1.missing_eq_nil_iff).trans not_not)

/-- What the step of a run does about missing spreads. If the operation fails, it is told, the spreads count as reported
from then on, and the build is told the file; otherwise no word is said of missing fragments. -/
inductive Plan.Tells (plan : Plan) (index : Nat) (op : RegisteredOperation) (p p' : Progress) : Prop
  | failed {closure : Closure} {first : MissingSpread} {others : List MissingSpread} : plan.Fails index op →
    closure.IsClosureOf plan.registry op.source op.definition.body → closure.missing.toList = first :: others →
    p'.diagnostics = p.diagnostics ++ missingDiagnostics plan.registry p.reported op first others →
    p'.reported = p.reported ++ (first :: others).map (fun m => (m.source, m.span)) →
    p'.events = p.events ++ [.extractionFailed op.file.path] → p'.queries = p.queries →
    Tells plan index op p p'
  | passed {said : List Diagnostic} : ¬ plan.Fails index op → p'.diagnostics = p.diagnostics ++ said →
    (∀ d ∈ said, d.kind ≠ .undefinedFragment) → p'.reported = p.reported → p'.events = p.events →
    Tells plan index op p p'

theorem kind_invalidDependency (registry : Registry) (op : RegisteredOperation) (name : String) :
    (invalidDependency registry op name).kind = .invalidFragmentDependency := by
  unfold invalidDependency
  dsimp only
  split <;> rfl

section Runs

variable {plan : Plan} {before after : List RegisteredOperation} {op : RegisteredOperation} {p p' : Progress}

theorem tells_of_compileOperation (hops : plan.registry.operations = before ++ op :: after)
    (hrun : compileOperations plan 0 {} before = (p, none)) (h : compileOperation plan p before.length op = .ok p') :
    plan.Tells before.length op p p' := by
  by_cases hr : before.length ∈ plan.validation.rejected
  · unfold compileOperation at h
    rw [if_pos hr] at h
    cases h
    exact .passed (fun hfails => hfails.1 hr) (List.append_nil _).symm (List.forall_mem_nil _) rfl rfl
  · cases handles_of_compileOperation hops hrun h with
    | rejected hrejected => exact absurd hrejected hr
    | unresolved hclosure hmissing =>
      refine .failed ⟨hr, ?_⟩ hclosure hmissing rfl rfl rfl rfl
      by_contra hcomplete
      rw [hclosure.missing_eq_nil_iff.2 hcomplete] at hmissing
      cases hmissing
    | tainted hcomplete _ _ =>
      refine .passed (fun hfails => hcomplete hfails.2) rfl (List.forall_mem_singleton.2 ?_) rfl rfl
      rw [kind_invalidDependency]
      decide
    | second hadmits _ _ =>
      refine .passed (fun hfails => hadmits.complete hfails.2) rfl (List.forall_mem_singleton.2 ?_) rfl rfl
      exact show Diagnostic.Kind.multipleRootQueries ≠ .undefinedFragment by decide
    | compiled htakes _ =>
      exact .passed (fun hfails => htakes.1.complete hfails.2) (List.append_nil _).symm (List.forall_mem_nil _) rfl rfl

/-! ## Runs -/

/-- What holds at the start of a run, and is kept by every step of it, holds of the run. -/
theorem run_induction {P : List RegisteredOperation → Progress → Prop} (hstart : P [] {})
    (hstep : ∀ before op p p', op ∈ plan.registry.operations → plan.Tells before.length op p p' → P before p →
      P (before ++ [op]) p')
    (hops : plan.registry.operations = before ++ after) (hrun : compileOperations plan 0 {} before = (p, none)) :
    P before p := by
  refine steps_induction hstart (fun before op after p p' hops hrun h hp => ?_) hops hrun
  exact hstep before op p p' (hops ▸ List.mem_append_right before List.mem_cons_self)
    (tells_of_compileOperation hops hrun h) hp

/-- The build is told the files of the operations that fail, in the order of the operations, and nothing else. -/
theorem events_of_run (hops : plan.registry.operations = before ++ after)
    (hrun : compileOperations plan 0 {} before = (p, none)) :
    p.events = (before.zipIdx.filter fun x => plan.Fails x.2 x.1).map fun x => .extractionFailed x.1.file.path := by
  refine run_induction (P := fun before p => p.events = (before.zipIdx.filter fun x => plan.Fails x.2 x.1).map
    fun x => .extractionFailed x.1.file.path) rfl ?_ hops hrun
  rintro before op p p' - htells hevents
  rw [List.zipIdx_append, List.filter_append, List.map_append, ← hevents, Nat.zero_add, List.zipIdx_singleton,
    List.filter_singleton]
  cases htells with
  | failed hfails _ _ _ _ hnew _ =>
    rw [hnew, decide_eq_true hfails]
    rfl
  | passed hpasses _ _ _ hsame =>
    rw [hsame, decide_eq_false hpasses]
    exact (List.append_nil _).symm

/-- The spreads for which an operation fails count as reported at the end of a run. -/
theorem reported_of_run {index : Nat} (hop : plan.registry.operations[index]? = some op) (hfails : plan.Fails index op)
    {closure : Closure} (hclosure : closure.IsClosureOf plan.registry op.source op.definition.body) {m : MissingSpread}
    (hm : m ∈ closure.missing) (hrun : compileOperations plan 0 {} plan.registry.operations = (p, none)) :
    (m.source, m.span) ∈ p.reported := by
  refine run_induction (P := fun before p => ∀ index op, before[index]? = some op → plan.Fails index op →
    ∀ closure : Closure, closure.IsClosureOf plan.registry op.source op.definition.body → ∀ m ∈ closure.missing,
      (m.source, m.span) ∈ p.reported) nofun ?_ (List.append_nil _).symm hrun index op hop hfails closure hclosure m hm
  intro before op p p' _ htells hbefore index other hother hfails closure hclosure m hm
  rcases Nat.lt_or_ge index before.length with hlt | hge
  · rw [List.getElem?_append_left hlt] at hother
    have hold := hbefore index other hother hfails closure hclosure m hm
    cases htells with
    | failed _ _ _ _ hreported _ _ => exact hreported ▸ List.mem_append_left _ hold
    | passed _ _ _ hreported _ => exact hreported ▸ hold
  · have hlast := (List.getElem?_eq_some_iff.1 hother).1
    rw [List.length_append, List.length_singleton] at hlast
    obtain rfl := Nat.le_antisymm (Nat.le_of_lt_succ hlast) hge
    rw [List.getElem?_concat_length] at hother
    cases hother
    cases htells with
    | failed _ hclosure' hmissing _ hreported _ _ =>
      have hmem := (hclosure.perm hclosure').2.mem_iff.1 (OrderedSet.mem_iff.1 hm)
      rw [hmissing] at hmem
      exact hreported ▸ List.mem_append_right _ (List.mem_map_of_mem hmem)
    | passed hpasses _ _ _ _ => exact absurd hfails hpasses

/-- An operation that fails is told so by the step of the run that comes to it, and the build is told its file. -/
theorem step_of_fails {index : Nat} (hop : plan.registry.operations[index]? = some op) (hfails : plan.Fails index op)
    (hrun : compileOperations plan 0 {} plan.registry.operations = (p, none)) :
    ∃ (q q' : Progress) (said : List Diagnostic),
      compileOperations plan 0 {} (plan.registry.operations.take index) = (q, none) ∧
      compileOperation plan q index op = .ok q' ∧ q'.diagnostics = q.diagnostics ++ said ∧ said ≠ [] ∧
      (∀ d ∈ said, d.kind = .undefinedFragment ∧ d ∈ p.diagnostics) ∧
      q'.events = q.events ++ [.extractionFailed op.file.path] ∧ q'.queries = q.queries := by
  obtain ⟨before, after, hops, rfl⟩ := exists_split_of_getElem? hop
  have hbefore : plan.registry.operations.take before.length = before := by rw [hops, List.take_left]
  have hsplit : plan.registry.operations = (before ++ [op]) ++ after := by
    rw [hops, List.append_assoc]
    rfl
  rw [hsplit] at hrun
  obtain ⟨q', hq', hrest⟩ := exists_of_compileOperations_append hrun
  obtain ⟨q, hq, hstep⟩ := compileOperations_concat_iff.1 hq'
  -- what is said in the step is still said at the end
  have hkept : q'.diagnostics ⊆ p.diagnostics := by
    rw [Nat.zero_add] at hrest
    exact compileOperations_induction (P := fun p => q'.diagnostics ⊆ p.diagnostics) hsplit hq'
      (fun _ _ _ _ _ _ h hsub => List.Subset.trans hsub h.diagnostics_subset) hrest (List.Subset.refl _)
  cases tells_of_compileOperation hops hq hstep with
  | passed hpasses _ _ _ _ => exact absurd hfails hpasses
  | failed _ _ _ hsaid _ hevents hqueries =>
    refine ⟨q, q', _, hbefore.symm ▸ hq, hstep, hsaid, missingDiagnostics_ne_nil _ _ _ _ _, fun d hd => ⟨?_, hkept ?_⟩,
      hevents, hqueries⟩
    · rcases undefinedAt_of_mem hd with ⟨-, -, hkind, -⟩ | ⟨hkind, -⟩ <;> exact hkind
    · rw [hsaid]
      exact List.mem_append_right _ hd

section Files

variable {settings : Settings} {schema : Schema} {files : List QueryFile} {registry : Registry}
  (hgather : gather schema 0 {} files = .ok registry)
include hgather

/-- Missing fragments are reported where they are spread, or at the heads of operations. -/
theorem places_of_run
    (hrun : compileOperations (Plan.of settings schema registry) 0 {} registry.operations = (p, none)) :
    ∀ d ∈ p.diagnostics, d.kind = .undefinedFragment →
      (∃ name, SpreadAt files (d.source, d.span) name ∧ registry.fragment? name = none) ∨
        ∃ op ∈ registry.operations, (d.source, d.span) = (op.source, op.definition.headSpan) := by
  refine run_induction (P := fun _ p => ∀ d ∈ p.diagnostics, d.kind = .undefinedFragment →
    (∃ name, SpreadAt files (d.source, d.span) name ∧ registry.fragment? name = none) ∨
      ∃ op ∈ registry.operations, (d.source, d.span) = (op.source, op.definition.headSpan)) (List.forall_mem_nil _) ?_
    (List.append_nil _).symm hrun
  intro before op p p' hop htells hplaces
  cases htells with
  | failed _ hclosure hmissing hsaid _ _ _ =>
    rw [hsaid]
    refine List.forall_mem_append.2 ⟨hplaces, fun d hd _ => ?_⟩
    rcases undefinedAt_of_mem hd with ⟨m, hm, -, hplace⟩ | ⟨-, hhead⟩
    · rw [hplace]
      exact .inl ⟨m.name, spreadAt_of_missing hgather hop hclosure (OrderedSet.mem_iff.2 (hmissing ▸ hm))⟩
    · exact .inr ⟨op, hop, hhead⟩
  | passed _ hsaid hkinds _ _ =>
    rw [hsaid]
    exact List.forall_mem_append.2 ⟨hplaces, fun d hd hkind => absurd hkind (hkinds d hd)⟩

/-- A missing spread is reported once as soon as an operation has come to it, and not before. -/
theorem count_of_run (hread : ∀ file ∈ files, file.IsRead) {place : Nat × Span} {name : String}
    (hplace : SpreadAt files place name)
    (hrun : compileOperations (Plan.of settings schema registry) 0 {} registry.operations = (p, none)) :
    p.diagnostics.countP (UndefinedAt place) = if place ∈ p.reported then 1 else 0 := by
  refine run_induction (P := fun _ p => p.diagnostics.countP (UndefinedAt place) = if place ∈ p.reported then 1 else 0)
    rfl ?_ (List.append_nil _).symm hrun
  rintro before op p p' hop htells hcount
  cases htells with
  | @failed closure first others _ hclosure hmissing hsaid hreported _ _ =>
    have hplaces : ((first :: others).countP fun m => (m.source, m.span) = place) =
        ((first :: others).map fun m => (m.source, m.span)).count place := by
      rw [List.count, List.countP_map]
      exact List.countP_congr fun m _ => by simp
    have hnodup : ((first :: others).map fun m => (m.source, m.span)).Nodup := by
      rw [← hmissing]
      exact nodup_places hread hgather hop hclosure
    rw [hsaid, hreported, List.countP_append, hcount, count_missingDiagnostics (hplace.ne_head hread hgather hop),
      hplaces, hnodup.count]
    by_cases hold : place ∈ p.reported
    · rw [if_pos hold, if_pos hold, if_pos (List.mem_append_left _ hold)]
    · rw [if_neg hold, if_neg hold, Nat.zero_add]
      exact if_congr (List.mem_append.trans (or_iff_right hold)).symm rfl rfl
  | @passed said _ hsaid hkinds hreported _ =>
    have hnone : said.countP (UndefinedAt place) = 0 :=
      List.countP_eq_zero.2 fun d hd hat => hkinds d hd (of_decide_eq_true hat).1
    rw [hsaid, hreported, List.countP_append, hnone, hcount, Nat.add_zero]

end Files

end Runs

/-! ## Batches -/

section Batches

variable {settings : Settings} {schema : Schema} {files : List QueryFile} {outcome : BatchOutcome}

theorem extractionFailed_notMem_closingEvents (settings : Settings) (sources : Sources) (ds : List Diagnostic)
    (path : String) : .extractionFailed path ∉ closingEvents settings sources ds := by
  unfold closingEvents
  dsimp only
  rw [List.mem_append]
  rintro (h | h)
  · split at h
    · exact List.not_mem_nil h
    · cases List.mem_singleton.1 h
  · split at h
    · cases List.mem_singleton.1 h
    · exact List.not_mem_nil h

/-- The events of a batch whose operations are all handled are those of the run, and some at its end that tell the build
of no file. -/
theorem exists_closing {registry : Registry} {p : Progress} (hgather : gather schema 0 {} files = .ok registry)
    (hrun : compileOperations (Plan.of settings schema registry) 0 {} registry.operations = (p, none)) :
    ∃ closing, (compile settings schema files).events = p.events ++ closing ∧
      ∀ path, .extractionFailed path ∉ closing := by
  rw [compile_of_run hgather hrun]
  exact ⟨_, rfl, extractionFailed_notMem_closingEvents _ _ _⟩

/-- In a complete batch of files that are read without diagnostics, a missing fragment is reported where it is spread,
once at most for each such place, or at the head of an operation. Every operation that is not rejected and comes to
missing fragments is told so when its turn comes, with one event that names its file, and is not compiled; each place
where it comes to one is reported once in the batch. These events come in the order of the operations, and there are no
others of their sort. -/
theorem missing_reported (hread : ∀ file ∈ files, file.IsRead)
    (h : (compile settings schema files).result = .ok outcome) (hstatus : outcome.status = .complete) :
    ∃ registry, gather schema 0 {} files = .ok registry ∧
      (∀ d ∈ outcome.diagnostics, d.kind = .undefinedFragment →
        (∃ name, SpreadAt files (d.source, d.span) name ∧ registry.fragment? name = none) ∨
          ∃ op ∈ registry.operations, (d.source, d.span) = (op.source, op.definition.headSpan)) ∧
      (∀ place name, SpreadAt files place name → outcome.diagnostics.countP (UndefinedAt place) ≤ 1) ∧
      (∀ index op, registry.operations[index]? = some op → (Plan.of settings schema registry).Fails index op →
        (∃ (p p' : Progress) (said : List Diagnostic),
          compileOperations (Plan.of settings schema registry) 0 {} (registry.operations.take index) = (p, none) ∧
          compileOperation (Plan.of settings schema registry) p index op = .ok p' ∧
          p'.diagnostics = p.diagnostics ++ said ∧ said ≠ [] ∧
          (∀ d ∈ said, d.kind = .undefinedFragment ∧ d ∈ outcome.diagnostics) ∧
          p'.events = p.events ++ [.extractionFailed op.file.path] ∧ p'.queries = p.queries) ∧
        (¬ ∃ closure, (Plan.of settings schema registry).Compiles index op closure) ∧
        ∀ closure : Closure, closure.IsClosureOf registry op.source op.definition.body → ∀ m ∈ closure.missing,
          outcome.diagnostics.countP (UndefinedAt (m.source, m.span)) = 1) ∧
      ∃ closing, (compile settings schema files).events =
          (registry.operations.zipIdx.filter fun x => (Plan.of settings schema registry).Fails x.2 x.1).map
            (fun x => .extractionFailed x.1.file.path) ++ closing ∧
        ∀ path, .extractionFailed path ∉ closing := by
  obtain ⟨registry, p, hgather, hrun, -, hdiagnostics⟩ := exists_run h hstatus
  have hrules : ∀ d ∈ (Plan.of settings schema registry).validation.diagnostics, d.kind ≠ .undefinedFragment := by
    intro d hd hkind
    have hmem := kind_of_validateGlobal hd
    rw [hkind] at hmem
    exact absurd hmem (by decide)
  have hcount : ∀ place name, SpreadAt files place name →
      outcome.diagnostics.countP (UndefinedAt place) = if place ∈ p.reported then 1 else 0 := by
    intro place name hplace
    have hnone : (Plan.of settings schema registry).validation.diagnostics.countP (UndefinedAt place) = 0 :=
      List.countP_eq_zero.2 fun d hd hat => hrules d hd (of_decide_eq_true hat).1
    rw [hdiagnostics, List.countP_append, hnone, Nat.zero_add]
    exact count_of_run hgather hread hplace hrun
  refine ⟨registry, hgather, ?_, fun place name hplace => ?_,
    fun index op hop hfails => ⟨?_, ?_, fun closure hclosure m hm => ?_⟩, ?_⟩
  · rw [hdiagnostics]
    exact List.forall_mem_append.2 ⟨fun d hd hkind => absurd hkind (hrules d hd), places_of_run hgather hrun⟩
  · rw [hcount place name hplace]
    split
    · exact Nat.le_refl 1
    · exact Nat.zero_le 1
  · obtain ⟨q, q', said, hq, hstep, hsaid, hne, hall, hrest⟩ := step_of_fails hop hfails hrun
    refine ⟨q, q', said, hq, hstep, hsaid, hne, fun d hd => (hall d hd).imp_right fun hmem => ?_, hrest⟩
    rw [hdiagnostics]
    exact List.mem_append_right _ hmem
  · rintro ⟨closure, hcompiles⟩
    exact hcompiles.admits.complete hfails.2
  · have hplace := (spreadAt_of_missing hgather (List.mem_of_getElem? hop) hclosure hm).1
    rw [hcount _ _ hplace]
    exact if_pos (reported_of_run hop hfails hclosure hm hrun)
  · obtain ⟨closing, hevents, hclosing⟩ := exists_closing hgather hrun
    refine ⟨closing, hevents.trans ?_, hclosing⟩
    rw [events_of_run (List.append_nil _).symm hrun]
    rfl

/-- Two operations of different files that spread one fragment, which spreads one that does not exist. -/
def lackingFiles : List QueryFile :=
  [sampleFile "a.js" "query A \x7b ...F \x7d", sampleFile "f.js" "fragment F on Query \x7b a ...Gone \x7d",
    sampleFile "b.js" "query B \x7b ...F \x7d"]

theorem missing_reported_sample : ∃ outcome, (compile {} pairSchema lackingFiles).result = .ok outcome ∧
    outcome.status = .complete ∧ outcome.diagnostics.countP (UndefinedAt (1, ⟨27, 31⟩)) = 1 ∧
    (∃ d ∈ outcome.diagnostics, UndefinedAt (2, ⟨0, 7⟩) d) ∧
    ∃ closing, (compile {} pairSchema lackingFiles).events =
      .extractionFailed "a.js" :: .extractionFailed "b.js" :: closing := by
  obtain ⟨outcome, hresult, hstatus, hspread, hhead⟩ := @exists_completeOutcome pairSchema lackingFiles
    (fun outcome => 1 ≤ outcome.diagnostics.countP (UndefinedAt (1, ⟨27, 31⟩)) ∧
      ∃ d ∈ outcome.diagnostics, UndefinedAt (2, ⟨0, 7⟩) d) _ (by decide +kernel)
  have hread : ∀ file ∈ lackingFiles, file.IsRead := by
    unfold lackingFiles
    refine List.forall_mem_cons.2 ⟨sampleFile_isRead _ ?_, List.forall_mem_cons.2 ⟨sampleFile_isRead _ ?_,
      List.forall_mem_singleton.2 (sampleFile_isRead _ ?_)⟩⟩
    · decide +kernel
    · decide +kernel
    · decide +kernel
  have hplace : SpreadAt lackingFiles (1, ⟨27, 31⟩) "Gone" := by
    have hwritten : ∃ x ∈ (sampleFile "f.js" "fragment F on Query \x7b a ...Gone \x7d").document.definitions,
        ∃ s ∈ x.body.spreads, s.name.span = ⟨27, 31⟩ ∧ s.name.text = "Gone" := by decide +kernel
    obtain ⟨x, hx, s, hs, hspan⟩ := hwritten
    exact ⟨_, x, s, rfl, hx, hs, hspan⟩
  obtain ⟨registry, hgather, -, honce, -, closing, hevents, -⟩ := missing_reported hread hresult hstatus
  have hfailing : (gather pairSchema 0 {} lackingFiles).toOption.map (fun registry =>
      (registry.operations.zipIdx.filter fun x => (Plan.of {} pairSchema registry).Fails x.2 x.1).map
        fun x => x.1.file.path) = some ["a.js", "b.js"] := by decide +kernel
  rw [hgather] at hfailing
  have htold := congrArg (List.map BatchEvent.extractionFailed) (Option.some.inj hfailing)
  rw [List.map_map] at htold
  exact ⟨outcome, hresult, hstatus, Nat.le_antisymm (honce _ _ hplace) hspread, hhead, closing,
    hevents.trans (congrArg (· ++ closing) htold)⟩

end Batches

end Batch

end QueryBatch
