import QueryBatch.Proofs.Batch.Inserted
import QueryBatch.Proofs.Batch.Settled
import QueryBatch.Proofs.Rules.Grounded
import QueryBatch.Proofs.Rules.Standing

/-!
# No operation is left out without a word

An operation that has no query is one that a diagnostic points to, or the fault stands in fragments of other files that
the operation reaches, and is reported there.

* `Registry.Elsewhere`: a fragment of another source that an operation reaches.
* `Accounted`: what a batch says of an operation. `accounted_of_rejected`, `accounted_of_unresolved`: so it is for
  operations that the rules reject, and for those that spread missing fragments.
* `Batch.all_accounted`: so it is for all operations of a complete batch.
* `Batch.rejected_unnamed`: the fault may be reported in the other files alone.
-/

namespace QueryBatch

open Rules

/-! ## Fragments of other sources -/

/-- A fragment that an operation reaches and that stands in another source. -/
structure Registry.Elsewhere (r : Registry) (op : RegisteredOperation) (f : RegisteredFragment) : Prop where
  found : r.fragment? f.name = some f
  reached : Reaches r.bodyOf op.definition.body f.name
  source : f.source ≠ op.source

namespace Rules

variable {cx : Context} {s : Subject}

/-- A field of a full expansion is one of the definition that is expanded, or of a fragment that is reached. -/
theorem Context.Places.subject_reached {parent : Option TypeDef} {selections : List Selection} {p : Placed}
    (h : cx.Places s parent selections p) : p.subject = s ∨
      ∃ name frag, cx.fragment? name = some (p.subject, frag) ∧ Reaches cx.bodyOf ⟨selections, .emptyAt 0⟩ name := by
  induction h with
  | field _ => exact .inl rfl
  | group _ => exact .inl rfl
  | @spread s inside parent under selections spread frag p hx hfound _ ih =>
    have hspread : spread ∈ (⟨selections, .emptyAt 0⟩ : SelectionSet).spreads :=
      SelectionSet.spreadsIn_subset _ (hx.spreads_subset (List.mem_singleton_self _))
    have hbody := Context.bodyOf_eq hfound
    rcases ih with hinside | ⟨name, frag', hfound', hreach⟩
    · rw [hinside]
      exact .inr ⟨_, frag, hfound, .spread hspread hbody⟩
    · refine .inr ⟨name, frag', hfound', .through hspread hbody ?_⟩
      exact hreach.transport (List.Subset.refl _) fun _ body _ hb => ⟨body, hb, List.Subset.refl _⟩

/-- A field that is met in a definition is one of it, or of a fragment that it reaches. -/
theorem mem_expand_reached {parent : Option TypeDef} {set : SelectionSet} {p : Placed}
    (hv : (s, .selectionSet parent set) ∈ cx.visits) (hp : p ∈ (cx.expand s parent set []).1) : p.subject = s ∨
      ∃ name frag, cx.fragment? name = some (p.subject, frag) ∧ Reaches cx.bodyOf s.definition.body name := by
  refine (Context.mem_expand_iff.1 hp).subject_reached.imp_right ?_
  rintro ⟨name, frag, hfound, hreach⟩
  refine ⟨name, frag, hfound, hreach.transport (fun name hname => ?_) fun _ body _ hb =>
    ⟨body, hb, List.Subset.refl _⟩⟩
  obtain ⟨spread, hspread, rfl⟩ := SelectionSet.mem_spreadNames.1 hname
  exact SelectionSet.mem_spreadNames.2 ⟨spread, spreads_subset_of_visits (mem_visits.1 hv).2 hspread, rfl⟩

end Rules

namespace Batch

section Operations

variable {settings : Settings} {schema : Schema} {registry : Registry} {index : Nat} {op : RegisteredOperation}

/-- An operation of a batch as the rules see it. -/
def operationSubject (index : Nat) (op : RegisteredOperation) : Subject :=
  ⟨.operation index, op.source, .operation op.definition⟩

theorem operationSubject_mem (hop : registry.operations[index]? = some op) :
    operationSubject index op ∈ (batchContext schema registry).subjects := by
  refine Context.mem_subjects_of.2 (.inl ⟨index, (op.source, op.definition), ?_, rfl⟩)
  rw [List.getElem?_map, hop]
  rfl

/-- A name stands for the same fragment in a registry and for the rules. -/
theorem exists_of_fragment?_batchContext {name : String} {s : Subject} {frag : Fragment}
    (h : (batchContext schema registry).fragment? name = some (s, frag)) :
    ∃ f, registry.fragment? name = some f ∧ s.source = f.source ∧ s.definition = .fragment f.definition := by
  rw [fragment?_batchContext] at h
  obtain ⟨f, hf, he⟩ := Option.map_eq_some_iff.1 h
  cases he
  exact ⟨f, hf, rfl, rfl⟩

/-- A field of a fragment of another source that an operation reaches. -/
def FieldElsewhere (registry : Registry) (op : RegisteredOperation) (p : Placed) : Prop :=
  ∃ f, registry.Elsewhere op f ∧ p.subject.source = f.source ∧ p.subject.definition = .fragment f.definition

theorem field_elsewhere {parent : Option TypeDef} {set : SelectionSet} {p : Placed}
    (hv : (operationSubject index op, .selectionSet parent set) ∈ (batchContext schema registry).visits)
    (hp : p ∈ ((batchContext schema registry).expand (operationSubject index op) parent set []).1)
    (hsource : p.subject.source ≠ op.source) : FieldElsewhere registry op p := by
  rcases mem_expand_reached hv hp with hsame | ⟨name, frag, hfound, hreach⟩
  · exact absurd (congrArg Subject.source hsame) hsource
  · obtain ⟨f, hf, hfsource, hdefinition⟩ := exists_of_fragment?_batchContext hfound
    obtain rfl := Registry.name_of_fragment? hf
    rw [show (batchContext schema registry).bodyOf = registry.bodyOf from funext (bodyOf_batchContext schema registry)]
      at hreach
    exact ⟨f, ⟨hf, hreach, hfsource ▸ hsource⟩, hfsource, hdefinition⟩

/-! ## What a batch says of an operation -/

/-- The outcome of a batch accounts for an operation. -/
inductive Accounted (settings : Settings) (schema : Schema) (registry : Registry) (outcome : BatchOutcome)
    (index : Nat) (op : RegisteredOperation) : Prop
  /-- It is compiled, and the outcome has its query under the path of its file. -/
  | kept {closure : Closure} : (Plan.of settings schema registry).Compiles index op closure →
    outcome.queries.find? op.file.path = some ((Plan.of settings schema registry).queryOf op closure) →
    Accounted settings schema registry outcome index op
  /-- A diagnostic points to its source. -/
  | named {d : Diagnostic} : d ∈ outcome.diagnostics → op.source ∈ d.points.map Prod.fst →
    Accounted settings schema registry outcome index op
  /-- A fragment of another source that it reaches spreads a missing fragment, and the spread is reported. -/
  | lacking {f : RegisteredFragment} {s : Spread} : registry.Elsewhere op f → s ∈ f.definition.body.spreads →
    registry.fragment? s.name.text = none →
    undefinedFragment registry ⟨s.name.text, f.source, s.name.span⟩ ∈ outcome.diagnostics →
    Accounted settings schema registry outcome index op
  /-- Two fields of fragments of other sources that it reaches do not merge in it, and the two are reported. -/
  | conflicting {c : Conflict} {d : Diagnostic} :
    (operationSubject index op, c) ∈ conflicts (batchContext schema registry) →
    FieldElsewhere registry op c.first → FieldElsewhere registry op c.second → d ∈ outcome.diagnostics →
    d.kind = .fieldsConflict → d.points ⊆ c.diagnostic.points →
    Accounted settings schema registry outcome index op

variable {outcome : BatchOutcome}

/-- Fields in one place of a context stand in one place of a source. -/
theorem point_eq_of_place {p q : Placed} (hp : p.subject ∈ (batchContext schema registry).subjects)
    (hq : q.subject ∈ (batchContext schema registry).subjects) (h : p.place = q.place) :
    (p.subject.source, p.field.span) = (q.subject.source, q.field.span) := by
  obtain ⟨howner, hspan⟩ := Prod.mk.inj h
  rw [Context.eq_of_owner hp hq howner, hspan]

/-- A conflict that is reported for another one is between the same places. -/
theorem points_of_repeats {s s' : Subject} {c c' : Conflict} (h : (s, c) ∈ conflicts (batchContext schema registry))
    (h' : (s', c') ∈ conflicts (batchContext schema registry)) (hrepeats : c.Repeats c') :
    ∀ p, p ∈ c'.diagnostic.points ↔ p ∈ c.diagnostic.points := by
  obtain ⟨⟨hfirst, -⟩, hsecond, -⟩ := conflict_spans h
  obtain ⟨⟨hfirst', -⟩, hsecond', -⟩ := conflict_spans h'
  intro p
  simp only [points_conflict, List.mem_cons, List.not_mem_nil, or_false]
  rcases hrepeats with he | he <;> obtain ⟨he, he'⟩ := Prod.mk.inj he
  · rw [point_eq_of_place hsecond' hsecond he, point_eq_of_place hfirst' hfirst he']
  · rw [point_eq_of_place hsecond' hfirst he, point_eq_of_place hfirst' hsecond he']
    exact Or.comm

/-! ## Rejected operations -/

variable (hdiagnostics : (Plan.of settings schema registry).validation.diagnostics ⊆ outcome.diagnostics)
include hdiagnostics

theorem mem_diagnostics_of_finding {rule : Rule} (hrule : rule ∈ globalRules) {f : Finding}
    (hf : f ∈ rule (batchContext schema registry)) {d : Diagnostic} (hd : f.diagnostic = some d) :
    d ∈ outcome.diagnostics :=
  hdiagnostics (List.mem_filterMap.2 ⟨f, List.mem_flatMap.2 ⟨rule, hrule, hf⟩, hd⟩)

/-- A finding that answers for the rejection of an operation points to its source. -/
theorem accounted_of_answers (hop : registry.operations[index]? = some op) {rule : Rule} (hrule : rule ∈ globalRules)
    {f : Finding} (hf : f ∈ rule (batchContext schema registry)) (hanswers : f.Answers (batchContext schema registry))
    (howner : .operation index ∈ f.rejected) : Accounted settings schema registry outcome index op := by
  obtain ⟨d, hd, hall⟩ := hanswers
  obtain ⟨t, ht, hsame, p, hp, hsource⟩ := hall _ howner
  have hsubject : t = operationSubject index op := Context.eq_of_owner ht (operationSubject_mem hop) hsame
  refine .named (mem_diagnostics_of_finding hdiagnostics hrule hf hd) (List.mem_map.2 ⟨p, hp, ?_⟩)
  rw [hsource, hsubject]
  rfl

/-- An operation that is blamed for a conflict is accounted for: it holds one of the fields, or reaches both. -/
theorem accounted_of_blames (hop : registry.operations[index]? = some op) {s t : Subject}
    (hblames : (batchContext schema registry).Blames s t) (howner : t.owner = .operation index) :
    Accounted settings schema registry outcome index op := by
  obtain ⟨c, hc, ht⟩ := hblames
  obtain ⟨s', c', hc', hrepeats, f, hf, hd⟩ := exists_reported hc
  have hrule : overlappingFields ∈ globalRules := by simp [globalRules]
  have hmem := mem_diagnostics_of_finding hdiagnostics hrule hf hd
  have hpoints := points_of_repeats hc hc' hrepeats
  obtain ⟨⟨hfirst, -⟩, hsecond, -⟩ := conflict_spans hc
  have hsubject : ∀ u ∈ (batchContext schema registry).subjects, u.owner = .operation index →
      u = operationSubject index op := fun u hu hsame => Context.eq_of_owner hu (operationSubject_mem hop) hsame
  -- a field of the operation's own source is among the places of the diagnostic
  have hnamed : ∀ p : Nat × Span, p ∈ c.diagnostic.points → p.1 = op.source →
      Accounted settings schema registry outcome index op := fun p hp hsource =>
    .named hmem (List.mem_map.2 ⟨p, (hpoints p).2 hp, hsource⟩)
  by_cases hfsource : c.first.subject.source = op.source
  · exact hnamed _ (List.mem_cons_of_mem _ List.mem_cons_self) hfsource
  by_cases hssource : c.second.subject.source = op.source
  · exact hnamed _ List.mem_cons_self hssource
  rcases ht with rfl | rfl | rfl
  · obtain ⟨parent, set, group, hv, hgroup, hab, -⟩ := mem_conflicts.1 hc
    obtain rfl := hsubject _ (mem_visits.1 hv).1 howner
    obtain ⟨ha, hb⟩ := mem_orderedPairs hab
    exact .conflicting hc (field_elsewhere hv (mem_grouped hgroup ha) hfsource)
      (field_elsewhere hv (mem_grouped hgroup hb) hssource) hmem rfl fun p hp => (hpoints p).1 hp
  · exact absurd (congrArg Subject.source (hsubject _ hfirst howner)) hfsource
  · exact absurd (congrArg Subject.source (hsubject _ hsecond howner)) hssource

/-- A rejected operation is accounted for. -/
theorem accounted_of_rejected (hop : registry.operations[index]? = some op)
    (hrejected : index ∈ (Plan.of settings schema registry).validation.rejected) :
    Accounted settings schema registry outcome index op := by
  obtain ⟨rule, hrule, f, hf, howner⟩ := mem_rejected.1 hrejected
  rcases grounded_global hrule with hgrounded | rfl | rfl
  · exact accounted_of_answers hdiagnostics hop hrule hf (hgrounded _ f hf).2 howner
  · exact accounted_of_answers hdiagnostics hop hrule hf (answers_singleRootField hf) howner
  · obtain ⟨s, t, hblames, hsame⟩ := rejects_overlappingFields_iff.1 ⟨f, hf, howner⟩
    exact accounted_of_blames hdiagnostics hop hblames hsame

omit hdiagnostics

/-! ## Operations that spread missing fragments -/

theorem points_undefinedFragment (registry : Registry) (m : MissingSpread) :
    (undefinedFragment registry m).points = [(m.source, m.span)] := by
  unfold undefinedFragment
  dsimp only
  split <;> rfl

/-- An operation that spreads missing fragments is accounted for: one of them is reported now, or it is pointed to. -/
theorem accounted_of_unresolved {closure : Closure} {first : MissingSpread} {others : List MissingSpread}
    {reported : List (Nat × Span)} (hclosure : closure.IsClosureOf registry op.source op.definition.body)
    (hmissing : closure.missing.toList = first :: others)
    (htold : missingDiagnostics registry reported op first others ⊆ outcome.diagnostics) :
    Accounted settings schema registry outcome index op := by
  unfold missingDiagnostics at htold
  dsimp only at htold
  split at htold
  · exact .named (htold (List.mem_singleton_self _)) List.mem_cons_self
  · rename_i hfresh
    obtain ⟨m, hm⟩ := List.exists_mem_of_ne_nil _ fun h => hfresh (List.isEmpty_iff.2 h)
    have hreported := htold (List.mem_map_of_mem hm)
    have hmem : m ∈ closure.missing := by
      rw [OrderedSet.mem_iff, hmissing]
      exact (List.mem_filter.1 hm).1
    by_cases hsource : m.source = op.source
    · refine .named hreported ?_
      rw [points_undefinedFragment, ← hsource]
      exact List.mem_singleton_self _
    · obtain ⟨part, hpart, s, hs, hnone, rfl⟩ := (hclosure.mem_missing m).1 hmem
      cases hpart with
      | start => exact absurd rfl hsource
      | @fragment name f hreach hfound =>
        obtain rfl := Registry.name_of_fragment? hfound
        exact .lacking ⟨hfound, hreach, hsource⟩ hs hnone hreported

end Operations

/-! ## Batches -/

section Batches

variable {settings : Settings} {schema : Schema} {files : List QueryFile} {registry : Registry}

/-- No query is replaced if no two files have one path. -/
theorem not_replaces (hpaths : (files.map QueryFile.path).Nodup) (hgather : gather schema 0 {} files = .ok registry)
    {queries : OrderedMap CompiledQuery} {index : Nat} {op : RegisteredOperation} (hop : op ∈ registry.operations) :
    ¬ (Plan.of settings schema registry).Replaces queries index op := by
  rintro ⟨index', op', closure, -, hcompiles, hsource, hpath, -⟩
  have hfile := (file_of_operation hgather hop).1
  have hfile' := (file_of_operation hgather hcompiles.mem_operations).1
  have hsame : (files.map QueryFile.path)[op'.source]? = (files.map QueryFile.path)[op.source]? := by
    rw [List.getElem?_map, List.getElem?_map, hfile, hfile', Option.map_some, Option.map_some, hpath]
  have hlt : op'.source < (files.map QueryFile.path).length := by
    rw [List.length_map]
    exact (List.getElem?_eq_some_iff.1 hfile').1
  exact hsource ((List.getElem?_inj hlt hpaths).1 hsame)

/-- In a complete batch whose files have different paths, every operation is accounted for: it is compiled, and the
outcome has its query under the path of its file; or a diagnostic points to its source; or it reaches a fragment of
another file whose spread of a missing fragment is reported, or two fragments of other files whose fields conflict in
it, which is reported. -/
theorem all_accounted {outcome : BatchOutcome} (hpaths : (files.map QueryFile.path).Nodup)
    (h : (compile settings schema files).result = .ok outcome) (hstatus : outcome.status = .complete) :
    ∃ registry, gather schema 0 {} files = .ok registry ∧ ∀ index op, registry.operations[index]? = some op →
      Accounted settings schema registry outcome index op := by
  obtain ⟨registry, p, hgather, hrun, hqueries, hdiagnostics⟩ := exists_run h hstatus
  refine ⟨registry, hgather, fun index op hop => ?_⟩
  have hrules : (Plan.of settings schema registry).validation.diagnostics ⊆ outcome.diagnostics := by
    rw [hdiagnostics]
    exact List.subset_append_left _ _
  obtain ⟨q, q', -, hhandles, hlast⟩ := exists_handles_diagnostics hop hrun
  have hsaid : q'.diagnostics ⊆ outcome.diagnostics := by
    rw [hdiagnostics]
    exact List.Subset.trans hlast (List.subset_append_right _ _)
  cases hhandles with
  | rejected hrejected => exact accounted_of_rejected hrules hop hrejected
  | unresolved hclosure hmissing =>
    exact accounted_of_unresolved hclosure hmissing (List.Subset.trans (List.subset_append_right _ _) hsaid)
  | tainted _ _ _ =>
    refine .named (hsaid (List.mem_append_right _ (List.mem_singleton_self _))) (List.mem_cons.2 (.inl ?_))
    unfold invalidDependency
    dsimp only
    split <;> rfl
  | second _ _ _ => exact .named (hsaid (List.mem_append_right _ (List.mem_singleton_self _))) List.mem_cons_self
  | compiled _ hcompiles =>
    rcases hcompiles.admits.compiled_or_reported hop hrun with ⟨closure, hcompiles, hkept | hreplaced⟩ | hsecond
    · rw [← hqueries] at hkept
      exact .kept hcompiles hkept
    · exact absurd hreplaced (not_replaces hpaths hgather hcompiles.mem_operations)
    · obtain ⟨_, first, _, -, -, hmem⟩ := hsecond
      refine .named (d := multipleRoots first op) ?_ List.mem_cons_self
      rw [hdiagnostics]
      exact List.mem_append_right _ hmem

end Batches

/-! ## A fault in another file -/

/-- An operation that spreads a fragment of another file, whose fields do not merge. -/
def sharedFiles : List QueryFile :=
  [sampleFile "a.js" "query A \x7b ...F \x7d", sampleFile "f.js" "fragment F on Query \x7b x: a x: b \x7d"]

theorem sharedFiles_isClean : ∀ file ∈ sharedFiles, file.document.IsClean := by
  unfold sharedFiles
  refine List.forall_mem_cons.2 ⟨sampleFile_isClean _ ?_, List.forall_mem_singleton.2 (sampleFile_isClean _ ?_)⟩
  · decide +kernel
  · decide +kernel

/-- The batch is complete, and what it says is said of the second file alone. -/
theorem sharedFiles_complete : ∃ outcome registry op, (compile {} pairSchema sharedFiles).result = .ok outcome ∧
    outcome.status = .complete ∧ gather pairSchema 0 {} sharedFiles = .ok registry ∧
    registry.operations[0]? = some op ∧ op.source = 0 ∧ outcome.queries.find? op.file.path = none ∧
    ∀ d ∈ outcome.diagnostics, ∀ p ∈ d.points, p.1 = 1 := by
  obtain ⟨outcome, hresult, hstatus, hnone, hpoints⟩ := @exists_completeOutcome pairSchema sharedFiles
    (fun outcome => outcome.queries.find? "a.js" = none ∧ ∀ d ∈ outcome.diagnostics, ∀ p ∈ d.points, p.1 = 1) _
    (by decide +kernel)
  obtain ⟨registry, _, hgather, -⟩ := exists_run hresult hstatus
  have hoperation : (operationsFrom 0 sharedFiles)[0]?.map (fun op => (op.source, op.file.path)) =
      some (0, "a.js") := by decide +kernel
  obtain ⟨op, hop, he⟩ := Option.map_eq_some_iff.1 hoperation
  obtain ⟨hsource, hpath⟩ := Prod.mk.inj he
  have hoperations : registry.operations = operationsFrom 0 sharedFiles :=
    (operations_gather hgather).trans (List.nil_append _)
  rw [← hoperations] at hop
  rw [← show op.file.path = "a.js" from hpath] at hnone
  exact ⟨outcome, registry, op, hresult, hstatus, hgather, hop, hsource, hnone, hpoints⟩

theorem all_accounted_sample : ∃ outcome registry op, (compile {} pairSchema sharedFiles).result = .ok outcome ∧
    outcome.status = .complete ∧ gather pairSchema 0 {} sharedFiles = .ok registry ∧
    registry.operations[0]? = some op ∧ Accounted {} pairSchema registry outcome 0 op := by
  obtain ⟨outcome, registry, op, hresult, hstatus, hgather, hop, -⟩ := sharedFiles_complete
  obtain ⟨registry', hgather', hall⟩ := all_accounted (by decide +kernel) hresult hstatus
  cases hgather.symm.trans hgather'
  exact ⟨outcome, registry, op, hresult, hstatus, hgather, hop, hall 0 op hop⟩

/-- In general an operation can be left out without a diagnostic that points to its source. A conflict in a fragment is
reported where its fields stand, and rejects the operations that meet it. -/
theorem rejected_unnamed : ¬ ∀ (settings : Settings) (schema : Schema) (files : List QueryFile)
    (outcome : BatchOutcome) (registry : Registry) (index : Nat) (op : RegisteredOperation),
    (∀ file ∈ files, file.document.IsClean) → (files.map QueryFile.path).Nodup →
    (compile settings schema files).result = .ok outcome → outcome.status = .complete →
    gather schema 0 {} files = .ok registry → registry.operations[index]? = some op →
    (∃ closure, outcome.queries.find? op.file.path = some ((Plan.of settings schema registry).queryOf op closure)) ∨
      ∃ d ∈ outcome.diagnostics, op.source ∈ d.points.map Prod.fst := by
  intro hall
  obtain ⟨outcome, registry, op, hresult, hstatus, hgather, hop, hsource, hnone, hpoints⟩ := sharedFiles_complete
  rcases hall _ _ _ outcome registry 0 op sharedFiles_isClean (by decide +kernel) hresult hstatus hgather hop with
    ⟨closure, hkept⟩ | ⟨d, hd, hnamed⟩
  · rw [hnone] at hkept
    cases hkept
  · obtain ⟨p, hp, he⟩ := List.mem_map.1 hnamed
    rw [hpoints d hd p hp, hsource] at he
    cases he

end Batch

end QueryBatch
