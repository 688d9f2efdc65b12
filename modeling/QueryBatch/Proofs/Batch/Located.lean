import QueryBatch.Proofs.Batch.Accounted
import QueryBatch.Proofs.Parse.Places

/-!
# Where the diagnostics of a batch point

* `QueryFile.IsRead`: a file whose document is read from its text without diagnostics.
* `InFiles`: a place in a file of a batch. `Diagnostic.Located`: all places that a diagnostic points to are such places.
* `Misplaced`: a diagnostic on a subscription with a top-level field too many that stands in another file.
* `located_or_misplaced`, `located_missing`, …: so much for the diagnostics of the rules and of the compilation.
* `Batch.diagnostics_located`: all diagnostics of a batch are located or misplaced.
* `Batch.misplaced_out_of_file`: a misplaced one can point behind the end of the file.
-/

namespace QueryBatch

open Rules

/-- The document of a file is what its text is read to, without diagnostics. -/
def QueryFile.IsRead (file : QueryFile) : Prop :=
  ∃ limits n, Document.read file.source.text limits = .ok ⟨file.document, [], n⟩

namespace Batch

/-- A place in a file of a batch: a span of whole characters of its text. -/
def InFiles (files : List QueryFile) (p : Nat × Span) : Prop :=
  ∃ file, files[p.1]? = some file ∧ p.2.FitsIn file.source.text

/-- A diagnostic points to places in files of a batch alone. -/
def Located (files : List QueryFile) (d : Diagnostic) : Prop := ∀ p ∈ d.points, InFiles files p

/-- A diagnostic on the top-level fields of a subscription that are too many. It points to the source of the
subscription, and one of the fields stands in another one. -/
structure Misplaced (cx : Context) (d : Diagnostic) (s : Subject) (op : Operation) : Prop where
  subscription : (s, op) ∈ cx.operations ∧ op.kind = .subscription
  kind : d.kind = .subscriptionMultipleRootFields
  points : ∃ extra more, extraRootFields cx s op = extra :: more ∧ d.points = [(s.source, coverAll extra more)]
  elsewhere : ∃ p ∈ (cx.expand s none op.body []).1, p.field ∈ extraRootFields cx s op ∧ p.subject.source ≠ s.source

section Places

variable {schema : Schema} {files : List QueryFile} {registry : Registry}

/-- The spans of a definition are places in the file that it is read from. -/
theorem inFiles_of_mem_spans (hread : ∀ file ∈ files, file.IsRead) {n : Nat} {x : Definition}
    (h : ∃ file, files[n]? = some file ∧ x ∈ file.document.definitions) {span : Span} (hspan : span ∈ x.spans) :
    InFiles files (n, span) := by
  obtain ⟨file, hfile, hx⟩ := h
  obtain ⟨limits, steps, hfileRead⟩ := hread file (List.mem_of_getElem? hfile)
  exact ⟨file, hfile, Document.fitsIn_of_read hfileRead x hx span hspan⟩

/-- The span that holds some fields is a place in a file if all of them stand there. -/
theorem inFiles_coverAll {source : Nat} {extra : Field} {more : List Field}
    (h : ∀ f ∈ extra :: more, InFiles files (source, f.span)) : InFiles files (source, coverAll extra more) := by
  have all : ∀ span, InFiles files (source, span) → (∀ f ∈ more, InFiles files (source, f.span)) →
      InFiles files (source, more.foldl (fun span f => span.cover f.span) span) := by
    intro span hspan hmore
    induction more generalizing span with
    | nil => exact hspan
    | cons f more ih =>
      obtain ⟨file, hfile, hfits⟩ := hspan
      obtain ⟨file', hfile', hfits'⟩ := hmore f List.mem_cons_self
      obtain rfl := Option.some.inj (hfile.symm.trans hfile')
      refine ih (fun f' hf' => h f' ?_) _ ⟨file, hfile, hfits.cover hfits'⟩ fun f' hf' => hmore f' ?_
      · exact (List.mem_cons.1 hf').elim (fun he => he ▸ List.mem_cons_self) fun hf' =>
          List.mem_cons_of_mem _ (List.mem_cons_of_mem _ hf')
      · exact List.mem_cons_of_mem _ hf'
  exact all extra.span (h extra List.mem_cons_self) fun f hf => h f (List.mem_cons_of_mem _ hf)

variable (hread : ∀ file ∈ files, file.IsRead)
include hread

/-- A finding about definitions of files points to places in the files. -/
theorem located_of_stands {cx : Context}
    (hcx : ∀ s ∈ cx.subjects, ∃ file, files[s.source]? = some file ∧ s.definition ∈ file.document.definitions)
    {f : Finding} (hstands : f.Stands cx) {d : Diagnostic} (hd : f.diagnostic = some d) : Located files d := by
  intro p hp
  obtain ⟨t, ht, hsource, hspan⟩ := hstands d hd p hp
  have hin := inFiles_of_mem_spans hread (hcx t ht) hspan
  rwa [hsource] at hin

/-! ## Structural faults -/

omit hread in
/-- The fault that ends the gathering of files is found in one of them. -/
theorem source_of_fault {source : Nat} {r : Registry} {file : QueryFile} {found : List Diagnostic}
    (h : gather schema source r files = .error (file, found)) :
    ∃ i, files[i]? = some file ∧ validateStructural schema (source + i) file.document = found := by
  induction files generalizing source r with
  | nil => cases h
  | cons first rest ih =>
    rw [gather] at h
    split at h
    · obtain ⟨i, hi, hfound⟩ := ih h
      refine ⟨i + 1, hi, ?_⟩
      rw [← hfound, Nat.add_comm i, Nat.add_assoc]
    · cases h
      exact ⟨0, rfl, rfl⟩

omit hread in
/-- The definitions that the rules for one document see stand in the file of that document. -/
theorem subject_in_document {source : Nat} {file : QueryFile} (hfile : files[source]? = some file) {s : Subject}
    (hs : s ∈ (Context.ofDocument schema source file.document).subjects) :
    ∃ file, files[s.source]? = some file ∧ s.definition ∈ file.document.definitions := by
  rcases Context.mem_subjects_of.1 hs with ⟨i, x, hx, rfl⟩ | ⟨i, x, hx, rfl⟩
  · obtain ⟨op, hop, rfl⟩ := List.mem_map.1 (List.mem_of_getElem? hx)
    exact ⟨file, hfile, Document.mem_operations.1 hop⟩
  · obtain ⟨frag, hfrag, rfl⟩ := List.mem_map.1 (List.mem_of_getElem? hx)
    exact ⟨file, hfile, Document.mem_fragments.1 hfrag⟩

/-- The diagnostics of a file with structural faults point to places in it. -/
theorem located_structural {source : Nat} {file : QueryFile} (hfile : files[source]? = some file) {d : Diagnostic}
    (hd : d ∈ validateStructural schema source file.document) : Located files d := by
  obtain ⟨f, hf, hd⟩ := List.mem_filterMap.1 hd
  obtain ⟨rule, hrule, hf⟩ := List.mem_flatMap.1 hf
  exact located_of_stands hread (fun s => subject_in_document hfile) (grounded_structural hrule _ f hf).1 hd

/-! ## Global faults -/

variable (hgather : gather schema 0 {} files = .ok registry)
include hgather

omit hread in
/-- The definitions that the rules see stand in the files of their sources. -/
theorem subject_in_file {s : Subject} (hs : s ∈ (batchContext schema registry).subjects) :
    ∃ file, files[s.source]? = some file ∧ s.definition ∈ file.document.definitions := by
  have hall := all_gather_file hgather
  rcases Context.mem_subjects_of.1 hs with ⟨i, x, hx, rfl⟩ | ⟨i, x, hx, rfl⟩
  · obtain ⟨op, hop, rfl⟩ := List.mem_map.1 (List.mem_of_getElem? hx)
    exact hall.operations op hop
  · obtain ⟨f, hf, rfl⟩ := List.mem_map.1 (List.mem_of_getElem? hx)
    exact hall.fragments f hf

/-- A diagnostic on a subscription is located unless one of the fields stands in another source. -/
theorem located_or_misplaced_singleRootField {f : Finding} (hf : f ∈ singleRootField (batchContext schema registry))
    {d : Diagnostic} (hd : f.diagnostic = some d) :
    Located files d ∨ ∃ s op, Misplaced (batchContext schema registry) d s op := by
  obtain ⟨s, op, extra, more, _, hop, hkind, hextra, rfl, hd', hpoints⟩ := mem_singleRootField hf
  cases hd
  obtain ⟨hs, hdefinition⟩ := Context.mem_operations.1 hop
  by_cases hown : ∃ p ∈ ((batchContext schema registry).expand s none op.body []).1,
      p.field ∈ extraRootFields (batchContext schema registry) s op ∧ p.subject.source ≠ s.source
  · exact .inr ⟨s, op, ⟨hop, hkind⟩, hd', ⟨extra, more, hextra, hpoints⟩, hown⟩
  · refine .inl fun p hp => ?_
    rw [hpoints] at hp
    cases List.mem_singleton.1 hp
    refine inFiles_coverAll fun f hf => ?_
    rw [← hextra] at hf
    obtain ⟨p, hp, rfl⟩ := exists_of_mem_extraRootFields hf
    have hsource : p.subject.source = s.source := by
      by_contra hne
      exact hown ⟨p, hp, hf, hne⟩
    have hbody : Selection.spansIn op.body.selections ⊆ s.definition.spans := by
      refine List.Subset.trans (List.subset_cons_self op.body.span _) ?_
      rw [← Definition.body_of_operation? hdefinition]
      exact s.definition.body_spans_subset
    obtain ⟨hsubject, hspans⟩ := (Context.mem_expand_iff.1 hp).field_spans hs hbody
    rw [← hsource]
    exact inFiles_of_mem_spans hread (subject_in_file hgather hsubject) (hspans (by simp [Field.spans]))

/-- The diagnostics of the global rules are located, except for misplaced ones. -/
theorem located_or_misplaced {settings : Settings} {d : Diagnostic}
    (hd : d ∈ (Plan.of settings schema registry).validation.diagnostics) :
    Located files d ∨ ∃ s op, Misplaced (batchContext schema registry) d s op := by
  obtain ⟨f, hf, hd⟩ := List.mem_filterMap.1 hd
  obtain ⟨rule, hrule, hf⟩ := List.mem_flatMap.1 hf
  have hcx := fun s => subject_in_file (s := s) hgather
  rcases grounded_global hrule with hgrounded | rfl | rfl
  · exact .inl (located_of_stands hread hcx (hgrounded _ f hf).1 hd)
  · exact located_or_misplaced_singleRootField hread hgather hf hd
  · exact .inl (located_of_stands hread hcx (stands_overlappingFields hf) hd)

/-! ## Operations -/

theorem inFiles_headSpan {op : RegisteredOperation} (hop : op ∈ registry.operations) :
    InFiles files (op.source, op.definition.headSpan) :=
  inFiles_of_mem_spans hread ((all_gather_file hgather).operations op hop) (Definition.headSpan_mem_spans rfl)

/-- A spread of a missing fragment that an operation comes to is a place in a file. -/
theorem inFiles_missing {op : RegisteredOperation} (hop : op ∈ registry.operations) {closure : Closure}
    (hclosure : closure.IsClosureOf registry op.source op.definition.body) {m : MissingSpread}
    (hm : m ∈ closure.missing) : InFiles files (m.source, m.span) := by
  obtain ⟨part, hpart, s, hs, -, rfl⟩ := (hclosure.mem_missing m).1 hm
  have hall := all_gather_file hgather
  have hname : s.name.span ∈ s.spans := by simp [Spread.spans]
  cases hpart with
  | start => exact inFiles_of_mem_spans hread (hall.operations op hop) (Definition.spread_subset_spans hs hname)
  | fragment _ hfound =>
    exact inFiles_of_mem_spans hread (hall.fragments _ (Registry.mem_of_fragment? hfound))
      (Definition.spread_subset_spans hs hname)

theorem located_missing {op : RegisteredOperation} (hop : op ∈ registry.operations) {closure : Closure}
    (hclosure : closure.IsClosureOf registry op.source op.definition.body) {first : MissingSpread}
    {others : List MissingSpread} (hmissing : closure.missing.toList = first :: others)
    {reported : List (Nat × Span)} {d : Diagnostic} (hd : d ∈ missingDiagnostics registry reported op first others) :
    Located files d := by
  have hplace : ∀ m ∈ first :: others, InFiles files (m.source, m.span) := fun m hm =>
    inFiles_missing hread hgather hop hclosure (OrderedSet.mem_iff.2 (hmissing ▸ hm))
  unfold missingDiagnostics at hd
  dsimp only at hd
  split at hd
  · cases List.mem_singleton.1 hd
    exact List.forall_mem_cons.2 ⟨inFiles_headSpan hread hgather hop,
      List.forall_mem_singleton.2 (hplace first List.mem_cons_self)⟩
  · obtain ⟨m, hm, rfl⟩ := List.mem_map.1 hd
    unfold Located
    rw [points_undefinedFragment]
    exact List.forall_mem_singleton.2 (hplace m (List.mem_filter.1 hm).1)

theorem located_invalidDependency {op : RegisteredOperation} (hop : op ∈ registry.operations) (name : String) :
    Located files (invalidDependency registry op name) := by
  have hhead := inFiles_headSpan hread hgather hop
  unfold invalidDependency
  dsimp only
  split
  · rename_i f hf
    refine List.forall_mem_cons.2 ⟨hhead, List.forall_mem_singleton.2 ?_⟩
    exact inFiles_of_mem_spans hread ((all_gather_file hgather).fragments f (Registry.mem_of_fragment? hf))
      (by simp [Definition.spans, Fragment.spans])
  · exact List.forall_mem_singleton.2 hhead

/-- What is said of operations when they are handled is said of places in files. -/
theorem located_of_run {settings : Settings} {p : Progress}
    (hrun : compileOperations (Plan.of settings schema registry) 0 {} registry.operations = (p, none)) :
    ∀ d ∈ p.diagnostics, Located files d := by
  refine (compileOperations_induction (P := fun p => (∀ op ∈ p.compiled, op ∈ registry.operations) ∧
    ∀ d ∈ p.diagnostics, Located files d) (List.nil_append _).symm rfl ?_ hrun ⟨nofun, nofun⟩).2
  rintro index op q q' - hop hhandles ⟨hcompiled, hlocated⟩
  have hmem : op ∈ registry.operations := List.mem_of_getElem? hop
  cases hhandles with
  | rejected _ => exact ⟨hcompiled, hlocated⟩
  | unresolved hclosure hmissing =>
    exact ⟨hcompiled, List.forall_mem_append.2 ⟨hlocated, fun d =>
      located_missing hread hgather hmem hclosure hmissing⟩⟩
  | tainted _ _ _ =>
    exact ⟨hcompiled, List.forall_mem_append.2 ⟨hlocated, List.forall_mem_singleton.2
      (located_invalidDependency hread hgather hmem _)⟩⟩
  | second _ hfirst _ =>
    refine ⟨hcompiled, List.forall_mem_append.2 ⟨hlocated, List.forall_mem_singleton.2 ?_⟩⟩
    exact List.forall_mem_cons.2 ⟨inFiles_headSpan hread hgather hmem,
      List.forall_mem_singleton.2 (inFiles_headSpan hread hgather (hcompiled _ hfirst))⟩
  | compiled _ _ => exact ⟨List.forall_mem_append.2 ⟨hcompiled, List.forall_mem_singleton.2 hmem⟩, hlocated⟩

end Places

/-- All diagnostics of a batch of files that are read without diagnostics point to places in the files: each to the
source of one, and to whole characters of its text. This leaves out a diagnostic on a subscription that has a top-level
field of another file too many, which points to the file of the subscription as if the field stood there. -/
theorem diagnostics_located {settings : Settings} {schema : Schema} {files : List QueryFile} {outcome : BatchOutcome}
    (hread : ∀ file ∈ files, file.IsRead) (h : (compile settings schema files).result = .ok outcome) :
    ∀ d ∈ outcome.diagnostics, (∀ p ∈ d.points, p.1 < files.length) ∧
      (Located files d ∨ ∃ registry s op, gather schema 0 {} files = .ok registry ∧
        Misplaced (batchContext schema registry) d s op) := by
  have hlocated : ∀ d, Located files d → ∀ p ∈ d.points, p.1 < files.length := by
    intro d hd p hp
    obtain ⟨file, hfile, -⟩ := hd p hp
    exact (List.getElem?_eq_some_iff.1 hfile).1
  intro d hd
  cases hgather : gather schema 0 {} files with
  | error fault =>
    obtain ⟨file, found⟩ := fault
    simp only [compile, hgather] at h
    cases h
    obtain ⟨i, hi, rfl⟩ := source_of_fault hgather
    rw [Nat.zero_add] at hd
    have hin := located_structural hread hi hd
    exact ⟨hlocated d hin, .inl hin⟩
  | ok registry =>
    have hstatus : outcome.status = .complete := by
      simp only [compile, hgather, compileRegistry] at h
      split at h
      · cases h
      · cases h
        rfl
    obtain ⟨registry', p, hgather', hrun, -, hdiagnostics⟩ := exists_run h hstatus
    cases hgather.symm.trans hgather'
    rw [hdiagnostics] at hd
    rcases List.mem_append.1 hd with hd | hd
    · rcases located_or_misplaced hread hgather hd with hin | ⟨s, op, hmisplaced⟩
      · exact ⟨hlocated d hin, .inl hin⟩
      · refine ⟨fun p hp => ?_, .inr ⟨registry, s, op, rfl, hmisplaced⟩⟩
        obtain ⟨extra, more, -, hpoints⟩ := hmisplaced.points
        rw [hpoints] at hp
        cases List.mem_singleton.1 hp
        obtain ⟨file, hfile, -⟩ := subject_in_file hgather (Context.mem_operations.1 hmisplaced.subscription.1).1
        exact (List.getElem?_eq_some_iff.1 hfile).1
    · have hin := located_of_run hread hgather hrun d hd
      exact ⟨hlocated d hin, .inl hin⟩

theorem sampleFile_isRead (path : String) {text : String} (h : (Document.ofText text).isOk = true) :
    (sampleFile path text).IsRead := by
  unfold sampleFile QueryFile.IsRead
  cases hd : Document.ofText text with
  | error fault =>
    rw [hd] at h
    cases h
  | ok d =>
    obtain ⟨n, hn⟩ := Document.exists_read_of_ofText hd
    exact ⟨_, n, hn⟩

theorem diagnostics_located_sample : ∃ outcome, (compile {} pairSchema sharedFiles).result = .ok outcome ∧
    (∃ d, d ∈ outcome.diagnostics) ∧ ∀ d ∈ outcome.diagnostics, Located sharedFiles d := by
  obtain ⟨outcome, hresult, -, hsome, hkind⟩ := @exists_completeOutcome pairSchema sharedFiles
    (fun outcome => (∃ d ∈ outcome.diagnostics, d.kind = .fieldsConflict) ∧
      ∀ d ∈ outcome.diagnostics, d.kind = .fieldsConflict) _ (by decide +kernel)
  have hread : ∀ file ∈ sharedFiles, file.IsRead := by
    unfold sharedFiles
    refine List.forall_mem_cons.2 ⟨sampleFile_isRead _ ?_, List.forall_mem_singleton.2 (sampleFile_isRead _ ?_)⟩
    · decide +kernel
    · decide +kernel
  refine ⟨outcome, hresult, hsome.imp fun d hd => hd.1, fun d hd => ?_⟩
  rcases (diagnostics_located hread hresult d hd).2 with hin | ⟨_, _, _, -, hmisplaced⟩
  · exact hin
  · have hkinds := (hkind d hd).symm.trans hmisplaced.kind
    exact absurd hkinds (by decide)

/-! ## A place behind the end of a file -/

/-- A subscription that spreads a fragment of another file with two fields. -/
def subscriptionFiles : List QueryFile :=
  [sampleFile "a.js" "subscription S \x7b ...F \x7d", sampleFile "f.js" "fragment F on Query \x7b a b \x7d"]

/-- In general a diagnostic can point behind the end of its file. The second field of a subscription stands in a
fragment of another file, and is reported in the file of the subscription. -/
theorem misplaced_out_of_file : ¬ ∀ (settings : Settings) (schema : Schema) (files : List QueryFile)
    (outcome : BatchOutcome), (∀ file ∈ files, file.IsRead) → (compile settings schema files).result = .ok outcome →
    ∀ d ∈ outcome.diagnostics, Located files d := by
  intro hall
  obtain ⟨outcome, hresult, -, d, hd, hsource, hstop⟩ :=
    @exists_completeOutcome { pairSchema with subscriptionType := some "Query" } subscriptionFiles
      (fun outcome => ∃ d ∈ outcome.diagnostics, d.source = 0 ∧
        "subscription S \x7b ...F \x7d".utf8ByteSize < d.span.stop) _ (by decide +kernel)
  have hread : ∀ file ∈ subscriptionFiles, file.IsRead := by
    unfold subscriptionFiles
    refine List.forall_mem_cons.2 ⟨sampleFile_isRead _ ?_, List.forall_mem_singleton.2 (sampleFile_isRead _ ?_)⟩
    · decide +kernel
    · decide +kernel
  obtain ⟨file, hfile, hfits⟩ := hall _ _ _ outcome hread hresult d hd _ d.source_mem_points
  rw [hsource] at hfile
  cases hfile
  exact absurd hfits.inside (Nat.not_le.2 hstop)

end Batch

end QueryBatch
