import QueryBatch.Proofs.Batch.Filed
import QueryBatch.Proofs.Batch.Settled
import QueryBatch.Proofs.Rules.Grounded

/-!
# Batches that are aborted

A batch ends at the first file with a structural fault. What was gathered before is dropped, and what is behind is never
looked at.

* `Diagnostic.report_congr`: a diagnostic is reported alike among sources that agree where it points.
* `FirstFault`: the first file of a batch that does not pass the structural rules.
* `FirstFault.compile_eq`: the run of a batch with such a file.
* `Batch.aborted_at_first`: such a batch says what is wrong with the file and nothing else, whatever follows it. All
  others are complete, unless a hook is refused.
-/

namespace QueryBatch

open Rules

/-! ## Reports among other sources -/

section Sources

variable {sources sources' : Sources} {d : Diagnostic}

theorem Diagnostic.otherViews_congr (h : ∀ p ∈ d.points, sources[p.1]? = sources'[p.1]?) :
    d.otherViews sources = d.otherViews sources' := by
  refine List.filterMap_congr fun r hr => ?_
  have hpoint : (r.source, r.span) ∈ d.points :=
    List.mem_cons_of_mem _ (List.mem_map_of_mem (List.mem_filter.1 hr).1)
  rw [h _ hpoint]

theorem Diagnostic.render_congr (h : ∀ p ∈ d.points, sources[p.1]? = sources'[p.1]?) :
    d.render sources = d.render sources' := by
  have hown : sources[d.source]? = sources'[d.source]? := h _ d.source_mem_points
  have hlines : d.linesWith sources = d.linesWith sources' := by
    funext source
    unfold linesWith
    rw [d.otherViews_congr h]
  unfold render
  rw [hown, hlines]

/-- A diagnostic is reported alike among sources that agree where it points. -/
theorem Diagnostic.report_congr (h : ∀ p ∈ d.points, sources[p.1]? = sources'[p.1]?) :
    d.report sources = d.report sources' := by
  have hown : sources[d.source]? = sources'[d.source]? := h _ d.source_mem_points
  unfold report
  rw [hown, d.render_congr h]

theorem reportAll_congr {ds : List Diagnostic}
    (h : ∀ d ∈ ds, ∀ p ∈ d.points, sources[p.1]? = sources'[p.1]?) : reportAll ds sources = reportAll ds sources' :=
  List.map_congr_left fun d hd => d.report_congr (h d hd)

end Sources

/-- The diagnostics of a document alone point to its source alone. -/
theorem source_of_structural {schema : Schema} {source : Nat} {document : Document} {d : Diagnostic}
    (h : d ∈ validateStructural schema source document) : ∀ p ∈ d.points, p.1 = source := by
  intro p hp
  obtain ⟨f, hf, hd⟩ := List.mem_filterMap.1 h
  obtain ⟨rule, hrule, hf⟩ := List.mem_flatMap.1 hf
  obtain ⟨t, ht, hsource, -⟩ := (grounded_structural hrule _ f hf).1 d hd p hp
  rw [← hsource]
  rcases Context.mem_subjects_of.1 ht with ⟨i, x, hx, rfl⟩ | ⟨i, x, hx, rfl⟩
  · obtain ⟨op, -, rfl⟩ := List.mem_map.1 (List.mem_of_getElem? hx)
    rfl
  · obtain ⟨frag, -, rfl⟩ := List.mem_map.1 (List.mem_of_getElem? hx)
    rfl

/-- The path of the file that an event says nothing can be compiled from. -/
def BatchEvent.failedPath? : BatchEvent → Option String
  | .extractionFailed path => some path
  | .batchFailed _ => none
  | .publish _ _ => none

namespace Batch

/-! ## The first fault -/

/-- The file at an index is the first one of a batch that does not pass the structural rules. -/
structure FirstFault (schema : Schema) (files : List QueryFile) (index : Nat) (file : QueryFile) : Prop where
  getElem?_eq : files[index]? = some file
  passes : ∀ i < index, ∀ f, files[i]? = some f → validateStructural schema i f.document = []
  fault : validateStructural schema index file.document ≠ []

/-- What ends a run does not speak of single files. -/
theorem failedPath?_closingEvents (settings : Settings) (sources : Sources) (diagnostics : List Diagnostic) :
    (closingEvents settings sources diagnostics).filterMap BatchEvent.failedPath? = [] := by
  unfold closingEvents
  dsimp only
  split <;> split <;> rfl

theorem closingEvents_congr {settings : Settings} {sources sources' : Sources} {ds : List Diagnostic}
    (h : ∀ d ∈ ds, ∀ p ∈ d.points, sources[p.1]? = sources'[p.1]?) :
    closingEvents settings sources ds = closingEvents settings sources' ds := by
  unfold closingEvents
  rw [reportAll_congr h]

section FirstFault

variable {schema : Schema} {files : List QueryFile} {index : Nat} {file : QueryFile}

/-- Gathering ends at the first fault. -/
theorem FirstFault.gather_eq (h : FirstFault schema files index file) :
    gather schema 0 {} files = .error (file, validateStructural schema index file.document) := by
  obtain ⟨hlt, hget⟩ := List.getElem?_eq_some_iff.1 h.getElem?_eq
  have hpasses : ∀ f ∈ files.take index, validateStructural schema 0 f.document = [] := by
    intro f hf
    obtain ⟨i, hi, rfl⟩ := List.mem_take_iff_getElem.1 hf
    exact structural_of_source (h.passes i (by omega) _ (List.getElem?_eq_getElem (by omega))) 0
  obtain ⟨r, hr⟩ := @exists_gather schema _ 0 {} hpasses
  have hlength : (files.take index).length = index := List.length_take_of_le (Nat.le_of_lt hlt)
  rw [← List.take_append_drop index files, List.drop_eq_getElem_cons hlt, hget, gather_append, hr, hlength,
    Nat.zero_add]
  unfold Except.bind gather
  dsimp only
  split
  · rename_i hnone
    exact absurd hnone h.fault
  · rfl

/-- The first fault is that of every batch that agrees up to its file. -/
theorem FirstFault.of_take (h : FirstFault schema files index file) {files' : List QueryFile}
    (htake : files'.take (index + 1) = files.take (index + 1)) : FirstFault schema files' index file := by
  have hsame : ∀ i < index + 1, files'[i]? = files[i]? := by
    intro i hi
    rw [← List.getElem?_take_of_lt hi, htake, List.getElem?_take_of_lt hi]
  refine ⟨(hsame _ (Nat.lt_succ_self _)).trans h.getElem?_eq, fun i hi f hf => ?_, h.fault⟩
  exact h.passes i hi f ((hsame i (Nat.lt_succ_of_lt hi)).symm.trans hf)

/-- The run of a batch with a fault. The events need the source of the faulty file alone. -/
theorem FirstFault.compile_eq (h : FirstFault schema files index file) (settings : Settings) :
    compile settings schema files =
      ⟨.extractionFailed file.path ::
          closingEvents settings (List.replicate index default ++ [file.source])
            (validateStructural schema index file.document),
        .ok { queries := .empty, diagnostics := validateStructural schema index file.document,
              status := .aborted file.path }⟩ := by
  have hevents : closingEvents settings (QueryFile.sources files) (validateStructural schema index file.document) =
      closingEvents settings (List.replicate index default ++ [file.source])
        (validateStructural schema index file.document) := by
    refine closingEvents_congr fun d hd p hp => ?_
    unfold QueryFile.sources
    rw [source_of_structural hd p hp, List.getElem?_map, h.getElem?_eq,
      List.getElem?_append_right (by rw [List.length_replicate]), List.length_replicate, Nat.sub_self]
    rfl
  unfold compile
  dsimp only
  rw [h.gather_eq]
  dsimp only
  rw [hevents]

end FirstFault

/-- If the files of a batch pass one by one, it is not aborted. -/
theorem complete_of_passes {settings : Settings} {schema : Schema} {files : List QueryFile} {outcome : BatchOutcome}
    (hpasses : ∀ i file, files[i]? = some file → validateStructural schema i file.document = [])
    (h : (compile settings schema files).result = .ok outcome) : outcome.status = .complete := by
  have hall : ∀ file ∈ files, validateStructural schema 0 file.document = [] := by
    intro file hfile
    obtain ⟨i, hi⟩ := List.mem_iff_getElem?.1 hfile
    exact structural_of_source (hpasses i file hi) 0
  obtain ⟨r, hr⟩ := @exists_gather schema files 0 {} hall
  unfold compile compileRegistry at h
  dsimp only at h
  rw [hr] at h
  dsimp only at h
  split at h
  · cases h
  · cases h
    rfl

/-- A batch with a file that does not pass the structural rules is aborted at the first such file: it has no queries
and the diagnostics of this file, it signals once that a file failed, and the run is the same whatever files come
behind. A batch whose files all pass is complete if it has an outcome. -/
theorem aborted_at_first (settings : Settings) (schema : Schema) (files : List QueryFile) :
    (∀ index file, FirstFault schema files index file →
      (compile settings schema files).result = .ok
        { queries := .empty, diagnostics := validateStructural schema index file.document
          status := .aborted file.path } ∧
      (compile settings schema files).events.filterMap BatchEvent.failedPath? = [file.path] ∧
      ∀ files', files'.take (index + 1) = files.take (index + 1) →
        compile settings schema files' = compile settings schema files) ∧
    ((∀ index file, ¬ FirstFault schema files index file) →
      ∀ outcome, (compile settings schema files).result = .ok outcome → outcome.status = .complete) := by
  constructor
  · intro index file h
    refine ⟨?_, ?_, fun files' htake => ?_⟩
    · rw [h.compile_eq]
    · rw [h.compile_eq]
      dsimp only
      rw [List.filterMap_cons, failedPath?_closingEvents]
      rfl
    · rw [h.compile_eq, (h.of_take htake).compile_eq]
  · intro hnone outcome houtcome
    refine complete_of_passes (fun i => ?_) houtcome
    -- a file that does not pass, with only files that pass before it, would be the first fault
    induction i using Nat.strong_induction_on with
    | h i ih =>
      intro file hfile
      by_contra hfault
      exact hnone i file ⟨hfile, ih, hfault⟩

/-- Three files, the second of which has a fragment on a type that does not exist. -/
def faultyFiles : List QueryFile :=
  [sampleFile "a.js" "query A \x7b a \x7d", sampleFile "b.js" "fragment F on Nope \x7b a \x7d",
    sampleFile "c.js" "query C \x7b a(n: 1) \x7d"]

theorem firstFault_faultyFiles :
    FirstFault sampleSchema faultyFiles 1 (sampleFile "b.js" "fragment F on Nope \x7b a \x7d") := by
  have hfirst : (validateStructural sampleSchema 0 (sampleFile "a.js" "query A \x7b a \x7d").document).length = 0 := by
    decide +kernel
  have hsecond : (validateStructural sampleSchema 1
      (sampleFile "b.js" "fragment F on Nope \x7b a \x7d").document).length ≠ 0 := by
    decide +kernel
  refine ⟨rfl, fun i hi f hf => ?_, fun hnil => hsecond (congrArg List.length hnil)⟩
  cases Nat.lt_one_iff.1 hi
  cases hf
  exact List.eq_nil_of_length_eq_zero hfirst

theorem not_firstFault_sampleFiles (index : Nat) (file : QueryFile) :
    ¬ FirstFault sampleSchema sampleFiles index file := by
  have hall : ∀ file ∈ sampleFiles, (validateStructural sampleSchema 0 file.document).length = 0 := by decide +kernel
  intro h
  have hpasses := List.eq_nil_of_length_eq_zero (hall file (List.mem_of_getElem? h.getElem?_eq))
  exact h.fault (structural_of_source hpasses index)

theorem aborted_at_first_sample :
    (compile {} sampleSchema faultyFiles).events.filterMap BatchEvent.failedPath? = ["b.js"] ∧
    compile {} sampleSchema (faultyFiles.take 2) = compile {} sampleSchema faultyFiles ∧
    ∃ outcome, (compile {} sampleSchema sampleFiles).result = .ok outcome ∧ outcome.status = .complete := by
  obtain ⟨-, hsignals, hbehind⟩ := (aborted_at_first {} sampleSchema faultyFiles).1 1 _ firstFault_faultyFiles
  obtain ⟨outcome, houtcome, -⟩ :=
    @exists_completeOutcome sampleSchema sampleFiles (fun _ => True) _ (by decide +kernel)
  exact ⟨hsignals, hbehind _ rfl, outcome, houtcome,
    (aborted_at_first {} sampleSchema sampleFiles).2 not_firstFault_sampleFiles outcome houtcome⟩

end Batch

end QueryBatch
