import QueryBatch.Proofs.Batch.Missing
import QueryBatch.Proofs.Parse.Draws
import QueryBatch.Proofs.Rules.Fixes

/-!
# What the diagnostics of a batch propose

**Idea.** A diagnostic with a fix is on a name that is looked for and not found. The name stands in a definition of the
batch, so it is a token of the text, and the fix puts the closest candidate in place of that token.

* `Absent`: a name of a definition that is not found: by a rule, or among the fragments of a batch.
* `OnAbsent`: a diagnostic on such a name of a file. `onAbsent_of_fault`, `onAbsent_of_validation`, `onAbsent_of_run`:
  the diagnostics of a batch that propose something are.
* `Mends`: a fix puts the closest candidate in place of one name token.
* `Batch.fixes_mend`: the fixes of a batch do.
-/

namespace QueryBatch

open Rules

namespace Batch

/-! ## Names that are not found -/

/-- A name of a definition that is not found when a diagnostic of a kind is given, with the names among which it is
looked for. -/
inductive Absent (schema : Schema) (files : List QueryFile) (s : Subject) : Diagnostic.Kind → Name → List String → Prop
  | byRule {kind : Diagnostic.Kind} {name : Name} {candidates : List String} :
      Missed schema s kind name candidates → Absent schema files s kind name candidates
  | spread {registry : Registry} {spread : Spread} : gather schema 0 {} files = .ok registry →
      spread ∈ s.definition.body.spreads → registry.fragment? spread.name.text = none →
      Absent schema files s .undefinedFragment spread.name registry.names

section Absent

variable {schema : Schema} {files : List QueryFile} {s : Subject} {kind : Diagnostic.Kind} {name : Name}
  {candidates : List String}

theorem Absent.mem_names (h : Absent schema files s kind name candidates) : name ∈ s.definition.names := by
  cases h with
  | byRule hmissed => exact hmissed.mem_names
  | spread _ hs _ => exact Definition.spread_subset_names hs List.mem_cons_self

theorem Absent.not_mem (h : Absent schema files s kind name candidates) : name.text ∉ candidates := by
  cases h with
  | byRule hmissed => exact hmissed.not_mem
  | spread _ _ hnone =>
    intro hmem
    obtain ⟨f, hf⟩ := Registry.mem_names.1 hmem
    cases hnone.symm.trans hf

end Absent

/-- A definition under validation stands in the file of its source. -/
def HasFile (files : List QueryFile) (s : Subject) : Prop :=
  ∃ file, files[s.source]? = some file ∧ s.definition ∈ file.document.definitions

/-- A diagnostic on a name of a file that is not found. -/
def OnAbsent (schema : Schema) (files : List QueryFile) (d : Diagnostic) : Prop :=
  ∃ s name candidates, HasFile files s ∧ Absent schema files s d.kind name candidates ∧
    d.Replaces s.source name candidates

/-! ## The diagnostics of a batch -/

section Diagnostics

variable {schema : Schema} {files : List QueryFile} {registry : Registry} {d : Diagnostic}

/-- What rules propose for definitions of files is for absent names. -/
theorem onAbsent_of_findings {cx : Context} (hschema : cx.schema = schema)
    (hcx : ∀ s ∈ cx.subjects, HasFile files s) {rules : List Rule} (hrules : ∀ rule ∈ rules, Proposes rule)
    (hd : d ∈ (findings rules cx).filterMap Finding.diagnostic) : d.fix = none ∨ OnAbsent schema files d := by
  subst hschema
  obtain ⟨f, hf, hd⟩ := List.mem_filterMap.1 hd
  obtain ⟨rule, hrule, hf⟩ := List.mem_flatMap.1 hf
  refine (hrules rule hrule cx f hf d hd).imp_right ?_
  rintro ⟨s, hs, name, candidates, hmissed, hreplaces⟩
  exact ⟨s, name, candidates, hcx s hs, .byRule hmissed, hreplaces⟩

theorem onAbsent_of_fault {source : Nat} {file : QueryFile} (hfile : files[source]? = some file)
    (hd : d ∈ validateStructural schema source file.document) : d.fix = none ∨ OnAbsent schema files d :=
  onAbsent_of_findings rfl (fun _ => subject_in_document hfile) (fun _ => proposes_structural) hd

theorem replaces_undefinedFragment (registry : Registry) (m : MissingSpread) :
    (undefinedFragment registry m).Replaces m.source ⟨m.name, m.span⟩ registry.names := by
  unfold undefinedFragment
  dsimp only
  split
  · rename_i closest hclosest
    refine ⟨rfl, rfl, fun fix h => ?_⟩
    cases h
    exact hclosest
  · exact ⟨rfl, rfl, nofun⟩

theorem fix_invalidDependency (registry : Registry) (op : RegisteredOperation) (name : String) :
    (invalidDependency registry op name).fix = none := by
  unfold invalidDependency
  dsimp only
  split <;> rfl

variable (hgather : gather schema 0 {} files = .ok registry)
include hgather

theorem onAbsent_of_validation {settings : Settings}
    (hd : d ∈ (Plan.of settings schema registry).validation.diagnostics) : d.fix = none ∨ OnAbsent schema files d :=
  onAbsent_of_findings rfl (fun _ => subject_in_file hgather) (fun _ => proposes_global) hd

/-- A missing spread that an operation comes to is an absent name. -/
theorem onAbsent_undefinedFragment {op : RegisteredOperation} (hop : op ∈ registry.operations) {closure : Closure}
    (hclosure : closure.IsClosureOf registry op.source op.definition.body) {m : MissingSpread}
    (hm : m ∈ closure.missing) : OnAbsent schema files (undefinedFragment registry m) := by
  obtain ⟨⟨file, x, s, hfile, hx, hs, hspan, hname⟩, hnone⟩ := spreadAt_of_missing hgather hop hclosure hm
  have hreplaces : (undefinedFragment registry m).Replaces m.source s.name registry.names := by
    have hm := replaces_undefinedFragment registry m
    rwa [← hname, ← show s.name.span = m.span from hspan] at hm
  refine ⟨⟨.operation 0, m.source, x⟩, s.name, registry.names, ⟨file, hfile, hx⟩, ?_, hreplaces⟩
  rw [(undefinedAt_undefinedFragment registry m).1]
  exact .spread hgather hs (hname ▸ hnone)

theorem onAbsent_missing {op : RegisteredOperation} (hop : op ∈ registry.operations) {closure : Closure}
    (hclosure : closure.IsClosureOf registry op.source op.definition.body) {first : MissingSpread}
    {others : List MissingSpread} (hmissing : closure.missing.toList = first :: others)
    {reported : List (Nat × Span)} (hd : d ∈ missingDiagnostics registry reported op first others) :
    d.fix = none ∨ OnAbsent schema files d := by
  unfold missingDiagnostics at hd
  dsimp only at hd
  split at hd
  · cases List.mem_singleton.1 hd
    exact .inl rfl
  · obtain ⟨m, hm, rfl⟩ := List.mem_map.1 hd
    have hm' : m ∈ closure.missing := OrderedSet.mem_iff.2 (hmissing ▸ (List.mem_filter.1 hm).1)
    exact .inr (onAbsent_undefinedFragment hgather hop hclosure hm')

/-- What is proposed when operations are handled is for absent names. -/
theorem onAbsent_of_run {settings : Settings} {p : Progress}
    (hrun : compileOperations (Plan.of settings schema registry) 0 {} registry.operations = (p, none)) :
    ∀ d ∈ p.diagnostics, d.fix = none ∨ OnAbsent schema files d := by
  refine compileOperations_induction (P := fun p => ∀ d ∈ p.diagnostics, d.fix = none ∨ OnAbsent schema files d)
    (List.nil_append _).symm rfl ?_ hrun nofun
  rintro index op q q' - hop hhandles hdiagnostics
  have hmem : op ∈ registry.operations := List.mem_of_getElem? hop
  cases hhandles with
  | rejected _ | compiled _ _ => exact hdiagnostics
  | unresolved hclosure hmissing =>
    exact List.forall_mem_append.2 ⟨hdiagnostics, fun d => onAbsent_missing hgather hmem hclosure hmissing⟩
  | tainted _ _ _ =>
    exact List.forall_mem_append.2 ⟨hdiagnostics,
      List.forall_mem_singleton.2 (.inl (fix_invalidDependency _ op _))⟩
  | second _ _ _ => exact List.forall_mem_append.2 ⟨hdiagnostics, List.forall_mem_singleton.2 (.inl rfl)⟩

end Diagnostics

/-- Diagnostics of a batch that propose something are on names that are not found. -/
theorem onAbsent_of_compile {settings : Settings} {schema : Schema} {files : List QueryFile} {outcome : BatchOutcome}
    (h : (compile settings schema files).result = .ok outcome) {d : Diagnostic} (hd : d ∈ outcome.diagnostics) :
    d.fix = none ∨ OnAbsent schema files d := by
  cases hgather : gather schema 0 {} files with
  | error fault =>
    obtain ⟨file, found⟩ := fault
    simp only [compile, hgather] at h
    cases h
    obtain ⟨i, hi, rfl⟩ := source_of_fault hgather
    rw [Nat.zero_add] at hd
    exact onAbsent_of_fault hi hd
  | ok registry =>
    have hstatus : outcome.status = .complete := by
      simp only [compile, hgather, compileRegistry] at h
      split at h
      · cases h
      · cases h
        rfl
    obtain ⟨registry', p, hgather', hrun, -, hdiagnostics⟩ := exists_run h hstatus
    cases hgather.symm.trans hgather'
    rw [hdiagnostics] at hd
    rcases List.mem_append.1 hd with hd | hd
    · exact onAbsent_of_validation hgather hd
    · exact onAbsent_of_run hgather hrun d hd

/-! ## Fixes -/

/-- A fix of a diagnostic puts a candidate in place of one name token of a file. The token is alone at its place, its
name is no candidate, and the one that is put there is the first of the closest and nearer than the threshold. -/
structure Mends (file : QueryFile) (d : Diagnostic) (fix : Fix) (name : Name) (candidates : List String) : Prop where
  token : name.token ∈ Token.scan file.source.text
  span_eq : d.span = name.span
  hasText : d.span.HasText file.source.text name.text
  alone : ∀ t ∈ Token.scan file.source.text, t.span.start < d.span.stop → d.span.start < t.span.stop → t = name.token
  not_mem : name.text ∉ candidates
  closest : Text.IsClosest name.text candidates fix.replacement
  near : Text.editDistance name.text fix.replacement < 10

/-- The fix of a diagnostic on an absent name of a file that is read without diagnostics. -/
theorem mends_of_replaces {schema : Schema} {files : List QueryFile} {s : Subject} {file : QueryFile}
    (hread : file.IsRead) (hs : s.definition ∈ file.document.definitions) {d : Diagnostic} {name : Name}
    {candidates : List String} (habsent : Absent schema files s d.kind name candidates)
    (hreplaces : d.Replaces s.source name candidates) {fix : Fix} (hfix : d.fix = some fix) :
    Mends file d fix name candidates := by
  obtain ⟨limits, n, hread⟩ := hread
  have hlaid := Token.laid_scan file.source.text
  have htoken := Document.names_of_read hread hs name habsent.mem_names
  obtain ⟨hclosest, hnear⟩ := Text.isClosest_of_closestMatch (hreplaces.closest fix hfix)
  refine ⟨htoken, hreplaces.span_eq, ?_, fun t ht hstart hstop => ?_, habsent.not_mem, hclosest, hnear⟩
  · rw [hreplaces.span_eq]
    exact (hlaid.fits name.token htoken).hasText (by simp [Name.token])
  · rw [hreplaces.span_eq] at hstart hstop
    exact hlaid.eq_of_overlap ht htoken hstart hstop

/-- The fixes of a batch of files that are read without diagnostics mend names that are not found. A diagnostic with a
fix points to just one name token of the text of its source. This is the name that the rule, or the operation that
spreads it, does not find, and the fix is the first of the candidates that are closest to it. -/
theorem fixes_mend {settings : Settings} {schema : Schema} {files : List QueryFile} {outcome : BatchOutcome}
    (hread : ∀ file ∈ files, file.IsRead) (h : (compile settings schema files).result = .ok outcome) :
    ∀ d ∈ outcome.diagnostics, ∀ fix, d.fix = some fix → ∃ file s name candidates,
      files[d.source]? = some file ∧ s.source = d.source ∧ s.definition ∈ file.document.definitions ∧
        Absent schema files s d.kind name candidates ∧ Mends file d fix name candidates := by
  intro d hd fix hfix
  rcases onAbsent_of_compile h hd with hnone | ⟨s, name, candidates, ⟨file, hfile, hs⟩, habsent, hreplaces⟩
  · cases hnone.symm.trans hfix
  · have hmends := mends_of_replaces (hread file (List.mem_of_getElem? hfile)) hs habsent hreplaces hfix
    rw [← hreplaces.source_eq] at hfile
    exact ⟨file, s, name, candidates, hfile, hreplaces.source_eq.symm, hs, habsent, hmends⟩

/-- Two operations, one with a misspelt field and one with a misspelt spread, to which two fragments are equally
close. -/
def misspeltFiles : List QueryFile :=
  [sampleFile "a.js" "query A \x7b bb \x7d", sampleFile "b.js" "query B \x7b ...Pat \x7d",
    sampleFile "f.js" "fragment Part on Query \x7b a \x7d  fragment Pact on Query \x7b b \x7d"]

theorem fixes_mend_sample : ∃ outcome, (compile {} pairSchema misspeltFiles).result = .ok outcome ∧
    ∃ d ∈ outcome.diagnostics, d.source = 1 ∧ ∃ fix file name candidates, d.fix = some fix ∧
      fix.replacement = "Part" ∧ misspeltFiles[1]? = some file ∧ Mends file d fix name candidates := by
  obtain ⟨outcome, hresult, -, d, hd, hsource, hreplacement⟩ := @exists_completeOutcome pairSchema misspeltFiles
    (fun outcome => ∃ d ∈ outcome.diagnostics, d.source = 1 ∧ d.fix.map Fix.replacement = some "Part") _
    (by decide +kernel)
  have hread : ∀ file ∈ misspeltFiles, file.IsRead := by
    unfold misspeltFiles
    refine List.forall_mem_cons.2 ⟨sampleFile_isRead _ ?_, List.forall_mem_cons.2 ⟨sampleFile_isRead _ ?_,
      List.forall_mem_singleton.2 (sampleFile_isRead _ ?_)⟩⟩
    · decide +kernel
    · decide +kernel
    · decide +kernel
  obtain ⟨fix, hfix, hreplacement⟩ := Option.map_eq_some_iff.1 hreplacement
  obtain ⟨file, s, name, candidates, hfile, -, -, -, hmends⟩ := fixes_mend hread hresult d hd fix hfix
  rw [hsource] at hfile
  exact ⟨outcome, hresult, d, hd, hsource, fix, file, name, candidates, hfix, hreplacement, hfile, hmends⟩

-- a type is mended inside a non-null mark, and left alone inside a list
example : (validateStructural pairSchema 0 (sampleFile "a.js" "query A($n: Itn!, $m: [Itn!]) \x7b a \x7d").document).map
    (fun d => (d.span, d.fix.map Fix.replacement)) = [(⟨12, 15⟩, some "Int"), (⟨22, 28⟩, none)] := by decide +kernel

end Batch

end QueryBatch
