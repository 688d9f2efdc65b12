import QueryBatch.Proofs.Batch.Recompiled
import QueryBatch.Proofs.Batch.Settled
import QueryBatch.Proofs.StaticId

/-!
# The identifiers of a batch

* `staticId_of_find?`: just the static queries of an outcome have an identifier, made from the path they stand under.
* `Batch.staticId_eq_iff`: two of them have the same one just if the words of their paths below the project root are the same
  in lower case. `Batch.exists_shared_id`: so two files may share one.
-/

namespace QueryBatch.Batch

open Text

section Identifiers

variable {settings : Settings} {schema : Schema} {files : List QueryFile} {outcome : BatchOutcome}
  {path path' : String} {q q' : CompiledQuery}

/-- A query of an outcome stands under the path of its file, and it has an identifier if it is static. -/
theorem staticId_of_find? (hrun : (compile settings schema files).result = .ok outcome)
    (hq : outcome.queries.find? path = some q) :
    q.id = if q.isStaticQuery then some (staticQueryId path settings.projectRoot) else none := by
  obtain ⟨registry, hgather⟩ := exists_gather_of_find? hrun hq
  obtain ⟨index, op, closure, -, rfl, rfl⟩ := exists_compiles_of_find? hgather hrun hq
  rfl

/-- Static queries of one outcome have the same identifier just if the words of their paths below the project root are
the same in lower case. -/
theorem staticId_eq_iff (hrun : (compile settings schema files).result = .ok outcome)
    (hq : outcome.queries.find? path = some q) (hq' : outcome.queries.find? path' = some q')
    (hstatic : q.isStaticQuery = true) (hstatic' : q'.isStaticQuery = true) :
    q.id.isSome ∧ q'.id.isSome ∧
      (q.id = q'.id ↔ loweredWords (relativePath path.toList settings.projectRoot.toList) =
        loweredWords (relativePath path'.toList settings.projectRoot.toList)) := by
  rw [staticId_of_find? hrun hq, staticId_of_find? hrun hq', if_pos hstatic, if_pos hstatic', Option.some.injEq]
  exact ⟨rfl, rfl, staticQueryId_eq_iff⟩

end Identifiers

/-- Static queries of two files whose paths differ in a separator alone. -/
def namesakeFiles : List QueryFile :=
  [{ sampleFile "a-b.js" "query A \x7b a \x7d" with isStaticQuery := true },
    { sampleFile "a_b.js" "query B \x7b a \x7d" with isStaticQuery := true }]

/-- What is seen of the query under a path. -/
def staticView (outcome : BatchOutcome) (path : String) : Option (String × Bool × Option String) :=
  (outcome.queries.find? path).map fun q => (q.name, q.isStaticQuery, q.id)

theorem namesakeFiles_complete : ∃ outcome q q', (compile {} sampleSchema namesakeFiles).result = .ok outcome ∧
    outcome.queries.find? "a-b.js" = some q ∧ outcome.queries.find? "a_b.js" = some q' ∧
    (q.name, q.isStaticQuery, q.id) = ("A", true, some "sq--a-b-js") ∧
    (q'.name, q'.isStaticQuery, q'.id) = ("B", true, some "sq--a-b-js") := by
  obtain ⟨outcome, hrun, -, hq, hq'⟩ := @exists_completeOutcome sampleSchema namesakeFiles
    (fun outcome => staticView outcome "a-b.js" = some ("A", true, some "sq--a-b-js") ∧
      staticView outcome "a_b.js" = some ("B", true, some "sq--a-b-js")) _ (by decide +kernel)
  obtain ⟨q, hfound, hview⟩ := Option.map_eq_some_iff.1 hq
  obtain ⟨q', hfound', hview'⟩ := Option.map_eq_some_iff.1 hq'
  exact ⟨outcome, q, q', hrun, hfound, hfound', hview, hview'⟩

theorem staticId_eq_iff_namesakes : ∃ outcome q q', (compile {} sampleSchema namesakeFiles).result = .ok outcome ∧
    outcome.queries.find? "a-b.js" = some q ∧ outcome.queries.find? "a_b.js" = some q' ∧ q.id = q'.id := by
  obtain ⟨outcome, q, q', hrun, hq, hq', hview, hview'⟩ := namesakeFiles_complete
  have hstatic : q.isStaticQuery = true := congrArg (fun view => view.2.1) hview
  have hstatic' : q'.isStaticQuery = true := congrArg (fun view => view.2.1) hview'
  exact ⟨outcome, q, q', hrun, hq, hq', (staticId_eq_iff hrun hq hq' hstatic hstatic').2.2.2 (by decide +kernel)⟩

/-- Files of different paths may share an identifier. -/
theorem exists_shared_id : ¬ ∀ (settings : Settings) (schema : Schema) (files : List QueryFile)
    (outcome : BatchOutcome) (path path' : String) (q q' : CompiledQuery), (files.map QueryFile.path).Nodup →
    (compile settings schema files).result = .ok outcome → outcome.queries.find? path = some q →
    outcome.queries.find? path' = some q' → q.isStaticQuery = true → q'.isStaticQuery = true → q ≠ q' →
    q.id ≠ q'.id := by
  intro hall
  obtain ⟨outcome, q, q', hrun, hq, hq', hview, hview'⟩ := namesakeFiles_complete
  have hpaths : (namesakeFiles.map QueryFile.path).Nodup := by decide +kernel
  simp only [Prod.mk.injEq] at hview hview'
  obtain ⟨hname, hstatic, hid⟩ := hview
  obtain ⟨hname', hstatic', hid'⟩ := hview'
  refine hall _ _ _ outcome _ _ q q' hpaths hrun hq hq' hstatic hstatic' (fun he => ?_) (hid.trans hid'.symm)
  rw [he, hname'] at hname
  exact absurd hname (by decide)

end QueryBatch.Batch
