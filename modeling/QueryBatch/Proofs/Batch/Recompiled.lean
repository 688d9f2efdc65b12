import QueryBatch.Proofs.Batch.Alone
import QueryBatch.Proofs.Batch.Typing
import QueryBatch.Proofs.Parse.Runs
import QueryBatch.Proofs.Rules.Moved

/-!
# Compiling the output again

The text of a query is a document of its own. It passes the global rules, and all structural rules save two: those look
through spreads, and in the batch they saw the fragments of one file at a time.

* `Plan.Compiles.exists_moved`: the document of a query holds the definitions of a closure in other places.
* `Plan.Compiles.structural_cases`: which of the structural rules can find something in it.
* `Plan.Compiles.structural_eq_nil`: none does if the definitions stand in one file.
* `Batch.recompiled_query`: what becomes of a query that is compiled again.
* `Batch.recompiled_query_refused`: there are queries that are not.
-/

namespace QueryBatch

open Rules

/-! ## Structural rules that look through spreads -/

namespace Rules

variable {cx : Context} {f : Finding}

theorem kind_of_possibleSpreads (hf : f ∈ possibleSpreads cx) :
    ∃ d, f.diagnostic = some d ∧ d.kind = .impossibleFragmentSpread := by
  obtain ⟨⟨s, v⟩, -, hf⟩ := List.mem_flatMap.1 hf
  dsimp only at hf
  split at hf
  · split at hf
    · split at hf
      · exact absurd hf List.not_mem_nil
      · cases List.mem_singleton.1 hf
        exact ⟨_, rfl, rfl⟩
    · exact absurd hf List.not_mem_nil
  · split at hf
    · split at hf
      · exact absurd hf List.not_mem_nil
      · cases List.mem_singleton.1 hf
        exact ⟨_, rfl, rfl⟩
    · exact absurd hf List.not_mem_nil
  · exact absurd hf List.not_mem_nil

theorem kind_of_variablePositions (hf : f ∈ variablePositions cx) :
    ∃ d, f.diagnostic = some d ∧ d.kind = .variableInWrongPosition := by
  obtain ⟨⟨s, op⟩, -, hf⟩ := List.mem_flatMap.1 hf
  obtain ⟨u, -, hu⟩ := List.mem_filterMap.1 hf
  split at hu
  · split at hu
    · cases hu
    · cases hu
      exact ⟨_, rfl, rfl⟩
  · cases hu

end Rules

/-! ## The text of a query -/

/-- The file that a query is compiled from again. -/
def CompiledQuery.file (q : CompiledQuery) (document : Document) : QueryFile :=
  { source := { path := q.path, text := q.text }
    document
    isHook := q.isHook
    isStaticQuery := q.isStaticQuery }

namespace Document

variable {d : Document} {needed : List RegisteredFragment} {op : Operation}

/-- A document that is equal to that of an operation up to spans has its operation at the end. -/
theorem definitions_of_unspanned (h : d.unspanned = (ofNeeded needed op).unspanned) :
    ∃ op', d.operations = [op'] ∧ d.definitions = d.fragments.map .fragment ++ [.operation op'] := by
  have hdefinitions := congrArg Document.definitions h
  simp only [unspanned, ofNeeded, List.map_append, List.map_map, List.map_cons, List.map_nil] at hdefinitions
  obtain ⟨front, last, hd, hfront, hlast⟩ := List.map_eq_append_iff.1 hdefinitions
  obtain ⟨x, rfl, hx⟩ := List.map_eq_singleton_iff.1 hlast
  have hfragment : ∀ y ∈ front, y.operation? = none ∧ y.fragment?.map .fragment = some y := by
    intro y hy
    have hmem := List.mem_map_of_mem (f := Definition.unspanned) hy
    rw [hfront] at hmem
    obtain ⟨f, -, hf⟩ := List.mem_map.1 hmem
    cases y with
    | operation op => cases hf
    | fragment frag => exact ⟨rfl, rfl⟩
  cases x with
  | fragment frag => cases hx
  | operation op' =>
    have hoperations : front.filterMap Definition.operation? = [] :=
      List.filterMap_eq_nil_iff.2 fun y hy => (hfragment y hy).1
    have hfragments : (front.filterMap Definition.fragment?).map Definition.fragment = front := by
      rw [List.map_filterMap, List.filterMap_congr fun y hy => (hfragment y hy).2]
      exact List.filterMap_some
    refine ⟨op', ?_, ?_⟩
    · unfold operations
      rw [hd, List.filterMap_append, hoperations]
      rfl
    · unfold fragments
      rw [hd, List.filterMap_append, List.map_append, hfragments]
      exact (congrArg (· ++ [Definition.operation op']) (List.append_nil front)).symm

end Document

/-! ## Compiling it again -/

namespace Batch

section Compiled

variable {settings : Settings} {schema : Schema} {registry : Registry} {index : Nat} {op : RegisteredOperation}
  {closure : Closure} {d : Document}

/-- The document of a query holds the definitions of a closure in other places. -/
theorem Plan.Compiles.exists_moved (h : (Plan.of settings schema registry).Compiles index op closure)
    (hplaces : registry.All fun _ x => x.fieldSpans.Nodup)
    (hd : d.unspanned = (Document.ofNeeded (registry.neededBy closure) op.definition).unspanned) :
    ∃ r, (closureContext schema registry op closure).Moved (.ofDocument schema 0 d) r := by
  apply Context.exists_moved
  · rw [List.map_map]
    show _ = d.operations.map Operation.unspanned
    rw [← Document.operations_unspanned, hd, Document.operations_unspanned, Document.operations_ofNeeded]
    rfl
  · unfold closureFragments
    rw [List.map_map, List.map_map]
    show _ = d.fragments.map Fragment.unspanned
    rw [← Document.fragments_unspanned, hd, Document.fragments_unspanned, Document.fragments_ofNeeded, List.map_map]
    rfl
  · intro x hx
    cases List.mem_singleton.1 hx
    exact hplaces.operations op h.mem_operations
  · intro x hx
    obtain ⟨f, hf, rfl⟩ := List.mem_map.1 hx
    exact hplaces.fragments f (Registry.mem_of_fragment? (Registry.mem_neededBy.1 hf).1)

/-- A structural rule that needs nothing but the schema finds nothing in the document of a query, because it found
nothing in the files. -/
theorem Plan.Compiles.local_eq_nil (h : (Plan.of settings schema registry).Compiles index op closure)
    (hall : registry.All (FromFile schema)) {cx' : Context} {r : Recast}
    (hmoved : (closureContext schema registry op closure).Moved cx' r) {rule : Rule} (hlocal : Local rule)
    (hrule : rule ∈ structuralRules) : rule cx' = [] := by
  refine hlocal.nil_of_recast fun s' hs' => ?_
  obtain ⟨s, hs, hsame⟩ := hmoved.exists_subject hs'
  obtain ⟨cx, hschema, ⟨t, ht, hdefinition⟩, hnil⟩ := (mem_registry_of_closure h hall hs).exists_context
  refine ⟨cx, t, ⟨fun _ => r.owner s.owner, fun _ => r.span s.owner⟩, .still, ht, hnil rule hrule, ?_, ?_⟩
  · rw [hschema]
    exact hmoved.schema
  · rw [← hsame]
    unfold Subject.recast
    rw [hdefinition]

/-- Of the structural rules, only those that look through spreads can find something in the document of a query. -/
theorem Plan.Compiles.structural_cases (h : (Plan.of settings schema registry).Compiles index op closure)
    (hall : registry.All (FromFile schema)) {r : Recast}
    (hmoved : (closureContext schema registry op closure).Moved (.ofDocument schema 0 d) r)
    {op' : Operation} (hop : d.operations = [op']) {rule : Rule} (hrule : rule ∈ structuralRules) :
    rule (.ofDocument schema 0 d) = [] ∨ rule = possibleSpreads ∨ rule = variablePositions := by
  have hlone : loneAnonymous (.ofDocument schema 0 d) = [] := by
    have hlength : (Context.ofDocument schema 0 d).operations.length = 1 := by
      unfold Context.ofDocument
      rw [Context.operations_of, hop]
      rfl
    unfold loneAnonymous
    rw [if_pos (by omega)]
  have hlocal : Local rule → rule (.ofDocument schema 0 d) = [] := fun hlocal =>
    h.local_eq_nil hall hmoved hlocal hrule
  simp only [structuralRules, List.mem_cons, List.not_mem_nil, or_false] at hrule
  rcases hrule with rfl | rfl | rfl | rfl | rfl | rfl | rfl | rfl
  · exact .inl hlone
  · exact .inl (hlocal local_knownTypes)
  · exact .inl (hlocal local_compositeConditions)
  · exact .inl (hlocal local_inputVariables)
  · exact .inl (hlocal local_scalarLeafs)
  · exact .inr (.inl rfl)
  · exact .inl (hlocal local_correctValues)
  · exact .inr (.inr rfl)

/-- The diagnostics for the document of a query are of two kinds. -/
theorem Plan.Compiles.kind_of_structural (h : (Plan.of settings schema registry).Compiles index op closure)
    (hall : registry.All (FromFile schema)) {r : Recast}
    (hmoved : (closureContext schema registry op closure).Moved (.ofDocument schema 0 d) r)
    {op' : Operation} (hop : d.operations = [op']) {x : Diagnostic} (hx : x ∈ validateStructural schema 0 d) :
    x.kind = .impossibleFragmentSpread ∨ x.kind = .variableInWrongPosition := by
  obtain ⟨f, hf, hdiagnostic⟩ := List.mem_filterMap.1 hx
  obtain ⟨rule, hrule, hf⟩ := List.mem_flatMap.1 hf
  rcases h.structural_cases hall hmoved hop hrule with hnil | rfl | rfl
  · rw [hnil] at hf
    exact absurd hf List.not_mem_nil
  · obtain ⟨y, hy, hkind⟩ := kind_of_possibleSpreads hf
    rw [hdiagnostic] at hy
    cases hy
    exact .inl hkind
  · obtain ⟨y, hy, hkind⟩ := kind_of_variablePositions hf
    rw [hdiagnostic] at hy
    cases hy
    exact .inr hkind

/-- A definition and the fragments of its closure that stand in one file are a context inside that of the file. -/
theorem Plan.Compiles.embeds_file (h : (Plan.of settings schema registry).Compiles index op closure)
    {files : List QueryFile} (hgather : gather schema 0 {} files = .ok registry)
    (hfile : ∀ f ∈ registry.neededBy closure, f.source = op.source) :
    ∃ source document rename, validateStructural schema source document = [] ∧
      (closureContext schema registry op closure).Embeds (.ofDocument schema source document) rename := by
  obtain hnone | ⟨i, file, hi, hsource, hop, hpasses⟩ := exists_file_of_operation hgather h.mem_operations
  · exact absurd hnone List.not_mem_nil
  rw [Nat.zero_add] at hsource hpasses
  obtain ⟨n, hn⟩ := List.mem_iff_getElem?.1 hop
  refine ⟨i, file.document, ownerAmong n (closureFragments registry closure)
    (file.document.fragments.map fun frag => (i, frag)), hpasses, ?_⟩
  have hneeded := Registry.isNeeded_neededBy h.isClosureOf
  apply embeds_of
  · rw [List.getElem?_map, hn, ← hsource]
    rfl
  · intro x hx
    obtain ⟨f, hf, rfl⟩ := List.mem_map.1 hx
    obtain hnone | ⟨j, other, hj, hsource', hfound⟩ := exists_file_of_fragment? hgather (Registry.mem_neededBy.1 hf).1
    · cases hnone
    rw [Nat.zero_add] at hsource'
    obtain rfl : j = i := by rw [← hsource', hfile f hf, hsource]
    rw [hi] at hj
    cases hj
    rw [List.find?_map]
    show (file.document.fragments.find? fun frag => frag.name.text == f.name).map _ = _
    rw [hfound, ← hsource']
    rfl
  · rw [names_closureFragments]
    exact hneeded.nodup
  · exact fun s hs => h.mem_names .start hs
  · intro x hx s hs
    obtain ⟨f, hf, rfl⟩ := List.mem_map.1 hx
    obtain ⟨hfound, hmem⟩ := Registry.mem_neededBy.1 hf
    exact h.mem_names (.fragment ((h.isClosureOf.mem_fragments _).1 hmem) hfound) hs

/-- If all definitions of a query stand in one file, then the structural rules find nothing in its document. -/
theorem Plan.Compiles.structural_eq_nil (h : (Plan.of settings schema registry).Compiles index op closure)
    {files : List QueryFile} (hgather : gather schema 0 {} files = .ok registry)
    (hfile : ∀ f ∈ registry.neededBy closure, f.source = op.source) {r : Recast}
    (hmoved : (closureContext schema registry op closure).Moved (.ofDocument schema 0 d) r)
    {op' : Operation} (hop : d.operations = [op']) : validateStructural schema 0 d = [] := by
  obtain ⟨source, document, rename, hpasses, hembeds⟩ := h.embeds_file hgather hfile
  have hnil := validateStructural_eq_nil_iff.1 hpasses
  have hsubjectwise : ∀ rule, Subjectwise rule → rule (closureContext schema registry op closure) = [] →
      rule (.ofDocument schema 0 d) = [] := fun rule hrule =>
    hrule.nil_of_recast hmoved.alike.recast_eq fun s' hs' => hmoved.exists_subject hs'
  refine validateStructural_eq_nil_iff.2 fun rule hrule => ?_
  rcases h.structural_cases (fromFile_gather hgather) hmoved hop hrule with hrule | rfl | rfl
  · exact hrule
  · exact hsubjectwise _ subjectwise_possibleSpreads (hembeds.possibleSpreads_eq_nil (hnil _ hrule))
  · exact hsubjectwise _ subjectwise_variablePositions (hembeds.variablePositions_eq_nil (hnil _ hrule))

end Compiled

section Again

variable {settings : Settings} {schema : Schema} {files : List QueryFile} {outcome : BatchOutcome} {path : String}
  {q : CompiledQuery}

/-- A batch whose only file does not pass the structural rules ends there. -/
theorem compile_refused {file : QueryFile} (h : validateStructural schema 0 file.document ≠ []) :
    (compile settings schema [file]).result = .ok
      { diagnostics := validateStructural schema 0 file.document, status := .aborted file.path } := by
  have hgather : gather schema 0 {} [file] = .error (file, validateStructural schema 0 file.document) := by
    rw [gather]
    split
    · rename_i hnil
      exact absurd hnil h
    · rfl
  unfold compile
  rw [hgather]

/-- A batch with a query has gathered all its files. -/
theorem exists_gather_of_find? (hrun : (compile settings schema files).result = .ok outcome)
    (hq : outcome.queries.find? path = some q) : ∃ registry, gather schema 0 {} files = .ok registry := by
  cases hgather : gather schema 0 {} files with
  | ok registry => exact ⟨registry, rfl⟩
  | error fault =>
    unfold compile at hrun
    rw [hgather] at hrun
    cases hrun
    cases hq

/-- The places of fields in a batch of clean documents tell them apart. -/
theorem nodup_fieldSpans_gather (hclean : ∀ file ∈ files, file.document.IsClean) {registry : Registry}
    (hgather : gather schema 0 {} files = .ok registry) : registry.All fun _ x => x.fieldSpans.Nodup := by
  refine all_gather (fun _ file hfile _ x hx => ?_) (Registry.all_empty _) hgather
  obtain ⟨text, limits, n, hread⟩ := hclean file hfile
  exact Document.nodup_fieldSpans_of_read hread hx

theorem displayName_of_unspanned {op op' : Operation} (h : op'.unspanned = op.unspanned) :
    op'.displayName = op.displayName := by
  have hname : op'.name.map Name.unspanned = op.name.map Name.unspanned := congrArg Operation.name h
  unfold Operation.displayName
  cases hn' : op'.name with
  | none =>
    cases hn : op.name with
    | none => rfl
    | some n => simp [hn, hn'] at hname
  | some n' =>
    cases hn : op.name with
    | none => simp [hn, hn'] at hname
    | some n =>
      simp only [hn, hn', Option.map_some, Option.some.injEq] at hname
      exact (congrArg Name.text hname : n'.unspanned.text = n.unspanned.text)

/-- The text of a query is read without diagnostics, and the document is compiled alone as the query was, if the
structural rules let it pass; if they do not, the batch is aborted with what they find. No global rule finds anything.
Of the structural rules only those that look through spreads can: whether a spread is possible, and whether a variable
fits its position. In the batch they saw the fragments of one file; so they find nothing if all fragments of the query
stand in the file of its operation. -/
theorem recompiled_query {parsed : ParsedDocument} (hclean : ∀ file ∈ files, file.document.IsClean)
    (hrun : (compile settings schema files).result = .ok outcome) (hq : outcome.queries.find? path = some q)
    (hread : Document.read q.text = .ok parsed) :
    parsed.diagnostics = [] ∧
    ∃ again, (compile settings schema [q.file parsed.document]).result = .ok again ∧
      again.diagnostics = validateStructural schema 0 parsed.document ∧
      (∀ d ∈ again.diagnostics, d.kind = .impossibleFragmentSpread ∨ d.kind = .variableInWrongPosition) ∧
      (again.diagnostics = [] → again.isSuccess = true ∧
        again.queries.entries = [(q.path, { q with originalText := q.text, hash := Text.contentHash q.text })]) ∧
      (again.diagnostics ≠ [] → again.status = .aborted q.path ∧ again.queries.entries = []) ∧
      ∃ registry index op closure, gather schema 0 {} files = .ok registry ∧
        (Plan.of settings schema registry).Compiles index op closure ∧
        (Plan.of settings schema registry).queryOf op closure = q ∧
        ((∀ f ∈ registry.neededBy closure, f.source = op.source) → again.diagnostics = []) := by
  obtain ⟨registry, hgather⟩ := exists_gather_of_find? hrun hq
  obtain ⟨index, op, closure, h, -, rfl⟩ := exists_compiles_of_find? hgather hrun hq
  have hregistry : registry.WellFormed := wellFormed_gather hclean hgather
  obtain ⟨d, op', hfree, hd, hclosed, hop'⟩ := h.exists_read hregistry
  obtain ⟨rfl, hdiagnostics⟩ := Document.read_agrees hread hfree
  refine ⟨hdiagnostics, ?_⟩
  generalize parsed.document = d at hd hclosed
  obtain ⟨r, hmoved⟩ := h.exists_moved (nodup_fieldSpans_gather hclean hgather) hd
  have hkinds : ∀ x ∈ validateStructural schema 0 d,
      x.kind = .impossibleFragmentSpread ∨ x.kind = .variableInWrongPosition := fun x hx =>
    h.kind_of_structural (fromFile_gather hgather) hmoved hclosed.operations hx
  have hfile : (∀ f ∈ registry.neededBy closure, f.source = op.source) → validateStructural schema 0 d = [] :=
    fun hfile => h.structural_eq_nil hgather hfile hmoved hclosed.operations
  by_cases hpasses : validateStructural schema 0 d = []
  · obtain ⟨op'', hops, hdefinitions⟩ := Document.definitions_of_unspanned hd
    obtain rfl : op' = op'' := List.singleton_inj.1 (hclosed.operations.symm.trans hops)
    have htext : d.text = minimalDocument registry closure op.definition := by
      rw [← Document.text_ofNeeded]
      exact Document.text_eq_of_unspanned hd
    have hagain := @compile_alone settings schema (((Plan.of settings schema registry).queryOf op closure).file d) op'
      hclosed hdefinitions hpasses (hmoved.globalRules_eq_nil h.rules_eq_nil) h.not_refused
    refine ⟨_, hagain, hpasses.symm, nofun, fun _ => ⟨rfl, ?_⟩, fun hne => absurd rfl hne, registry, index, op, closure,
      hgather, h, rfl, fun _ => rfl⟩
    have hquery : CompiledQuery.of settings.projectRoot (((Plan.of settings schema registry).queryOf op closure).file d)
        op' d.text = { (Plan.of settings schema registry).queryOf op closure with
          originalText := minimalDocument registry closure op.definition
          hash := Text.contentHash (minimalDocument registry closure op.definition) } := by
      unfold CompiledQuery.of
      rw [htext, displayName_of_unspanned hop']
      rfl
    exact congrArg (fun q => [(op.file.path, q)]) hquery
  · refine ⟨_, compile_refused hpasses, rfl, hkinds, fun hnil => absurd hnil hpasses, fun _ => ⟨rfl, rfl⟩, registry,
      index, op, closure, hgather, h, rfl, hfile⟩

end Again

/-! ## Two batches -/

/-- What a batch makes of the query that it has for a path when it is compiled again. -/
def compileAgain (schema : Schema) (files : List QueryFile) (path : String) : Option BatchOutcome := do
  let outcome ← (compile {} schema files).result.toOption
  let q ← outcome.queries.find? path
  let parsed ← (Document.read q.text).toOption
  (compile {} schema [q.file parsed.document]).result.toOption

/-- What is seen of a query that is compiled again. -/
theorem exists_compileAgain {α : Type} {schema : Schema} {files : List QueryFile} {path : String}
    {view : BatchOutcome → α} {a : α} (h : (compileAgain schema files path).map view = some a) :
    ∃ outcome q parsed again, (compile {} schema files).result = .ok outcome ∧ outcome.queries.find? path = some q ∧
      Document.read q.text = .ok parsed ∧ (compile {} schema [q.file parsed.document]).result = .ok again ∧
      view again = a := by
  obtain ⟨again, hagain, hview⟩ := Option.map_eq_some_iff.1 h
  obtain ⟨outcome, hrun, hagain⟩ := Option.bind_eq_some_iff.1 hagain
  obtain ⟨q, hq, hagain⟩ := Option.bind_eq_some_iff.1 hagain
  obtain ⟨parsed, hread, hagain⟩ := Option.bind_eq_some_iff.1 hagain
  exact ⟨outcome, q, parsed, again, eq_ok_of_toOption hrun, hq, eq_ok_of_toOption hread, eq_ok_of_toOption hagain,
    hview⟩

theorem recompiled_query_sample : ∃ outcome q parsed again, (∀ file ∈ sampleFiles, file.document.IsClean) ∧
    (compile {} sampleSchema sampleFiles).result = .ok outcome ∧ outcome.queries.find? "a.js" = some q ∧
    Document.read q.text = .ok parsed ∧ parsed.diagnostics = [] ∧
    (compile {} sampleSchema [q.file parsed.document]).result = .ok again ∧
    again.diagnostics = validateStructural sampleSchema 0 parsed.document ∧
    (again.diagnostics = [] → again.isSuccess = true) := by
  obtain ⟨outcome, q, parsed, -, hrun, hq, hread, -, -⟩ :=
    @exists_compileAgain _ sampleSchema sampleFiles "a.js" (fun _ => ()) () (by decide +kernel)
  obtain ⟨hdiagnostics, again, hagain, hfound, -, hpasses, -⟩ :=
    recompiled_query sampleFiles_isClean hrun hq hread
  exact ⟨outcome, q, parsed, again, sampleFiles_isClean, hrun, hq, hread, hdiagnostics, hagain, hfound,
    fun hnil => (hpasses hnil).1⟩

/-- A schema with two object types that have nothing in common. -/
def disjointSchema : Schema where
  queryType := some "Query"
  mutationType := none
  subscriptionType := none
  types := .ofList [("Int", .scalar "Int"), ("Query", .object "Query" (.ofList [("t", ⟨"t", .empty, .named "T"⟩)]) []),
    ("T", .object "T" (.ofList [("n", ⟨"n", .empty, .named "Int"⟩)]) []),
    ("S", .object "S" (.ofList [("n", ⟨"n", .empty, .named "Int"⟩)]) [])]
  directives := .empty

/-- A spread that can never apply, of a fragment in another file. -/
def disjointFiles : List QueryFile :=
  [sampleFile "a.js" "query A \x7b t \x7b ...F \x7d \x7d", sampleFile "b.js" "fragment F on S \x7b n \x7d"]

theorem disjointFiles_isClean : ∀ file ∈ disjointFiles, file.document.IsClean := by
  unfold disjointFiles
  refine List.forall_mem_cons.2 ⟨sampleFile_isClean _ ?_, List.forall_mem_singleton.2 (sampleFile_isClean _ ?_)⟩
  · decide +kernel
  · decide +kernel

/-- Not every query is compiled again: the spread is looked at only once both definitions stand in one file. -/
theorem recompiled_query_refused : ¬ ∀ (settings : Settings) (schema : Schema) (files : List QueryFile)
    (outcome : BatchOutcome) (path : String) (q : CompiledQuery) (parsed : ParsedDocument),
    (∀ file ∈ files, file.document.IsClean) → (compile settings schema files).result = .ok outcome →
    outcome.queries.find? path = some q → Document.read q.text = .ok parsed →
    ∃ again, (compile settings schema [q.file parsed.document]).result = .ok again ∧ again.isSuccess = true ∧
      ∃ q', again.queries.entries = [(q.path, q')] ∧ q'.text = q.text := by
  intro hall
  obtain ⟨outcome, q, parsed, again, hrun, hq, hread, hagain, hfails⟩ :=
    @exists_compileAgain _ disjointSchema disjointFiles "a.js" BatchOutcome.isSuccess false (by decide +kernel)
  obtain ⟨again', hagain', hsuccess, -⟩ := hall {} disjointSchema disjointFiles outcome "a.js" q parsed
    disjointFiles_isClean hrun hq hread
  rw [hagain] at hagain'
  cases hagain'
  rw [hfails] at hsuccess
  cases hsuccess

end Batch

end QueryBatch
