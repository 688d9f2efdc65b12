import QueryBatch.Proofs.Batch.Recompiled
import QueryBatch.Proofs.Batch.Reordered
import QueryBatch.Proofs.Batch.Silent
import QueryBatch.Proofs.Rules.Shuffled

/-!
# The order of files

* `Registry.Reordered.rules_eq_nil`: the global rules find nothing in a registry if they find nothing in one that
  differs from it in its order. `Registry.Reordered.smooth`: nor does anything speak against an operation then.
* `CompiledQuery.Reordered`: two queries of one operation, whose texts show the same fragments in some order.
* `Batch.success_of_perm`: a batch that is a success is one in every order of its files, with the same queries up to the
  order of fragments in their texts.
-/

namespace QueryBatch

open Rules Batch

/-! ## Registries in another order -/

namespace Registry.Reordered

variable {settings : Settings} {schema : Schema} {r r' : Registry}

/-- The global rules find nothing in what is the same in another order. -/
theorem rules_eq_nil (h : r.Reordered r') (hspans : r.All fun _ x => x.fieldSpans.Nodup)
    (hnil : ∀ rule ∈ globalRules, rule (batchContext schema r) = []) :
    ∀ rule ∈ globalRules, rule (batchContext schema r') = [] := by
  have hoperations := h.operations.map fun x => x.2.unspanned
  rw [List.map_map, List.map_map] at hoperations
  obtain ⟨recast, mid, hmoved, hshuffled⟩ : ∃ recast mid, (batchContext schema r).Moved mid recast ∧
      mid.Shuffled (batchContext schema r') := by
    apply Context.exists_moved_shuffled
    · rw [List.map_map, List.map_map]
      exact hoperations
    · rw [List.map_map, List.map_map]
      exact h.fragments
    · intro x hx
      obtain ⟨op, hop, rfl⟩ := List.mem_map.1 hx
      exact hspans.operations op hop
    · intro x hx
      obtain ⟨f, hf, rfl⟩ := List.mem_map.1 hx
      exact hspans.fragments f hf
    · rw [List.map_map]
      exact h.symm.distinct
  exact hshuffled.globalRules_eq_nil (hmoved.globalRules_eq_nil hnil)

/-- Nothing speaks against an operation of what is the same in another order, if the rules find nothing there. -/
theorem smooth (h : r.Reordered r') (hsmooth : (Plan.of settings schema r).Smooth)
    (hnil : ∀ rule ∈ globalRules, rule (batchContext schema r') = [])
    (hsources : (r'.operations.map RegisteredOperation.source).Nodup) : (Plan.of settings schema r').Smooth := by
  obtain ⟨-, hrejected, htainted⟩ := validateGlobal_of_nil hnil
  refine ⟨fun index' op' hop' => ?_, fun op' hop' => ?_, hsources⟩
  · obtain ⟨op, hop, -, hdefinition⟩ := h.symm.exists_operation (List.mem_of_getElem? hop')
    obtain ⟨index, hindex⟩ := List.mem_iff_getElem?.1 hop
    refine ⟨fun hr => ?_, fun hlacking => (hsmooth.admits index op hindex).complete ?_, fun name _ ht => ?_⟩
    · rw [OrderedSet.mem_iff] at hr
      exact List.not_mem_nil (hrejected ▸ hr)
    · rw [hdefinition]
      exact h.symm.lacking hlacking
    · rw [OrderedSet.mem_iff] at ht
      exact List.not_mem_nil (htainted ▸ ht)
  · obtain ⟨op, hop, hfile, -⟩ := h.symm.exists_operation hop'
    rw [← hfile]
    exact hsmooth.hooks op hop

end Registry.Reordered

/-! ## Queries -/

/-- Two queries of one operation. They differ in their texts alone, which show the same fragments of the batch, in some
order, and then the operation. -/
structure CompiledQuery.Reordered (files : List QueryFile) (q q' : CompiledQuery) : Prop where
  same : q' = { q with text := q'.text }
  texts : ∃ (op : Operation) (shown shown' : List Fragment),
    (∃ file ∈ files, file.path = q.path ∧ op ∈ file.document.operations) ∧ op.displayName = q.name ∧
    (∀ frag ∈ shown ++ shown', ∃ file ∈ files, frag ∈ file.document.fragments) ∧
    (shown.map Fragment.text).Perm (shown'.map Fragment.text) ∧
    q.text = "\n\n".intercalate (shown.map Fragment.text ++ [op.text]) ∧
    q'.text = "\n\n".intercalate (shown'.map Fragment.text ++ [op.text])

namespace Batch

section Files

variable {settings : Settings} {schema : Schema} {files files' : List QueryFile} {r r' : Registry}

/-- No two fragments have one name if the global rules find nothing. -/
theorem distinct_of_rules (hrules : ∀ rule ∈ globalRules, rule (batchContext schema r) = []) :
    (r.fragments.map RegisteredFragment.name).Nodup := by
  have hnames : uniqueFragmentNames ∈ globalRules := by simp [globalRules]
  have hnodup := uniqueFragmentNames_eq_nil_iff.1 (hrules _ hnames)
  rw [batchContext, Context.names_of, List.map_map] at hnodup
  exact hnodup

/-- The fragments that a query shows stand in files. -/
theorem exists_file_of_neededBy (hgather : gather schema 0 {} files = .ok r) {closure : Closure} {frag : Fragment}
    (hfrag : frag ∈ (r.neededBy closure).map RegisteredFragment.definition) :
    ∃ file ∈ files, frag ∈ file.document.fragments := by
  obtain ⟨f, hf, rfl⟩ := List.mem_map.1 hfrag
  have hmem := Registry.mem_of_fragment? (Registry.mem_neededBy.1 hf).1
  obtain ⟨file, hfile, hdefinition⟩ := (all_gather_file hgather).fragments f hmem
  exact ⟨file, List.mem_of_getElem? hfile, Document.mem_fragments.2 hdefinition⟩

/-- The queries of one operation in both orders. -/
theorem reordered_queryOf (hperm : files.Perm files') (h : r.Reordered r') (hgather : gather schema 0 {} files = .ok r)
    (hgather' : gather schema 0 {} files' = .ok r') {index index' : Nat} {op op' : RegisteredOperation}
    {closure closure' : Closure} (hcompiles : (Plan.of settings schema r).Compiles index op closure)
    (hcompiles' : (Plan.of settings schema r').Compiles index' op' closure') (hfile : op'.file = op.file)
    (hdefinition : op'.definition = op.definition) :
    CompiledQuery.Reordered files ((Plan.of settings schema r).queryOf op closure)
      ((Plan.of settings schema r').queryOf op' closure') := by
  have hclosure := hcompiles.isClosureOf
  have hclosure' := hcompiles'.isClosureOf
  rw [hdefinition] at hclosure'
  constructor
  · unfold Plan.queryOf CompiledQuery.of
    rw [hfile, hdefinition]
    rfl
  · obtain ⟨hmem, hop⟩ := file_of_operation hgather hcompiles.mem_operations
    refine ⟨op.definition, (r.neededBy closure).map RegisteredFragment.definition,
      (r'.neededBy closure').map RegisteredFragment.definition, ⟨op.file, List.mem_of_getElem? hmem, rfl, hop⟩, rfl,
      fun frag hfrag => ?_, ?_, ?_, ?_⟩
    · rcases List.mem_append.1 hfrag with hfrag | hfrag
      · exact exists_file_of_neededBy hgather hfrag
      · obtain ⟨file, hfile, hmem⟩ := exists_file_of_neededBy hgather' hfrag
        exact ⟨file, hperm.symm.subset hfile, hmem⟩
    · rw [List.map_map, List.map_map]
      exact h.texts_neededBy hclosure hclosure'
    · rw [List.map_map]
      rfl
    · rw [List.map_map, ← hdefinition]
      rfl

/-- A batch that is a success is one in every order of its files. For each path it has a query in both orders or in
none, and these differ in the order of the fragments in their texts alone. -/
theorem success_of_perm {outcome : BatchOutcome} (hclean : ∀ file ∈ files, file.document.IsClean)
    (hpaths : (files.map QueryFile.path).Nodup) (hperm : files.Perm files')
    (hrun : (compile settings schema files).result = .ok outcome) (hsuccess : outcome.isSuccess = true) :
    ∃ outcome', (compile settings schema files').result = .ok outcome' ∧ outcome'.isSuccess = true ∧
      ∀ path, Option.Rel (CompiledQuery.Reordered files) (outcome.queries.find? path)
        (outcome'.queries.find? path) := by
  obtain ⟨r, hgather, hrules, hsmooth⟩ := exists_smooth hrun hsuccess
  obtain ⟨r', hgather'⟩ := @exists_gather schema files' 0 {} fun file hfile =>
    passes_of_gather hgather (hperm.symm.subset hfile)
  have hreordered := reordered_gather hclean hperm hgather hgather' (distinct_of_rules hrules)
  have hrules' := hreordered.rules_eq_nil (nodup_fieldSpans_gather hclean hgather) hrules
  have hsmooth' := hreordered.smooth hsmooth hrules' (nodup_sources_of_perm hperm hgather hgather' hsmooth.sources)
  obtain ⟨outcome', hrun', hsuccess'⟩ := exists_isSuccess hgather' hrules' hsmooth'
  have hpaths' : (files'.map QueryFile.path).Nodup := (hperm.map _).nodup_iff.1 hpaths
  -- a query of either batch is that of an operation, which the other batch has compiled as well
  refine ⟨outcome', hrun', hsuccess', fun path => ?_⟩
  cases hq : outcome.queries.find? path with
  | some q =>
    obtain ⟨index, op, closure, hcompiles, rfl, rfl⟩ := exists_compiles_of_find? hgather hrun hq
    obtain ⟨op', hop', hfile, hdefinition⟩ := hreordered.exists_operation hcompiles.mem_operations
    obtain ⟨index', closure', hcompiles', hq'⟩ := exists_query hpaths' hrun' hsuccess' hgather' hop'
    rw [hfile] at hq'
    rw [hq']
    exact .some (reordered_queryOf hperm hreordered hgather hgather' hcompiles hcompiles' hfile hdefinition)
  | none =>
    cases hq' : outcome'.queries.find? path with
    | none => exact .none
    | some q' =>
      obtain ⟨index', op', closure', hcompiles', rfl, rfl⟩ := exists_compiles_of_find? hgather' hrun' hq'
      obtain ⟨op, hop, hfile, -⟩ := hreordered.symm.exists_operation hcompiles'.mem_operations
      obtain ⟨_, _, -, hkept⟩ := exists_query hpaths hrun hsuccess hgather hop
      rw [hfile, hq] at hkept
      cases hkept

end Files

/-! ## A fragment in two files -/

/-- An operation and a fragment, and another file with the same fragment and one more. -/
def sharingFiles : List QueryFile :=
  [sampleFile "a.js" "query A \x7b ...F ...G \x7d fragment F on Query \x7b a \x7d",
    sampleFile "b.js" "fragment G on Query \x7b b \x7b a \x7d \x7d fragment F on Query \x7b a \x7d"]

theorem sharingFiles_isClean : ∀ file ∈ sharingFiles, file.document.IsClean := by
  unfold sharingFiles
  refine List.forall_mem_cons.2 ⟨sampleFile_isClean _ ?_, List.forall_mem_singleton.2 (sampleFile_isClean _ ?_)⟩
  · decide +kernel
  · decide +kernel

/-- The first words of the text of a query. -/
def opening (outcome : BatchOutcome) (path : String) : Option String :=
  (outcome.queries.find? path).map fun q => String.ofList (q.text.toList.take 10)

/-- In the two orders, the texts of one query begin with different fragments. -/
theorem success_of_perm_sample : ∃ outcome outcome' q q',
    (compile {} sampleSchema sharingFiles).result = .ok outcome ∧ outcome.isSuccess = true ∧
    (compile {} sampleSchema sharingFiles.reverse).result = .ok outcome' ∧ outcome'.isSuccess = true ∧
    outcome.queries.find? "a.js" = some q ∧ outcome'.queries.find? "a.js" = some q' ∧
    q.Reordered sharingFiles q' ∧ q.text ≠ q'.text := by
  obtain ⟨outcome, hrun, hstatus, hlength, hopening⟩ := @exists_completeOutcome sampleSchema sharingFiles
    (fun outcome => outcome.diagnostics.length = 0 ∧ opening outcome "a.js" = some "fragment F") _ (by decide +kernel)
  obtain ⟨outcome', hrun', -, hopening'⟩ := @exists_completeOutcome sampleSchema sharingFiles.reverse
    (fun outcome => opening outcome "a.js" = some "fragment G") _ (by decide +kernel)
  have hsuccess := BatchOutcome.isSuccess_iff.2 ⟨hstatus, List.eq_nil_of_length_eq_zero hlength⟩
  obtain ⟨found, hfound, hsuccess', hqueries⟩ := success_of_perm sharingFiles_isClean (by decide +kernel)
    (List.reverse_perm sharingFiles).symm hrun hsuccess
  cases hrun'.symm.trans hfound
  obtain ⟨q, hq, htext⟩ := Option.map_eq_some_iff.1 hopening
  obtain ⟨q', hq', htext'⟩ := Option.map_eq_some_iff.1 hopening'
  have hsame := hqueries "a.js"
  rw [hq, hq', Option.rel_some_some] at hsame
  refine ⟨outcome, outcome', q, q', hrun, hsuccess, hrun', hsuccess', hq, hq', hsame, fun he => ?_⟩
  rw [he, htext'] at htext
  exact absurd htext (by decide)

end Batch

end QueryBatch
