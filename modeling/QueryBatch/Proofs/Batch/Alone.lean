import QueryBatch.Proofs.Batch.Gathered
import QueryBatch.Proofs.Batch.Validation

/-!
# Documents compiled alone

* `Registry.merge_alone`: what a registry has of one file whose fragments have different names.
* `Document.IsClosed.neededBy_eq`: the operation of a closed document needs all its fragments.
* `Batch.compile_alone`: a batch of one closed document that passes all rules is compiled to the text of the document.
-/

namespace QueryBatch

open Rules

/-! ## Merging one file -/

namespace Registry

variable {source : Nat} {file : QueryFile}

/-- A file with new fragments is taken as a whole. -/
theorem foldl_mergeDefinition (definitions : List Definition) {r : Registry}
    (hnew : ∀ frag ∈ definitions.filterMap Definition.fragment?, r.fragment? frag.name.text = none)
    (hnodup : ((definitions.filterMap Definition.fragment?).map fun frag => frag.name.text).Nodup) :
    (definitions.foldl (mergeDefinition source file) r).fragments =
        r.fragments ++ (definitions.filterMap Definition.fragment?).map (RegisteredFragment.mk source) ∧
      (definitions.foldl (mergeDefinition source file) r).operations =
        r.operations ++ (definitions.filterMap Definition.operation?).map (RegisteredOperation.mk source file) := by
  induction definitions generalizing r with
  | nil => exact ⟨(List.append_nil _).symm, (List.append_nil _).symm⟩
  | cons x rest ih =>
    rw [List.foldl_cons]
    cases x with
    | operation op =>
      obtain ⟨hfragments, hoperations⟩ := @ih (r.mergeOperation source file op) hnew hnodup
      refine ⟨hfragments, hoperations.trans ?_⟩
      exact List.append_assoc r.operations [_] _
    | fragment frag =>
      have hfresh : r.fragment? frag.name.text = none := hnew frag List.mem_cons_self
      obtain ⟨hfirst, hrest⟩ := List.nodup_cons.1 hnodup
      have hmerge : r.mergeFragment source frag = r.keep ⟨source, frag⟩ := by
        unfold mergeFragment
        rw [if_neg]
        show ¬ (r.fragment? frag.name.text).any _ = true
        rw [hfresh]
        exact Bool.false_ne_true
      have hnew' : ∀ other ∈ rest.filterMap Definition.fragment?,
          (r.mergeFragment source frag).fragment? other.name.text = none := by
        intro other hother
        rw [fragment?_mergeFragment, hnew other (List.mem_cons_of_mem _ hother), Option.none_or, if_neg]
        rintro (hsame : frag.name.text = other.name.text)
        exact hfirst (List.mem_map.2 ⟨other, hother, hsame.symm⟩)
      obtain ⟨hfragments, hoperations⟩ := ih hnew' hrest
      refine ⟨hfragments.trans ?_, hoperations.trans ?_⟩
      · rw [hmerge]
        exact List.append_assoc r.fragments [_] _
      · rw [hmerge]
        rfl

/-- What a registry has of one file whose fragments have different names. -/
theorem merge_alone (hnodup : (file.document.fragments.map fun frag => frag.name.text).Nodup) :
    (({} : Registry).merge source file).fragments = file.document.fragments.map (RegisteredFragment.mk source) ∧
      (({} : Registry).merge source file).operations =
        file.document.operations.map (RegisteredOperation.mk source file) :=
  foldl_mergeDefinition file.document.definitions (fun _ _ => rfl) hnodup

end Registry

/-! ## Closed documents -/

section Closed

variable {r : Registry} {d : Document} {op : Operation} {source : Nat}

theorem Registry.fragment?_of_document (hr : r.fragments = d.fragments.map (RegisteredFragment.mk source))
    (name : String) :
    r.fragment? name = (d.fragments.find? fun f => f.name.text == name).map (RegisteredFragment.mk source) := by
  rw [Registry.fragment?_eq, hr, List.find?_map]
  rfl

theorem Registry.bodyOf_of_document (hr : r.fragments = d.fragments.map (RegisteredFragment.mk source)) :
    r.bodyOf = d.bodyOf := by
  funext name
  unfold Registry.bodyOf Document.bodyOf
  rw [Registry.fragment?_of_document hr, Option.map_map]
  rfl

/-- Every selection set that the operation of a document reaches is one of a definition of the document. -/
theorem Registry.Part.exists_definition (hr : r.fragments = d.fragments.map (RegisteredFragment.mk source))
    (hop : op ∈ d.operations) {part : Nat × SelectionSet} (hpart : r.Part (source, op.body) part) :
    ∃ x ∈ d.definitions, x.body = part.2 := by
  cases hpart with
  | start =>
    obtain ⟨x, hx, hxop⟩ := List.mem_filterMap.1 hop
    exact ⟨x, hx, Definition.body_of_operation? hxop⟩
  | fragment hreach hfound =>
    have hmem := Registry.mem_of_fragment? hfound
    rw [hr] at hmem
    obtain ⟨frag, hfrag, rfl⟩ := List.mem_map.1 hmem
    obtain ⟨x, hx, hxfrag⟩ := List.mem_filterMap.1 hfrag
    exact ⟨x, hx, Definition.body_of_fragment? hxfrag⟩

/-- Nothing is missing in a closed document. -/
theorem Document.IsClosed.missing_eq_nil (hd : d.IsClosed op)
    (hr : r.fragments = d.fragments.map (RegisteredFragment.mk source)) {closure : Closure}
    (hclosure : closure.IsClosureOf r source op.body) : closure.missing.toList = [] := by
  refine List.eq_nil_iff_forall_not_mem.2 fun m hm => ?_
  obtain ⟨part, hpart, s, hs, hnone, -⟩ := (hclosure.mem_missing m).1 hm
  obtain ⟨x, hx, hbody⟩ := hpart.exists_definition hr (by rw [hd.operations]; exact List.mem_singleton_self op)
  obtain ⟨f, hf, hname⟩ := hd.spreads x hx s.name.text (SelectionSet.mem_spreadNames.2 ⟨s, hbody ▸ hs, rfl⟩)
  rw [Registry.fragment?_of_document hr, Option.map_eq_none_iff] at hnone
  exact List.find?_eq_none.1 hnone f hf (beq_iff_eq.2 hname)

/-- The operation of a closed document needs all fragments of the document. -/
theorem Document.IsClosed.neededBy_eq (hd : d.IsClosed op)
    (hr : r.fragments = d.fragments.map (RegisteredFragment.mk source))
    (hnodup : (d.fragments.map fun frag => frag.name.text).Nodup) {closure : Closure}
    (hclosure : closure.IsClosureOf r source op.body) : r.neededBy closure = r.fragments := by
  have hneeded := Registry.isNeeded_neededBy hclosure
  have hdistinct : (r.fragments.map RegisteredFragment.name).Nodup := by
    rw [hr, List.map_map]
    exact hnodup
  refine hneeded.sublist.eq_of_length_le ?_
  refine (List.subperm_of_subset (List.Nodup.of_map _ hdistinct) fun f hf => ?_).length_le
  obtain ⟨frag, hfrag, rfl⟩ := List.mem_map.1 (hr ▸ hf)
  have hreach := hd.reached frag hfrag
  rw [← Registry.bodyOf_of_document hr] at hreach
  refine (hneeded.mem_iff _).2 ⟨?_, hreach⟩
  obtain ⟨g, hg⟩ : ∃ g, r.fragment? frag.name.text = some g := by
    rw [Registry.fragment?_eq]
    exact Option.isSome_iff_exists.1 (List.find?_isSome.2 ⟨_, hf, beq_self_eq_true _⟩)
  have hsame : g = ⟨source, frag⟩ :=
    List.inj_on_of_nodup_map hdistinct (Registry.mem_of_fragment? hg) hf (Registry.name_of_fragment? hg)
  exact hg.trans (congrArg some hsame)

end Closed

/-! ## One document -/

namespace Batch

variable {settings : Settings} {schema : Schema} {file : QueryFile} {op : Operation}

/-- The operation of a registry that has nothing else to compile is compiled, if nothing stands against it. -/
theorem exists_compileOperation {plan : Plan} {op : RegisteredOperation} {closure : Closure}
    (hclosure : (({} : Progress).cache.resolve plan.registry op.source op.definition.body).1 = closure)
    (hrejected : plan.validation.rejected.toList = []) (htainted : plan.validation.tainted.toList = [])
    (hmissing : closure.missing.toList = []) (hhook : refusesHook plan.settings op.file = false) :
    ∃ p, compileOperation plan {} 0 op = .ok p ∧ p.diagnostics = [] ∧
      p.queries = OrderedMap.empty.insert op.file.path (plan.queryOf op closure) := by
  have hpasses : (0 : Nat) ∉ plan.validation.rejected := by
    rw [OrderedSet.mem_iff, hrejected]
    exact List.not_mem_nil
  have hclean : ∀ name, name ∉ plan.validation.tainted := fun name => by
    rw [OrderedSet.mem_iff, htainted]
    exact List.not_mem_nil
  unfold compileOperation
  rw [if_neg hpasses]
  generalize ({} : Progress).cache.resolve plan.registry op.source op.definition.body = result at hclosure
  obtain ⟨found, cache⟩ := result
  cases hclosure
  have hverdict : verdict plan.validation.tainted [] op found = .compiled :=
    verdict_eq_compiled_iff.2 ⟨hmissing, fun name _ => hclean name, nofun⟩
  dsimp only
  rw [hverdict]
  unfold Progress.settle
  dsimp only
  rw [hhook]
  exact ⟨_, rfl, rfl, rfl⟩

/-- A batch of one closed document that passes all rules is compiled to the text of the document. -/
theorem compile_alone (hclosed : file.document.IsClosed op)
    (hdefinitions : file.document.definitions = file.document.fragments.map .fragment ++ [.operation op])
    (hstructural : validateStructural schema 0 file.document = [])
    (hglobal : ∀ rule ∈ globalRules, rule (.ofDocument schema 0 file.document) = [])
    (hhook : refusesHook settings file = false) :
    (compile settings schema [file]).result = .ok
      { queries := OrderedMap.empty.insert file.path (.of settings.projectRoot file op file.document.text)
        diagnostics := []
        status := .complete } := by
  have hnodup : (file.document.fragments.map fun frag => frag.name.text).Nodup := by
    have hnames := uniqueFragmentNames_eq_nil_iff.1 (hglobal uniqueFragmentNames (by simp [globalRules]))
    unfold Context.ofDocument at hnames
    rw [Context.names_of, List.map_map] at hnames
    exact hnames
  obtain ⟨hfragments, hoperations⟩ := @Registry.merge_alone 0 _ hnodup
  generalize hregistry : ({} : Registry).merge 0 file = registry at hfragments hoperations
  have hgather : gather schema 0 {} [file] = .ok registry := by
    rw [gather, hstructural]
    dsimp only
    rw [hregistry]
    rfl
  have hvalidation : (Plan.of settings schema registry).validation.diagnostics = [] ∧
      (Plan.of settings schema registry).validation.rejected.toList = [] ∧
      (Plan.of settings schema registry).validation.tainted.toList = [] := by
    refine validateGlobal_of_nil ?_
    rw [hfragments, hoperations, List.map_map, List.map_map]
    exact hglobal
  have hclosure := (ClosureCache.resolve_spec (ClosureCache.holds_empty registry) 0 op.body).1
  obtain ⟨p, hstep, hdiagnostics, hqueries⟩ := @exists_compileOperation (Plan.of settings schema registry) ⟨0, file, op⟩
    _ rfl hvalidation.2.1 hvalidation.2.2 (hclosed.missing_eq_nil hfragments hclosure) hhook
  have hrun : compileOperations (Plan.of settings schema registry) 0 {} registry.operations = (p, none) := by
    rw [hoperations, hclosed.operations]
    show compileOperations _ 0 {} [⟨0, file, op⟩] = _
    exact compileOperations_cons_iff.2 ⟨p, hstep, rfl⟩
  have htext : (Plan.of settings schema registry).queryOf ⟨0, file, op⟩
      (({} : Progress).cache.resolve registry 0 op.body).1 = .of settings.projectRoot file op file.document.text := by
    have hwhole : Document.ofNeeded registry.fragments op = file.document := by
      unfold Document.ofNeeded
      rw [hfragments, List.map_map]
      exact congrArg Document.mk hdefinitions.symm
    unfold Plan.queryOf
    rw [← Document.text_ofNeeded]
    dsimp only
    rw [show (Plan.of settings schema registry).registry = registry from rfl,
      hclosed.neededBy_eq hfragments hnodup hclosure, hwhole]
    rfl
  have hcompile : compile settings schema [file] =
      compileRegistry settings schema (QueryFile.sources [file]) registry := by
    unfold compile
    rw [hgather]
  rw [hcompile]
  unfold compileRegistry
  dsimp only
  rw [show compileOperations ⟨settings, registry, _⟩ 0 {} registry.operations = (p, none) from hrun]
  dsimp only
  rw [show p.queries = OrderedMap.empty.insert file.path _ from hqueries.trans (congrArg _ htext), hdiagnostics,
    show (validateGlobal schema _ _).diagnostics = [] from hvalidation.1]
  rfl

end Batch

end QueryBatch
