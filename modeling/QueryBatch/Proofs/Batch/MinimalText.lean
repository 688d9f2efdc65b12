import QueryBatch.Proofs.Batch.Compiled
import QueryBatch.Proofs.Batch.Gathered
import QueryBatch.Proofs.Document.Closed
import QueryBatch.Proofs.Registry

/-!
# The texts of compiled operations

* `Registry.IsNeeded`: the canonical fragments that a selection set reaches, in order of registration.
* `Document.ofNeeded`: these fragments and an operation. `text_ofNeeded`: this is what the text of a compiled operation
  shows. `isClosed_ofNeeded`: nothing is missing in it.
* `Batch.compiled_text_minimal`: the text of a compiled operation is read as this document, up to spans.
-/

namespace QueryBatch

/-! ## What an operation needs -/

/-- The canonical fragments that a selection set reaches, each name once and in order of registration. -/
structure Registry.IsNeeded (r : Registry) (body : SelectionSet) (needed : List RegisteredFragment) : Prop where
  sublist : needed.Sublist r.fragments
  names : (needed.map RegisteredFragment.name).Sublist r.names
  nodup : (needed.map RegisteredFragment.name).Nodup
  mem_iff : ∀ f, f ∈ needed ↔ r.fragment? f.name = some f ∧ Reaches r.bodyOf body f.name

/-- The canonical fragments of a closure. -/
def Registry.neededBy (r : Registry) (closure : Closure) : List RegisteredFragment :=
  r.canonical.filter fun f => f.name ∈ closure.fragments

/-- A document of fragments, and of an operation at its end. -/
def Document.ofNeeded (needed : List RegisteredFragment) (op : Operation) : Document :=
  ⟨needed.map (fun f => .fragment f.definition) ++ [.operation op]⟩

section Needed

variable {r : Registry} {closure : Closure} {source : Nat} {body : SelectionSet} {needed : List RegisteredFragment}
  {op : Operation}

theorem Registry.mem_neededBy {f : RegisteredFragment} :
    f ∈ r.neededBy closure ↔ r.fragment? f.name = some f ∧ f.name ∈ closure.fragments := by
  unfold neededBy
  rw [List.mem_filter, mem_canonical, decide_eq_true_eq]

theorem Registry.neededBy_sublist : (r.neededBy closure).Sublist r.canonical := List.filter_sublist

theorem Registry.isNeeded_neededBy (h : closure.IsClosureOf r source body) : r.IsNeeded body (r.neededBy closure) := by
  have hnames : ((r.neededBy closure).map RegisteredFragment.name).Sublist r.names := by
    rw [← names_canonical]
    exact neededBy_sublist.map _
  constructor
  · exact neededBy_sublist.trans r.canonical_sublist
  · exact hnames
  · exact r.nodup_canonical.sublist (neededBy_sublist.map _)
  · intro f
    rw [mem_neededBy, h.mem_fragments]

/-- What a part spreads is needed, if it is the name of a fragment. -/
theorem Registry.IsNeeded.exists_mem (h : r.IsNeeded body needed) {part : Nat × SelectionSet}
    (hpart : r.Part (source, body) part) {s : Spread} (hs : s ∈ part.2.spreads)
    (hfound : r.fragment? s.name.text ≠ none) : ∃ f ∈ needed, f.name = s.name.text := by
  obtain ⟨f, hf⟩ := Option.ne_none_iff_exists'.1 hfound
  have hname := Registry.name_of_fragment? hf
  refine ⟨f, (h.mem_iff f).2 ⟨?_, ?_⟩, hname⟩
  · rw [hname]
    exact hf
  · rw [hname]
    exact hpart.reaches hs hf

namespace Document

theorem text_ofNeeded (r : Registry) (closure : Closure) (op : Operation) :
    (ofNeeded (r.neededBy closure) op).text = minimalDocument r closure op := by
  unfold Document.text ofNeeded minimalDocument
  rw [List.map_append, List.map_map]
  rfl

theorem fragments_ofNeeded (needed : List RegisteredFragment) (op : Operation) :
    (ofNeeded needed op).fragments = needed.map RegisteredFragment.definition := by
  unfold fragments ofNeeded
  rw [List.filterMap_append, List.filterMap_map]
  exact (List.append_nil _).trans (congrFun (List.filterMap_eq_map (f := RegisteredFragment.definition)) needed)

theorem operations_ofNeeded (needed : List RegisteredFragment) (op : Operation) :
    (ofNeeded needed op).operations = [op] := by
  unfold operations ofNeeded
  rw [List.filterMap_append, List.filterMap_map]
  have hnone : needed.filterMap (Definition.operation? ∘ fun f => .fragment f.definition) = [] :=
    List.filterMap_eq_nil_iff.2 fun _ _ => rfl
  rw [hnone]
  rfl

/-- In the document of an operation, a name that the operation reaches stands for the fragment of the registry. -/
theorem bodyOf_ofNeeded (h : r.IsNeeded op.body needed) {name : String} (hr : Reaches r.bodyOf op.body name) :
    (ofNeeded needed op).bodyOf name = r.bodyOf name := by
  obtain ⟨inner, hinner⟩ := hr.exists_body
  obtain ⟨f, hf, rfl⟩ := Registry.exists_of_bodyOf hinner
  have hname := Registry.name_of_fragment? hf
  have hmem : f ∈ needed := (h.mem_iff f).2 ⟨by rw [hname]; exact hf, by rw [hname]; exact hr⟩
  rw [hinner, bodyOf, fragments_ofNeeded, List.find?_map, Option.map_map]
  -- the first of the name is a fragment that its name stands for, and this is `f`
  cases hfound : needed.find? ((fun f : Fragment => f.name.text == name) ∘ RegisteredFragment.definition) with
  | none => exact absurd (beq_iff_eq.2 hname) (List.find?_eq_none.1 hfound f hmem)
  | some g =>
    have hkey : g.definition.name.text = name := by simpa using List.find?_some hfound
    have hgname : g.name = name := hkey
    have hg := ((h.mem_iff g).1 (List.mem_of_find?_eq_some hfound)).1
    rw [hgname, hf] at hg
    cases hg
    rfl

/-- The document of an operation is closed if no fragment that it needs is missing. -/
theorem isClosed_ofNeeded (h : r.IsNeeded op.body needed)
    (hparts : ∀ part, r.Part (source, op.body) part → ∀ s ∈ part.2.spreads, r.fragment? s.name.text ≠ none) :
    (ofNeeded needed op).IsClosed op := by
  constructor
  · exact operations_ofNeeded needed op
  · intro x hx name hname
    have hpart : ∃ source', r.Part (source, op.body) (source', x.body) := by
      rcases List.mem_append.1 hx with hx | hx
      · obtain ⟨f, hf, rfl⟩ := List.mem_map.1 hx
        obtain ⟨hfound, hreach⟩ := (h.mem_iff f).1 hf
        exact ⟨f.source, .fragment hreach hfound⟩
      · cases List.mem_singleton.1 hx
        exact ⟨source, .start⟩
    obtain ⟨source', hpart⟩ := hpart
    obtain ⟨s, hs, rfl⟩ := SelectionSet.mem_spreadNames.1 hname
    obtain ⟨g, hg, hgname⟩ := h.exists_mem hpart hs (hparts _ hpart s hs)
    refine ⟨g.definition, ?_, hgname⟩
    rw [fragments_ofNeeded]
    exact List.mem_map_of_mem hg
  · intro f hf
    rw [fragments_ofNeeded] at hf
    obtain ⟨g, hg, rfl⟩ := List.mem_map.1 hf
    have hreach := ((h.mem_iff g).1 hg).2
    refine hreach.transport (List.Subset.refl _) fun known body hk hb => ?_
    exact ⟨body, (bodyOf_ofNeeded h hk).trans hb, List.Subset.refl _⟩

theorem wellFormed_ofNeeded (hr : r.WellFormed) (h : ∀ f ∈ needed, f ∈ r.fragments) (ho : op.WellFormed) :
    (ofNeeded needed op).WellFormed := by
  refine ⟨List.append_ne_nil_of_right_ne_nil _ (List.cons_ne_nil _ _), fun x hx => ?_⟩
  rcases List.mem_append.1 hx with hx | hx
  · obtain ⟨f, hf, rfl⟩ := List.mem_map.1 hx
    exact .fragment (hr.fragments f (h f hf))
  · cases List.mem_singleton.1 hx
    exact .operation ho

end Document

end Needed

/-! ## Batches of clean documents -/

/-- A document that some text is read as without a diagnostic. -/
def Document.IsClean (d : Document) : Prop := ∃ text limits n, Document.read text limits = .ok ⟨d, [], n⟩

theorem Document.exists_read_of_ofText {text : String} {limits : Parse.Limits} {d : Document}
    (h : Document.ofText text limits = .ok d) : ∃ n, Document.read text limits = .ok ⟨d, [], n⟩ := by
  unfold Document.ofText at h
  split at h
  · rename_i parsed hread
    split at h
    · rename_i hempty
      cases h
      obtain ⟨d, diagnostics, n⟩ := parsed
      obtain rfl := List.isEmpty_iff.1 hempty
      exact ⟨n, hread⟩
    · cases h
  · cases h

theorem Document.isClean_of_ofText {text : String} {limits : Parse.Limits} {d : Document}
    (h : Document.ofText text limits = .ok d) : d.IsClean := by
  obtain ⟨n, hread⟩ := Document.exists_read_of_ofText h
  exact ⟨text, limits, n, hread⟩

namespace Batch

/-- What is gathered from clean documents is well-formed. -/
theorem wellFormed_gather {schema : Schema} {files : List QueryFile} {source : Nat} {r : Registry}
    (hclean : ∀ file ∈ files, file.document.IsClean) (h : gather schema source {} files = .ok r) : r.WellFormed := by
  have hall : r.All fun _ x => x.WellFormed := by
    refine all_gather (fun _ file hfile _ x hx => ?_) (Registry.all_empty _) h
    obtain ⟨text, limits, n, hread⟩ := hclean file hfile
    exact (Document.wellFormed_of_read hread).definitions x hx
  refine ⟨fun f hf => ?_, fun op hop => ?_⟩
  · cases hall.fragments f hf with
    | fragment hfrag => exact hfrag
  · cases hall.operations op hop with
    | operation ho => exact ho

/-- Every query of a batch is that of a compiled operation. -/
theorem exists_compiles_of_find? {settings : Settings} {schema : Schema} {files : List QueryFile} {r : Registry}
    (hgather : gather schema 0 {} files = .ok r) {outcome : BatchOutcome}
    (h : (compile settings schema files).result = .ok outcome) {path : String} {q : CompiledQuery}
    (hq : outcome.queries.find? path = some q) :
    ∃ index op closure, (Plan.of settings schema r).Compiles index op closure ∧ op.file.path = path ∧
      (Plan.of settings schema r).queryOf op closure = q := by
  have hsound := sound_run (Plan.of settings schema r)
  have hrun : (compile settings schema files).result =
      (compileRegistry settings schema (QueryFile.sources files) r).result := by
    unfold compile
    rw [hgather]
  rw [hrun, compileRegistry] at h
  dsimp only at h
  split at h
  · cases h
  · rename_i p hp
    cases h
    have hp' : compileOperations (Plan.of settings schema r) 0 {} (Plan.of settings schema r).registry.operations =
        (p, none) := hp
    rw [hp'] at hsound
    exact hsound.queries path q hq

/-- The text of a compiled operation is read as the fragments that the operation needs, and the operation. -/
theorem Plan.Compiles.exists_read {plan : Plan} {index : Nat} {op : RegisteredOperation} {closure : Closure}
    (h : plan.Compiles index op closure) (hr : plan.registry.WellFormed) :
    ∃ d op', Document.read (plan.queryOf op closure).text ⟨none, none⟩ = .ok ⟨d, [], 0⟩ ∧
      d.unspanned = (Document.ofNeeded (plan.registry.neededBy closure) op.definition).unspanned ∧
      d.IsClosed op' ∧ op'.unspanned = op.definition.unspanned := by
  have hneeded := Registry.isNeeded_neededBy h.isClosureOf
  have hwf : (Document.ofNeeded (plan.registry.neededBy closure) op.definition).WellFormed :=
    Document.wellFormed_ofNeeded hr (fun f hf => hneeded.sublist.subset hf) (hr.operations op h.mem_operations)
  obtain ⟨d, hread, hd⟩ := hwf.read_text
  rw [Document.text_ofNeeded] at hread
  have hparts : ∀ part, plan.registry.Part (op.source, op.definition.body) part → ∀ s ∈ part.2.spreads,
      plan.registry.fragment? s.name.text ≠ none := fun part hp s hs => h.fragment?_ne_none hp hs
  obtain ⟨op', hclosed, hop'⟩ := (Document.isClosed_ofNeeded hneeded hparts).of_unspanned hd
  exact ⟨d, op', hread, hd, hclosed, hop'⟩

/-- The text of a compiled operation is read without limits and diagnostics as the canonical fragments that the
operation reaches, in order of registration, and the operation, up to spans. So every spread in it names a fragment of
the text, and the operation reaches every fragment of the text. These operations are the ones that the run has
compiled, and the queries of its outcome are theirs. -/
theorem compiled_text_minimal {settings : Settings} {schema : Schema} {files : List QueryFile} {registry : Registry}
    (hclean : ∀ file ∈ files, file.document.IsClean) (hgather : gather schema 0 {} files = .ok registry) :
    (∀ index op closure, (Plan.of settings schema registry).Compiles index op closure →
      ∃ needed d op', registry.IsNeeded op.definition.body needed ∧
        Document.read ((Plan.of settings schema registry).queryOf op closure).text ⟨none, none⟩ = .ok ⟨d, [], 0⟩ ∧
        d.unspanned = (Document.ofNeeded needed op.definition).unspanned ∧
        d.IsClosed op' ∧ op'.unspanned = op.definition.unspanned) ∧
    (∀ op, op ∈ (compileOperations (Plan.of settings schema registry) 0 {} registry.operations).1.compiled ↔
      ∃ index closure, (Plan.of settings schema registry).Compiles index op closure) ∧
    ∀ outcome path q, (compile settings schema files).result = .ok outcome → outcome.queries.find? path = some q →
      ∃ index op closure, (Plan.of settings schema registry).Compiles index op closure ∧ op.file.path = path ∧
        (Plan.of settings schema registry).queryOf op closure = q := by
  have hr : registry.WellFormed := wellFormed_gather hclean hgather
  refine ⟨fun index op closure h => ?_, fun op => mem_compiled_iff, fun outcome path q h hq =>
    exists_compiles_of_find? hgather h hq⟩
  obtain ⟨d, op', hread, hd, hclosed, hop'⟩ := h.exists_read hr
  exact ⟨_, d, op', Registry.isNeeded_neededBy h.isClosureOf, hread, hd, hclosed, hop'⟩

theorem sampleFile_isClean (path : String) {text : String} (h : (Document.ofText text).isOk = true) :
    (sampleFile path text).document.IsClean := by
  unfold sampleFile
  cases hd : Document.ofText text with
  | error fault =>
    rw [hd] at h
    cases h
  | ok d => exact Document.isClean_of_ofText hd

theorem sampleFiles_isClean : ∀ file ∈ sampleFiles, file.document.IsClean := by
  unfold sampleFiles
  refine List.forall_mem_cons.2 ⟨sampleFile_isClean _ ?_, List.forall_mem_singleton.2 (sampleFile_isClean _ ?_)⟩
  · decide +kernel
  · decide +kernel

theorem compiled_text_minimal_sample : ∃ registry index op closure,
    gather sampleSchema 0 {} sampleFiles = .ok registry ∧
    (Plan.of {} sampleSchema registry).Compiles index op closure ∧ op.definition.displayName = "Q" ∧
    ∃ needed d op', registry.IsNeeded op.definition.body needed ∧
      Document.read ((Plan.of {} sampleSchema registry).queryOf op closure).text ⟨none, none⟩ = .ok ⟨d, [], 0⟩ ∧
      d.unspanned = (Document.ofNeeded needed op.definition).unspanned ∧
      d.IsClosed op' ∧ op'.unspanned = op.definition.unspanned := by
  obtain ⟨registry, index, op, closure, hgather, hcompiles, hname⟩ := sample_compiles
  have htext := (@compiled_text_minimal {} _ _ _ sampleFiles_isClean hgather).1 index op closure hcompiles
  exact ⟨registry, index, op, closure, hgather, hcompiles, hname, htext⟩

end Batch

end QueryBatch
