import QueryBatch.Proofs.Document.Unspanned
import QueryBatch.Proofs.Reachability

/-!
# Closed documents

* `Document.IsClosed`: a document of one operation and the fragments it reaches, in which every spread names a fragment.
* `Document.IsClosed.of_unspanned`: this does not depend on spans.
-/

namespace QueryBatch

namespace Document

/-- The selection set of the fragment that a name stands for in a document. -/
def bodyOf (d : Document) (name : String) : Option SelectionSet :=
  (d.fragments.find? fun f => f.name.text == name).map Fragment.body

/-- A document has one operation, which reaches all its fragments, and every spread in it names one of them. -/
structure IsClosed (d : Document) (op : Operation) : Prop where
  operations : d.operations = [op]
  spreads : ∀ x ∈ d.definitions, ∀ name ∈ x.body.spreadNames, ∃ f ∈ d.fragments, f.name.text = name
  reached : ∀ f ∈ d.fragments, Reaches d.bodyOf op.body f.name.text

end Document

/-! ## Spans do not matter -/

theorem SelectionSet.spreadNames_unspanned (set : SelectionSet) : set.unspanned.spreadNames = set.spreadNames := by
  rw [spreadNames, spreads_unspanned, List.map_map]
  rfl

theorem SelectionSet.spreadNames_congr {a b : SelectionSet} (h : a.unspanned = b.unspanned) :
    a.spreadNames = b.spreadNames := by
  rw [← a.spreadNames_unspanned, h, b.spreadNames_unspanned]

theorem Definition.body_unspanned (x : Definition) : x.unspanned.body = x.body.unspanned := by
  cases x <;> rfl

namespace Document

variable {d e : Document}

theorem fragments_unspanned (d : Document) : d.unspanned.fragments = d.fragments.map Fragment.unspanned := by
  simp only [fragments, unspanned, List.filterMap_map, List.map_filterMap]
  congr 1
  funext x
  cases x <;> rfl

theorem operations_unspanned (d : Document) : d.unspanned.operations = d.operations.map Operation.unspanned := by
  simp only [operations, unspanned, List.filterMap_map, List.map_filterMap]
  congr 1
  funext x
  cases x <;> rfl

theorem bodyOf_unspanned (d : Document) (name : String) :
    d.unspanned.bodyOf name = (d.bodyOf name).map SelectionSet.unspanned := by
  have hkey : ((fun f : Fragment => f.name.text == name) ∘ Fragment.unspanned) = fun f => f.name.text == name := rfl
  rw [bodyOf, bodyOf, fragments_unspanned, List.find?_map, hkey, Option.map_map, Option.map_map]
  rfl

/-- Documents that are equal up to spans have the same fragment names. -/
theorem exists_fragment_of_unspanned (h : d.unspanned = e.unspanned) {f : Fragment} (hf : f ∈ d.fragments) :
    ∃ g ∈ e.fragments, g.name.text = f.name.text := by
  have hmem : f.unspanned ∈ e.fragments.map Fragment.unspanned := by
    rw [← fragments_unspanned, ← h, fragments_unspanned]
    exact List.mem_map_of_mem hf
  obtain ⟨g, hg, hgf⟩ := List.mem_map.1 hmem
  have hname : g.unspanned.name.text = f.unspanned.name.text := by rw [hgf]
  exact ⟨g, hg, hname⟩

theorem reaches_of_unspanned (h : d.unspanned = e.unspanned) {set set' : SelectionSet}
    (hset : set.unspanned = set'.unspanned) {name : String} (hr : Reaches d.bodyOf set name) :
    Reaches e.bodyOf set' name := by
  refine hr.transport (fun _ hn => SelectionSet.spreadNames_congr hset ▸ hn) fun known body _ hb => ?_
  have hsame : (e.bodyOf known).map SelectionSet.unspanned = some body.unspanned := by
    rw [← bodyOf_unspanned, ← h, bodyOf_unspanned, hb, Option.map_some]
  obtain ⟨body', hb', hu⟩ := Option.map_eq_some_iff.1 hsame
  exact ⟨body', hb', fun _ hn => SelectionSet.spreadNames_congr hu ▸ hn⟩

/-- A document that is equal to a closed one up to spans is closed. -/
theorem IsClosed.of_unspanned {op : Operation} (he : e.IsClosed op) (h : d.unspanned = e.unspanned) :
    ∃ op', d.IsClosed op' ∧ op'.unspanned = op.unspanned := by
  have hops : d.operations.map Operation.unspanned = [op.unspanned] := by
    rw [← operations_unspanned, h, operations_unspanned, he.operations]
    rfl
  obtain ⟨op', hop', hu⟩ := List.map_eq_singleton_iff.1 hops
  have hbody : op'.body.unspanned = op.body.unspanned := congrArg Operation.body hu
  refine ⟨op', ⟨hop', fun x hx name hn => ?_, fun f hf => ?_⟩, hu⟩
  · have hmem : x.unspanned ∈ e.definitions.map Definition.unspanned := by
      have hdefs : d.definitions.map Definition.unspanned = e.definitions.map Definition.unspanned :=
        congrArg Document.definitions h
      rw [← hdefs]
      exact List.mem_map_of_mem hx
    obtain ⟨y, hy, hyx⟩ := List.mem_map.1 hmem
    have hnames : y.body.spreadNames = x.body.spreadNames := by
      refine SelectionSet.spreadNames_congr ?_
      rw [← y.body_unspanned, hyx, x.body_unspanned]
    obtain ⟨g, hg, hname⟩ := he.spreads y hy name (hnames ▸ hn)
    obtain ⟨f, hf, hfg⟩ := exists_fragment_of_unspanned h.symm hg
    exact ⟨f, hf, hfg.trans hname⟩
  · obtain ⟨g, hg, hname⟩ := exists_fragment_of_unspanned h hf
    rw [← hname]
    exact reaches_of_unspanned h.symm hbody.symm (he.reached g hg)

end Document

end QueryBatch
