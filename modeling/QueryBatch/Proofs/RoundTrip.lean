import QueryBatch.Proofs.Parse.Reads
import QueryBatch.Proofs.Parse.Yields
import QueryBatch.Registry

/-!
# Printing and reading

* `Document.round_trip`: a document that is read without diagnostics is printed as a text that is read as the same
  document, up to spans. So the text of a fragment, by which the registry tells fragments of one name apart, is as good
  as the fragment.
* `Fragment.text_eq_iff`: two well-formed fragments have one text exactly if they are equal up to spans.
-/

namespace QueryBatch

section Fragments

variable {f g : Fragment}

theorem Document.wellFormed_singleton (h : f.WellFormed) : Document.WellFormed ⟨[.fragment f]⟩ :=
  ⟨List.cons_ne_nil _ _, fun _ hx => List.mem_singleton.1 hx ▸ .fragment h⟩

/-- Well-formed fragments of one text are equal up to spans: both are what their text is read as. -/
theorem Fragment.unspanned_eq_of_text (hf : f.WellFormed) (hg : g.WellFormed) (h : f.text = g.text) :
    f.unspanned = g.unspanned := by
  obtain ⟨d, hd, hdf⟩ := (Document.wellFormed_singleton hf).read_text
  obtain ⟨d', hd', hdg⟩ := (Document.wellFormed_singleton hg).read_text
  have htext : Document.text ⟨[.fragment f]⟩ = Document.text ⟨[.fragment g]⟩ := by
    simp only [Document.text, List.map_cons, List.map_nil, String.intercalate_singleton, Definition.text, h]
  rw [htext, hd'] at hd
  cases hd
  have := hdf.symm.trans hdg
  simpa [Document.unspanned, Definition.unspanned] using this

theorem Fragment.text_eq_iff (hf : f.WellFormed) (hg : g.WellFormed) : f.text = g.text ↔ f.unspanned = g.unspanned :=
  ⟨Fragment.unspanned_eq_of_text hf hg, Fragment.text_eq_of_unspanned⟩

/-- The registry drops a fragment exactly if the one that its name stands for has the same text. -/
theorem Registry.mergeFragment_eq_iff {r : Registry} {i j : Nat} (h : r.fragment? g.name.text = some ⟨i, f⟩) :
    (r.mergeFragment j g).fragments = r.fragments ↔ f.text = g.text := by
  have hknown : ((r.fragment? (RegisteredFragment.name ⟨j, g⟩)).any fun known =>
      known.text == RegisteredFragment.text ⟨j, g⟩) = (f.text == g.text) := by
    rw [show r.fragment? (RegisteredFragment.name ⟨j, g⟩) = _ from h]
    rfl
  unfold mergeFragment
  by_cases he : f.text = g.text
  · rw [if_pos (hknown.trans (beq_iff_eq.2 he))]
    exact iff_of_true rfl he
  · rw [if_neg fun ht => he (beq_iff_eq.1 (hknown.symm.trans ht))]
    exact iff_of_false (by simp) he

theorem Document.WellFormed.fragment {d : Document} (h : d.WellFormed) (hf : f ∈ d.fragments) : f.WellFormed := by
  obtain ⟨x, hx, hxf⟩ := List.mem_filterMap.1 hf
  cases h.definitions x hx with
  | operation _ => cases hxf
  | fragment hw =>
    cases hxf
    exact hw

end Fragments

/-- A document that is read without diagnostics is printed as a text that is read without limits and diagnostics as the
same document, up to spans. Fragments of such documents have one text exactly if they are equal up to spans, and this
is when the registry takes the second of two fragments of one name for the first. -/
theorem Document.round_trip {text : String} {limits : Parse.Limits} {d : Document} {n : Nat}
    (h : Document.read text limits = .ok ⟨d, [], n⟩) :
    (∃ d', Document.read d.text ⟨none, none⟩ = .ok ⟨d', [], 0⟩ ∧ d'.unspanned = d.unspanned) ∧
    ∀ {text' : String} {limits' : Parse.Limits} {d' : Document} {n' : Nat},
      Document.read text' limits' = .ok ⟨d', [], n'⟩ → ∀ f ∈ d.fragments, ∀ g ∈ d'.fragments,
        (f.text = g.text ↔ f.unspanned = g.unspanned) ∧
        ∀ (r : Registry) (i j : Nat), r.fragment? g.name.text = some ⟨i, f⟩ →
          ((r.mergeFragment j g).fragments = r.fragments ↔ f.unspanned = g.unspanned) := by
  have hd := Document.wellFormed_of_read h
  refine ⟨hd.read_text, fun h' f hf g hg => ?_⟩
  have hiff := Fragment.text_eq_iff (hd.fragment hf) ((Document.wellFormed_of_read h').fragment hg)
  exact ⟨hiff, fun r i j hr => (Registry.mergeFragment_eq_iff hr).trans hiff⟩

/-- A text with a default value, a block string, an alias, a directive, an inline fragment and two fragments. -/
def roundTripSample : String :=
  "query A($a: [Int!]! = [1, -2.5e3]) \x7b b: f(x: $a, s: \"\"\"q\n  r\"\"\") @c ... on T \x7b g \x7d ...F \x7d " ++
    "fragment F on T \x7b h \x7d fragment G on T \x7b h ...F \x7d"

theorem Document.round_trip_sample : ∃ d n, Document.read roundTripSample {} = .ok ⟨d, [], n⟩ ∧
    (∃ d', Document.read d.text ⟨none, none⟩ = .ok ⟨d', [], 0⟩ ∧ d'.unspanned = d.unspanned) ∧
    ∀ f ∈ d.fragments, ∀ g ∈ d.fragments, (f.text = g.text ↔ f.unspanned = g.unspanned) := by
  have hclean : (Document.read roundTripSample {}).toOption.any (fun p => p.diagnostics.isEmpty) = true := by
    decide +kernel
  cases hp : Document.read roundTripSample {} with
  | error stop =>
    rw [hp] at hclean
    cases hclean
  | ok p =>
    rw [hp] at hclean
    obtain ⟨d, diagnostics, n⟩ := p
    obtain rfl := List.isEmpty_iff.1 hclean
    obtain ⟨hread, htexts⟩ := Document.round_trip hp
    exact ⟨d, n, rfl, hread, fun f hf g hg => (htexts hp f hf g hg).1⟩

end QueryBatch
