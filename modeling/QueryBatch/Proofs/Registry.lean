import Mathlib.Data.List.Basic
import Mathlib.Data.List.Induction
import QueryBatch.Proofs.RoundTrip

/-!
# Canonical fragments

* `Registry.names_eq`, `Registry.canonical_eq`: what the index of a registry lists.
* `Registry.mem_canonical`: the canonical fragments are those that their names stand for.
* `Registry.names_canonical`: each name has one of them.
* `Registry.canonical_sublist`: they stand in order of registration.
* `Registry.WellFormed`: a registry of well-formed definitions.
-/

namespace QueryBatch

/-! ## First members -/

/-- The values of a map in order are what its names in order have. -/
theorem OrderedMap.filterMap_values {β γ : Type} (m : OrderedMap β) (f : β → Option γ) :
    m.values.filterMap f = m.keys.filterMap fun name => (m.find? name).bind f := by
  rw [values, keys, List.filterMap_map, List.filterMap_map]
  refine List.filterMap_congr fun entry hentry => ?_
  simp only [Function.comp_apply, find?, findIn_of_mem m.nodup hentry, Option.bind_some]

/-- The first members of each key stand in the order of the list. -/
theorem firsts_sublist {α : Type} (key : α → String) (as : List α) :
    ((OrderedSet.ofList (as.map key)).toList.filterMap fun k => as.find? fun a => key a == k).Sublist as := by
  induction as using List.reverseRecOn with
  | nil => exact .slnil
  | append_singleton as a ih =>
    rw [List.map_append, List.map_cons, List.map_nil, OrderedSet.ofList_concat, OrderedSet.toList_insert]
    -- a key of an earlier member still stands for that one
    have hsame : ∀ k ∈ (OrderedSet.ofList (as.map key)).toList,
        ((as ++ [a]).find? fun b => key b == k) = as.find? fun b => key b == k := by
      intro k hk
      obtain ⟨b, hb, hbk⟩ := List.mem_map.1 (OrderedSet.mem_ofList.1 hk)
      have hsome : (as.find? fun b => key b == k).isSome = true :=
        List.find?_isSome.2 ⟨b, hb, beq_iff_eq.2 hbk⟩
      obtain ⟨c, hc⟩ := Option.isSome_iff_exists.1 hsome
      rw [List.find?_append, hc, Option.some_or]
    split <;> rename_i hk
    · rw [List.filterMap_congr hsame]
      exact ih.trans (List.sublist_append_left as [a])
    · have hnone : (as.find? fun b => key b == key a) = none := by
        refine List.find?_eq_none.2 fun b hb he => hk (OrderedSet.mem_ofList.2 ?_)
        rw [← beq_iff_eq.1 he]
        exact List.mem_map_of_mem hb
      have hnew : ((as ++ [a]).find? fun b => key b == key a) = some a := by
        rw [List.find?_append, hnone, Option.none_or, List.find?_singleton, if_pos (beq_self_eq_true _)]
      rw [List.filterMap_append, List.filterMap_congr hsame, List.filterMap_cons, hnew, List.filterMap_nil]
      exact ih.append (List.Sublist.refl [a])

/-! ## Canonical fragments -/

namespace Registry

variable {r : Registry} {name : String} {f : RegisteredFragment}

theorem names_eq (r : Registry) : r.names = (OrderedSet.ofList (r.fragments.map RegisteredFragment.name)).toList :=
  r.indexed.keys_eq

theorem canonical_eq (r : Registry) : r.canonical = r.names.filterMap r.fragment? := r.firstAt.filterMap_values _

theorem mem_of_fragment? (h : r.fragment? name = some f) : f ∈ r.fragments :=
  List.mem_of_find?_eq_some (r.fragment?_eq name ▸ h)

theorem name_of_fragment? (h : r.fragment? name = some f) : f.name = name :=
  beq_iff_eq.1 (List.find?_some (p := fun f : RegisteredFragment => f.name == name) (r.fragment?_eq name ▸ h))

theorem mem_names : name ∈ r.names ↔ ∃ f, r.fragment? name = some f := by
  rw [names_eq, ← OrderedSet.mem_iff, OrderedSet.mem_ofList, List.mem_map]
  constructor
  · rintro ⟨f, hf, rfl⟩
    rw [fragment?_eq]
    exact Option.isSome_iff_exists.1 (List.find?_isSome.2 ⟨f, hf, beq_self_eq_true _⟩)
  · rintro ⟨f, hf⟩
    exact ⟨f, mem_of_fragment? hf, name_of_fragment? hf⟩

theorem mem_canonical : f ∈ r.canonical ↔ r.fragment? f.name = some f := by
  rw [canonical_eq, List.mem_filterMap]
  constructor
  · rintro ⟨name, -, hf⟩
    rw [name_of_fragment? hf]
    exact hf
  · intro hf
    exact ⟨f.name, mem_names.2 ⟨f, hf⟩, hf⟩

/-- Every name has one canonical fragment. -/
theorem names_canonical (r : Registry) : r.canonical.map RegisteredFragment.name = r.names := by
  rw [canonical_eq, List.map_filterMap]
  have hself : ∀ name ∈ r.names, (r.fragment? name).map RegisteredFragment.name = some name := by
    intro name hn
    obtain ⟨f, hf⟩ := mem_names.1 hn
    rw [hf, Option.map_some, name_of_fragment? hf]
  rw [List.filterMap_congr hself]
  exact List.filterMap_some

theorem nodup_canonical (r : Registry) : (r.canonical.map RegisteredFragment.name).Nodup := by
  rw [names_canonical, names_eq]
  exact OrderedSet.nodup _

theorem canonical_sublist (r : Registry) : r.canonical.Sublist r.fragments := by
  rw [canonical_eq, names_eq, List.filterMap_congr fun name _ => r.fragment?_eq name]
  exact firsts_sublist RegisteredFragment.name r.fragments

/-! ## Registries of well-formed definitions -/

/-- The definitions of a registry are well-formed. -/
structure WellFormed (r : Registry) : Prop where
  fragments : ∀ f ∈ r.fragments, f.definition.WellFormed
  operations : ∀ op ∈ r.operations, op.definition.WellFormed

end Registry

end QueryBatch
