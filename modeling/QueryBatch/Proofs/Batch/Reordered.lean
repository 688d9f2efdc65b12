import QueryBatch.Proofs.Batch.Filed
import QueryBatch.Proofs.Batch.MinimalText

/-!
# What is gathered from files in another order

Which of several fragments of one name and text is kept depends on the order of the files, and so does the order of all
that is kept. Nothing else does, as long as no two fragments of one name are kept.

* `Registry.Spells`: no two fragments of a registry have one name. `Batch.spells_gather`: so it is for what is gathered
  from files whose fragments of one name have one text.
* `Registry.Reordered`: a registry has the operations of another one, and its fragments up to spans, in some order.
* `Registry.Reordered.reaches`, `Registry.Reordered.lacking`: in both, selection sets reach the same names and lack the
  same fragments. `Registry.Reordered.texts_neededBy`: the fragments that they need have the same texts.
* `Batch.reordered_gather`: so it is for what is gathered from the same files in another order.
-/

namespace QueryBatch

/-! ## Fragments of different names -/

namespace Registry

variable {texts : String → String} {r : Registry} {source : Nat} {file : QueryFile} {frag : Fragment}

/-- A name stands for the only fragment that has it. -/
theorem fragment?_of_mem (hdistinct : (r.fragments.map RegisteredFragment.name).Nodup) {f : RegisteredFragment}
    (hf : f ∈ r.fragments) : r.fragment? f.name = some f := by
  cases hfound : r.fragment? f.name with
  | none =>
    rw [fragment?_eq] at hfound
    exact absurd (beq_self_eq_true _) (List.find?_eq_none.1 hfound f hf)
  | some g =>
    rw [List.inj_on_of_nodup_map hdistinct (mem_of_fragment? hfound) hf (name_of_fragment? hfound)]

/-- Fragments of different names differ by more than spans. -/
theorem nodup_unspanned {fs : List RegisteredFragment} (h : (fs.map RegisteredFragment.name).Nodup) :
    (fs.map fun f => f.definition.unspanned).Nodup := by
  refine List.Nodup.of_map (fun frag => frag.name.text) ?_
  rw [List.map_map]
  exact h

/-- No two fragments have one name, and each has the text that belongs to its name. -/
structure Spells (texts : String → String) (r : Registry) : Prop where
  distinct : (r.fragments.map RegisteredFragment.name).Nodup
  texts : ∀ f ∈ r.fragments, f.text = texts f.name

theorem spells_empty (texts : String → String) : Registry.Spells texts {} :=
  ⟨List.nodup_nil, fun _ h => absurd h List.not_mem_nil⟩

/-- A fragment with the text of its name is dropped if there is one of its name. -/
theorem Spells.mergeFragment (h : r.Spells texts) (source : Nat) (hfrag : frag.text = texts frag.name.text) :
    (r.mergeFragment source frag).Spells texts := by
  unfold Registry.mergeFragment
  dsimp only
  split
  · exact ⟨h.distinct, h.texts⟩
  · rename_i hnew
    -- one of its name would have its text, and the fragment would be dropped
    have hnone : r.fragment? frag.name.text = none := by
      refine Option.eq_none_iff_forall_not_mem.2 fun known hknown => hnew ?_
      have htext := h.texts known (mem_of_fragment? hknown)
      rw [name_of_fragment? hknown, ← hfrag] at htext
      exact Option.any_eq_true _ _ |>.2 ⟨known, hknown, beq_iff_eq.2 htext⟩
    rw [fragment?_eq] at hnone
    constructor
    · rw [fragments_keep, List.map_append, List.nodup_append]
      refine ⟨h.distinct, List.nodup_singleton _, fun name hname other hother he => ?_⟩
      obtain ⟨f, hf, rfl⟩ := List.mem_map.1 hname
      rw [List.map_singleton, List.mem_singleton, ← he] at hother
      exact List.find?_eq_none.1 hnone f hf (beq_iff_eq.2 hother)
    · intro f hf
      rcases List.mem_append.1 hf with hf | hf
      · exact h.texts f hf
      · cases List.mem_singleton.1 hf
        exact hfrag

theorem Spells.merge (h : r.Spells texts) (source : Nat)
    (hfile : ∀ frag ∈ file.document.fragments, frag.text = texts frag.name.text) :
    (r.merge source file).Spells texts := by
  unfold Registry.merge Document.fragments at *
  generalize file.document.definitions = definitions at hfile ⊢
  induction definitions generalizing r with
  | nil => exact h
  | cons x rest ih =>
    rw [List.foldl_cons]
    cases x with
    | operation op => exact @ih (r.mergeOperation source file op) ⟨h.distinct, h.texts⟩ hfile
    | fragment frag =>
      exact ih (h.mergeFragment source (hfile frag List.mem_cons_self)) fun g hg => hfile g (List.mem_cons_of_mem _ hg)

end Registry

/-- Files whose fragments of one name have one text give no two fragments of one name. -/
theorem Batch.spells_gather {schema : Schema} {texts : String → String} {files : List QueryFile}
    (hfiles : ∀ file ∈ files, ∀ frag ∈ file.document.fragments, frag.text = texts frag.name.text) {source : Nat}
    {r r' : Registry} (hr : r.Spells texts) (h : gather schema source r files = .ok r') : r'.Spells texts := by
  induction files generalizing source r with
  | nil =>
    cases h
    exact hr
  | cons file rest ih =>
    rw [gather] at h
    split at h
    · exact ih (fun f hf => hfiles f (List.mem_cons_of_mem _ hf)) (hr.merge source (hfiles file List.mem_cons_self)) h
    · cases h

/-! ## Registries that differ in their order -/

/-- A registry has the operations of another one, and its fragments up to spans, in some order, and no two of the
fragments have one name. -/
structure Registry.Reordered (r r' : Registry) : Prop where
  operations : (r.operations.map fun op => (op.file, op.definition)).Perm
    (r'.operations.map fun op => (op.file, op.definition))
  fragments : (r.fragments.map fun f => f.definition.unspanned).Perm
    (r'.fragments.map fun f => f.definition.unspanned)
  distinct : (r.fragments.map RegisteredFragment.name).Nodup

namespace Registry.Reordered

variable {r r' : Registry}

theorem symm (h : r.Reordered r') : r'.Reordered r := by
  refine ⟨h.operations.symm, h.fragments.symm, ?_⟩
  have hnames := h.fragments.map fun frag => frag.name.text
  rw [List.map_map, List.map_map] at hnames
  exact hnames.nodup_iff.1 h.distinct

/-- An operation of one registry is there in the other one, maybe with another source. -/
theorem exists_operation (h : r.Reordered r') {op : RegisteredOperation} (hop : op ∈ r.operations) :
    ∃ op' ∈ r'.operations, op'.file = op.file ∧ op'.definition = op.definition := by
  obtain ⟨op', hop', hsame⟩ := List.mem_map.1 (h.operations.subset (List.mem_map_of_mem hop))
  obtain ⟨hfile, hdefinition⟩ := Prod.mk.inj hsame
  exact ⟨op', hop', hfile, hdefinition⟩

/-- A name stands for the same fragment in both, up to spans. -/
theorem exists_fragment? (h : r.Reordered r') {name : String} {f : RegisteredFragment}
    (hf : r.fragment? name = some f) :
    ∃ f', r'.fragment? name = some f' ∧ f'.definition.unspanned = f.definition.unspanned := by
  obtain ⟨f', hf', hsame⟩ := List.mem_map.1 (h.fragments.subset (List.mem_map_of_mem (mem_of_fragment? hf)))
  have hnames := congrArg (fun frag : Fragment => frag.name.text) hsame
  have hname : f'.name = f.name := hnames
  refine ⟨f', ?_, hsame⟩
  rw [← name_of_fragment? hf, ← hname]
  exact fragment?_of_mem h.symm.distinct hf'

theorem exists_bodyOf (h : r.Reordered r') {name : String} {body : SelectionSet} (hbody : r.bodyOf name = some body) :
    ∃ body', r'.bodyOf name = some body' ∧ body'.spreadNames = body.spreadNames := by
  obtain ⟨f, hf, rfl⟩ := exists_of_bodyOf hbody
  obtain ⟨f', hf', hsame⟩ := h.exists_fragment? hf
  refine ⟨f'.definition.body, ?_, SelectionSet.spreadNames_congr (congrArg Fragment.body hsame)⟩
  unfold bodyOf
  rw [hf']
  rfl

/-- In both registries, a selection set reaches the same names. -/
theorem reaches (h : r.Reordered r') {body : SelectionSet} {name : String} (hreach : Reaches r.bodyOf body name) :
    Reaches r'.bodyOf body name := by
  refine hreach.transport (List.Subset.refl _) fun known inner _ hinner => ?_
  obtain ⟨inner', hinner', hnames⟩ := h.exists_bodyOf hinner
  exact ⟨inner', hinner', by rw [hnames]; exact List.Subset.refl _⟩

/-- In both registries, a selection set lacks the same fragments. -/
theorem lacking (h : r.Reordered r') {body : SelectionSet} (hlacking : r.Lacking body) : r'.Lacking body := by
  obtain ⟨set, hset, s, hs, hnone⟩ := hlacking
  have hnone' : r'.bodyOf s.name.text = none := by
    refine Option.eq_none_iff_forall_not_mem.2 fun body' hbody' => ?_
    obtain ⟨body, hbody, -⟩ := h.symm.exists_bodyOf hbody'
    rw [hnone] at hbody
    cases hbody
  rcases hset with rfl | ⟨name, hreach, hset⟩
  · exact ⟨set, .inl rfl, s, hs, hnone'⟩
  · -- the fragment of the other registry has another spread of the name, at another span
    obtain ⟨set', hset', hnames⟩ := h.exists_bodyOf hset
    have hname : s.name.text ∈ set'.spreadNames := by
      rw [hnames]
      exact SelectionSet.mem_spreadNames.2 ⟨s, hs, rfl⟩
    obtain ⟨s', hs', he⟩ := SelectionSet.mem_spreadNames.1 hname
    exact ⟨set', .inr ⟨name, h.reaches hreach, hset'⟩, s', hs', by rw [he]; exact hnone'⟩

section Needed

variable {source source' : Nat} {body : SelectionSet} {c c' : Closure}

theorem needed_subset (h : r.Reordered r') (hc : c.IsClosureOf r source body) (hc' : c'.IsClosureOf r' source' body) :
    (r.neededBy c).map (fun f => f.definition.unspanned) ⊆
      (r'.neededBy c').map fun f => f.definition.unspanned := by
  intro x hx
  obtain ⟨f, hf, rfl⟩ := List.mem_map.1 hx
  obtain ⟨hfound, hmem⟩ := mem_neededBy.1 hf
  obtain ⟨f', hfound', hsame⟩ := h.exists_fragment? hfound
  rw [← hsame]
  refine List.mem_map_of_mem (mem_neededBy.2 ?_)
  rw [name_of_fragment? hfound']
  exact ⟨hfound', (hc'.mem_fragments _).2 (h.reaches ((hc.mem_fragments _).1 hmem))⟩

/-- The fragments that a selection set needs have the same texts in both registries. -/
theorem texts_neededBy (h : r.Reordered r') (hc : c.IsClosureOf r source body)
    (hc' : c'.IsClosureOf r' source' body) :
    ((r.neededBy c).map RegisteredFragment.text).Perm ((r'.neededBy c').map RegisteredFragment.text) := by
  have hnodup := nodup_unspanned (isNeeded_neededBy hc).nodup
  have hnodup' := nodup_unspanned (isNeeded_neededBy hc').nodup
  have hperm := (List.perm_ext_iff_of_nodup hnodup hnodup').2 fun x =>
    ⟨fun hx => h.needed_subset hc hc' hx, fun hx => h.symm.needed_subset hc' hc hx⟩
  have htexts := hperm.map Fragment.text
  simp only [List.map_map, Function.comp_def, Fragment.text_unspanned] at htexts
  exact htexts

end Needed

end Registry.Reordered

/-! ## Files in another order -/

namespace Batch

theorem map_operationsFrom (source : Nat) (files : List QueryFile) :
    (operationsFrom source files).map (fun op => (op.file, op.definition)) =
      files.flatMap fun file => file.document.operations.map fun op => (file, op) := by
  induction files generalizing source with
  | nil => rfl
  | cons file rest ih =>
    rw [operationsFrom, List.map_append, List.map_map, ih, List.flatMap_cons]
    rfl

/-- No two operations stand in one source just if no file has two. -/
theorem nodup_operationsFrom_iff {source : Nat} {files : List QueryFile} :
    ((operationsFrom source files).map RegisteredOperation.source).Nodup ↔
      ∀ file ∈ files, file.document.operations.length ≤ 1 := by
  induction files generalizing source with
  | nil => exact iff_of_true List.nodup_nil nofun
  | cons file rest ih =>
    have hfirst : (file.document.operations.map (RegisteredOperation.mk source file)).map RegisteredOperation.source =
        List.replicate file.document.operations.length source := by
      rw [List.map_map]
      exact List.map_const' ..
    have hlater : ∀ n ∈ (operationsFrom (source + 1) rest).map RegisteredOperation.source, source < n := by
      intro n hn
      obtain ⟨op, hop, rfl⟩ := List.mem_map.1 hn
      obtain ⟨i, -, hsource, -⟩ := mem_operationsFrom.1 hop
      omega
    rw [operationsFrom, List.map_append, List.nodup_append, ih, hfirst, List.nodup_replicate, List.forall_mem_cons]
    refine and_congr_right fun _ => and_iff_left fun n hn m hm he => ?_
    have hlt := hlater m hm
    rw [← he, List.eq_of_mem_replicate hn] at hlt
    exact Nat.lt_irrefl _ hlt

section Files

variable {schema : Schema} {files files' : List QueryFile} {r r' : Registry}

/-- No two operations stand in one source, whatever the order of files, if none do in one order. -/
theorem nodup_sources_of_perm (hperm : files.Perm files') (h : gather schema 0 {} files = .ok r)
    (h' : gather schema 0 {} files' = .ok r') (hnodup : (r.operations.map RegisteredOperation.source).Nodup) :
    (r'.operations.map RegisteredOperation.source).Nodup := by
  rw [operations_gather h, List.nil_append, nodup_operationsFrom_iff] at hnodup
  rw [operations_gather h', List.nil_append, nodup_operationsFrom_iff]
  exact fun file hfile => hnodup file (hperm.symm.subset hfile)

/-- Every fragment that is gathered from files is known, up to spans, to what is gathered from the same files in another
order. -/
theorem unspanned_subset (hclean : ∀ file ∈ files, file.document.IsClean) (hperm : files.Perm files')
    (h : gather schema 0 {} files = .ok r) (h' : gather schema 0 {} files' = .ok r') :
    r.fragments.map (fun f => f.definition.unspanned) ⊆ r'.fragments.map fun f => f.definition.unspanned := by
  intro x hx
  obtain ⟨f, hf, rfl⟩ := List.mem_map.1 hx
  obtain ⟨file, hfile, hmem⟩ := (all_gather_file h).fragments f hf
  obtain ⟨f', hf', -, htext⟩ := knows_gather h' (hperm.subset (List.mem_of_getElem? hfile))
    (Document.mem_fragments.2 hmem)
  have hwf := (wellFormed_gather hclean h).fragments f hf
  have hwf' := (wellFormed_gather (fun file hfile => hclean file (hperm.symm.subset hfile)) h').fragments f' hf'
  exact List.mem_map.2 ⟨f', hf', Fragment.unspanned_eq_of_text hwf' hwf htext⟩

/-- What is gathered from files in another order is the same in another order, if no two fragments have one name. -/
theorem reordered_gather (hclean : ∀ file ∈ files, file.document.IsClean) (hperm : files.Perm files')
    (h : gather schema 0 {} files = .ok r) (h' : gather schema 0 {} files' = .ok r')
    (hdistinct : (r.fragments.map RegisteredFragment.name).Nodup) : r.Reordered r' := by
  -- the first registry tells the text of every name, so the second one drops all but one fragment of it
  have hspells : r'.Spells fun name => ((r.fragment? name).map RegisteredFragment.text).getD "" := by
    refine spells_gather (fun file hfile frag hfrag => ?_) (Registry.spells_empty _) h'
    obtain ⟨f, hf, hname, htext⟩ := knows_gather h (hperm.symm.subset hfile) hfrag
    rw [← hname, Registry.fragment?_of_mem hdistinct hf]
    exact htext.symm
  have hnodup := Registry.nodup_unspanned hdistinct
  have hnodup' := Registry.nodup_unspanned hspells.distinct
  refine ⟨?_, (List.perm_ext_iff_of_nodup hnodup hnodup').2 fun x => ⟨?_, ?_⟩, hdistinct⟩
  · rw [operations_gather h, operations_gather h', List.map_append, List.map_append, map_operationsFrom,
      map_operationsFrom]
    exact hperm.flatMap_right _
  · exact fun hx => unspanned_subset hclean hperm h h' hx
  · exact fun hx => unspanned_subset (fun file hfile => hclean file (hperm.symm.subset hfile)) hperm.symm h' h hx

end Files

end Batch

end QueryBatch
