import QueryBatch.Proofs.Batch.Compiled
import QueryBatch.Proofs.Batch.Filed
import QueryBatch.Proofs.Registry

/-!
# Registries by the history of their merges

A registry is told by the definitions that were merged into it, in the order in which they came.

* `MergedDefinition`: a definition with the file and the source that it came with. `mergedDefinitions`: those of a
  sequence of merges, and `Registry.ofMerges`, the registry that they make.
* `firstNamed`: the first fragment of a name. `keptOf`: the fragments without those that have the text of the first of
  their name before them.
* `Registry.Records`: a registry has what a list of definitions leaves. `Registry.Records.mergeDefinition` adds one
  definition, `Registry.records_ofMerges` is about any sequence of merges.
* `Registry.ofMerges_firstWins`: the first of a name wins, in all that a registry answers.
* `Registry.ofMerges_deduplicated`: the fragments of one name and text that are kept twice are those that differ from
  the first of their name. `Registry.ofMerges_not_deduplicated`: there are such.
-/

namespace QueryBatch

/-! ## First occurrences -/

theorem eraseDups_concat {α : Type} [DecidableEq α] (as : List α) (a : α) :
    (as ++ [a]).eraseDups = if a ∈ as then as.eraseDups else as.eraseDups ++ [a] := by
  rw [List.eraseDups_append]
  split
  · rename_i h
    simp [List.removeAll, h]
  · rename_i h
    simp [List.removeAll, h, List.eraseDups_cons]

/-- An ordered set lists the first occurrences. -/
theorem OrderedSet.toList_ofList {α : Type} [DecidableEq α] (as : List α) : (ofList as).toList = as.eraseDups := by
  induction as using List.reverseRecOn with
  | nil => rfl
  | append_singleton as a ih =>
    rw [ofList_concat, toList_insert, eraseDups_concat, ih]
    simp only [List.mem_eraseDups]

/-! ## Kept fragments -/

/-- The first fragment of a name. -/
def firstNamed (name : String) (fs : List RegisteredFragment) : Option RegisteredFragment :=
  fs.find? fun f => f.name == name

/-- Whether a fragment has the text of the first one of its name before it. -/
def RegisteredFragment.repeatsFirst (f : RegisteredFragment) (before : List RegisteredFragment) : Bool :=
  (firstNamed f.name before).any fun first => first.text == f.text

/-- The fragments without those that have the text of the first of their name before them. -/
def keptOf (fs : List RegisteredFragment) : List RegisteredFragment :=
  (fs.zipIdx.filter fun x => !x.1.repeatsFirst (fs.take x.2)).map Prod.fst

section Kept

variable {name : String} {f g : RegisteredFragment} {fs gs : List RegisteredFragment}

theorem mem_of_firstNamed (h : firstNamed name fs = some f) : f ∈ fs := List.mem_of_find?_eq_some h

theorem name_of_firstNamed (h : firstNamed name fs = some f) : f.name = name :=
  beq_iff_eq.1 (List.find?_some (p := fun f : RegisteredFragment => f.name == name) h)

theorem exists_firstNamed (h : f ∈ fs) : ∃ first, firstNamed f.name fs = some first :=
  Option.isSome_iff_exists.1 (List.find?_isSome.2 ⟨f, h, beq_self_eq_true _⟩)

theorem firstNamed_concat (name : String) (fs : List RegisteredFragment) (f : RegisteredFragment) :
    firstNamed name (fs ++ [f]) = (firstNamed name fs).or (if f.name = name then some f else none) := by
  unfold firstNamed
  rw [List.find?_append, List.find?_singleton]
  simp only [beq_iff_eq]

theorem repeatsFirst_iff :
    f.repeatsFirst fs = true ↔ ∃ first, firstNamed f.name fs = some first ∧ first.text = f.text := by
  simp [RegisteredFragment.repeatsFirst, Option.any_eq_true]

theorem keptOf_concat (fs : List RegisteredFragment) (f : RegisteredFragment) :
    keptOf (fs ++ [f]) = keptOf fs ++ if f.repeatsFirst fs then [] else [f] := by
  have hbefore : fs.zipIdx.filter (fun x => !x.1.repeatsFirst ((fs ++ [f]).take x.2)) =
      fs.zipIdx.filter fun x => !x.1.repeatsFirst (fs.take x.2) := by
    refine List.filter_congr fun x hx => ?_
    rw [List.take_append_of_le_length (Nat.le_of_lt (List.snd_lt_of_mem_zipIdx hx))]
  unfold keptOf
  rw [List.zipIdx_append, List.filter_append, List.map_append, hbefore, List.zipIdx_singleton, Nat.zero_add,
    List.filter_singleton, List.take_left]
  cases f.repeatsFirst fs <;> rfl

/-- The first of a name is kept. -/
theorem firstNamed_keptOf (name : String) (fs : List RegisteredFragment) :
    firstNamed name (keptOf fs) = firstNamed name fs := by
  induction fs using List.reverseRecOn with
  | nil => rfl
  | append_singleton fs f ih =>
    rw [keptOf_concat, firstNamed_concat]
    split
    · rename_i hrepeats
      obtain ⟨first, hfirst, -⟩ := repeatsFirst_iff.1 hrepeats
      rw [List.append_nil, ih]
      split
      · rename_i hname
        rw [← hname, hfirst, Option.some_or]
      · exact Option.or_none.symm
    · rw [firstNamed_concat, ih]

theorem keptOf_subset (fs : List RegisteredFragment) : keptOf fs ⊆ fs := by
  intro f hf
  obtain ⟨x, hx, rfl⟩ := List.mem_map.1 hf
  exact List.fst_mem_of_mem_zipIdx (List.mem_filter.1 hx).1

/-- Every name that comes up is kept, in order of first appearance. -/
theorem eraseDups_names_keptOf (fs : List RegisteredFragment) :
    ((keptOf fs).map RegisteredFragment.name).eraseDups = (fs.map RegisteredFragment.name).eraseDups := by
  induction fs using List.reverseRecOn with
  | nil => rfl
  | append_singleton fs f ih =>
    have hnames : f.name ∈ (keptOf fs).map RegisteredFragment.name ↔ f.name ∈ fs.map RegisteredFragment.name := by
      rw [← List.mem_eraseDups, ih, List.mem_eraseDups]
    rw [keptOf_concat, List.map_append, List.map_append, List.map_singleton, eraseDups_concat]
    split
    · rename_i hrepeats
      obtain ⟨first, hfirst, -⟩ := repeatsFirst_iff.1 hrepeats
      rw [if_pos, List.map_nil, List.append_nil, ih]
      exact name_of_firstNamed hfirst ▸ List.mem_map_of_mem (mem_of_firstNamed hfirst)
    · rw [List.map_singleton, eraseDups_concat, ih]
      simp only [hnames]

/-- Fragments whose names have come up are kept just if they differ from the first of their name. -/
theorem keptOf_append (hknown : ∀ g ∈ gs, ∃ f ∈ fs, f.name = g.name) :
    keptOf (fs ++ gs) = keptOf fs ++ gs.filter fun g => !g.repeatsFirst fs := by
  induction gs using List.reverseRecOn with
  | nil => simp
  | append_singleton gs g ih =>
    have hgs : ∀ g ∈ gs, ∃ f ∈ fs, f.name = g.name := fun g hg => hknown g (List.mem_append_left _ hg)
    obtain ⟨f, hf, hname⟩ := hknown g (List.mem_append_right _ (List.mem_singleton_self g))
    obtain ⟨first, hfirst⟩ := exists_firstNamed hf
    have hrepeats : g.repeatsFirst (fs ++ gs) = g.repeatsFirst fs := by
      unfold RegisteredFragment.repeatsFirst firstNamed
      rw [List.find?_append, ← hname, show List.find? _ fs = some first from hfirst, Option.some_or]
    rw [← List.append_assoc, keptOf_concat, ih hgs, hrepeats, List.filter_append, List.append_assoc,
      List.filter_singleton]
    cases g.repeatsFirst fs <;> rfl

/-- Two fragments of one name and text are kept only if they differ from the first of their name. -/
theorem pairwise_keptOf (fs : List RegisteredFragment) : (keptOf fs).Pairwise fun f g => f.name = g.name →
    f.text = g.text → ∃ first, firstNamed f.name fs = some first ∧ first.text ≠ f.text := by
  induction fs using List.reverseRecOn with
  | nil => exact .nil
  | append_singleton fs g ih =>
    have hold : (keptOf fs).Pairwise fun f g' => f.name = g'.name → f.text = g'.text →
        ∃ first, firstNamed f.name (fs ++ [g]) = some first ∧ first.text ≠ f.text := by
      refine ih.imp fun h hname htext => ?_
      obtain ⟨first, hfirst, hne⟩ := h hname htext
      exact ⟨first, by rw [firstNamed_concat, hfirst, Option.some_or], hne⟩
    rw [keptOf_concat]
    split
    · rwa [List.append_nil]
    · rename_i hdiffers
      refine List.pairwise_append.2 ⟨hold, List.pairwise_singleton _ _, fun f hf g' hg' hname htext => ?_⟩
      obtain rfl := List.mem_singleton.1 hg'
      -- `f` has a first of its name, and `g'` would repeat it if both had its text
      obtain ⟨first, hfirst⟩ := exists_firstNamed (keptOf_subset fs hf)
      refine ⟨first, by rw [firstNamed_concat, hfirst, Option.some_or], fun he => hdiffers ?_⟩
      exact repeatsFirst_iff.2 ⟨first, hname ▸ hfirst, he.trans htext⟩

end Kept

/-! ## Histories -/

/-- A definition that was merged, with the file that it stands in and the source of that file. -/
structure MergedDefinition where
  source : Nat
  file : QueryFile
  definition : Definition

namespace MergedDefinition

def fragment? (x : MergedDefinition) : Option RegisteredFragment :=
  x.definition.fragment?.map (RegisteredFragment.mk x.source)

def operation? (x : MergedDefinition) : Option RegisteredOperation :=
  x.definition.operation?.map (RegisteredOperation.mk x.source x.file)

def name? (x : MergedDefinition) : Option String := x.definition.name?.map Name.text

theorem name?_of_fragment? {x : MergedDefinition} {f : RegisteredFragment} (h : x.fragment? = some f) :
    x.name? = some f.name := by
  obtain ⟨source, file, definition⟩ := x
  cases definition with
  | operation op => cases h
  | fragment frag =>
    cases h
    rfl

end MergedDefinition

/-- The definitions of files that are merged one after the other, each with a source. -/
def mergedDefinitions (files : List (Nat × QueryFile)) : List MergedDefinition :=
  files.flatMap fun f => f.2.document.definitions.map (MergedDefinition.mk f.1 f.2)

/-- The fragments among definitions, in order. -/
def mergedFragments (xs : List MergedDefinition) : List RegisteredFragment := xs.filterMap MergedDefinition.fragment?

namespace Registry

/-- The registry that files make when they are merged one after the other, each with a source. -/
def ofMerges (files : List (Nat × QueryFile)) : Registry := files.foldl (fun r f => r.merge f.1 f.2) {}

/-- A registry has what is left of definitions that were merged in this order. -/
structure Records (r : Registry) (xs : List MergedDefinition) : Prop where
  fragments : r.fragments = keptOf (mergedFragments xs)
  count : r.fragments.length + r.dropped = (mergedFragments xs).length
  operations : r.operations = xs.filterMap MergedDefinition.operation?
  definedIn : ∀ name, r.definedIn? name = (xs.find? fun x => x.name? == some name).map MergedDefinition.source

theorem records_empty : Records {} [] := ⟨rfl, rfl, rfl, fun _ => rfl⟩

section Records

variable {r : Registry} {xs : List MergedDefinition} {source : Nat} {file : QueryFile}

theorem Records.fragment? (h : r.Records xs) (name : String) :
    r.fragment? name = firstNamed name (mergedFragments xs) := by
  rw [Registry.fragment?_eq, ← firstNamed_keptOf, ← h.fragments]
  rfl

/-- A name that a fragment was merged under has a source. -/
theorem Records.exists_definedIn (h : r.Records xs) {f : RegisteredFragment} (hf : f ∈ mergedFragments xs) :
    ∃ n, r.definedIn? f.name = some n := by
  obtain ⟨x, hx, hxf⟩ := List.mem_filterMap.1 hf
  have hsome := List.find?_isSome (p := fun x : MergedDefinition => x.name? == some f.name) |>.2
    ⟨x, hx, beq_iff_eq.2 (MergedDefinition.name?_of_fragment? hxf)⟩
  obtain ⟨y, hy⟩ := Option.isSome_iff_exists.1 hsome
  exact ⟨y.source, by rw [h.definedIn, hy, Option.map_some]⟩

theorem find?_concat (xs : List MergedDefinition) (x : MergedDefinition) (name : String) :
    ((xs ++ [x]).find? fun x => x.name? == some name).map MergedDefinition.source =
      ((xs.find? fun x => x.name? == some name).map MergedDefinition.source).or
        (if x.name? = some name then some x.source else none) := by
  rw [List.find?_append, List.find?_singleton, Option.map_or]
  simp only [beq_iff_eq, apply_ite (Option.map MergedDefinition.source), Option.map_some, Option.map_none]

/-- An operation is added. Its name gets its source unless it has one. -/
theorem Records.mergeOperation (h : r.Records xs) (op : Operation) :
    (r.mergeOperation source file op).Records (xs ++ [⟨source, file, .operation op⟩]) := by
  have hfragments : mergedFragments (xs ++ [⟨source, file, .operation op⟩]) = mergedFragments xs := by
    unfold mergedFragments
    rw [List.filterMap_append]
    exact List.append_nil _
  refine ⟨?_, ?_, ?_, fun name => ?_⟩
  · rw [hfragments]
    exact h.fragments
  · rw [hfragments]
    exact h.count
  · rw [List.filterMap_append, ← h.operations]
    rfl
  · rw [find?_concat, ← h.definedIn]
    cases hname : op.name with
    | none => simp [definedIn?, Registry.mergeOperation, MergedDefinition.name?, Definition.name?, hname]
    | some opName =>
      simp [definedIn?, Registry.mergeOperation, MergedDefinition.name?, Definition.name?, hname,
        OrderedMap.find?_insertNew]

theorem mergedFragments_concat (xs : List MergedDefinition) (source : Nat) (file : QueryFile) (frag : Fragment) :
    mergedFragments (xs ++ [⟨source, file, .fragment frag⟩]) = mergedFragments xs ++ [⟨source, frag⟩] :=
  List.filterMap_append

theorem mergedOperations_concat (xs : List MergedDefinition) (source : Nat) (file : QueryFile) (frag : Fragment) :
    (xs ++ [MergedDefinition.mk source file (.fragment frag)]).filterMap MergedDefinition.operation? =
      xs.filterMap MergedDefinition.operation? := List.filterMap_append.trans (List.append_nil _)

/-- Counting a fragment that repeats the first of its name. -/
theorem Records.drop (h : r.Records xs) {frag : Fragment}
    (hrepeats : RegisteredFragment.repeatsFirst ⟨source, frag⟩ (mergedFragments xs) = true) :
    ({ r with dropped := r.dropped + 1 } : Registry).Records (xs ++ [⟨source, file, .fragment frag⟩]) := by
  obtain ⟨first, hfirst, -⟩ := repeatsFirst_iff.1 hrepeats
  refine ⟨?_, ?_, ?_, fun name => ?_⟩
  · rw [mergedFragments_concat, keptOf_concat, if_pos hrepeats, List.append_nil]
    exact h.fragments
  · rw [mergedFragments_concat, List.length_append, List.length_singleton, ← h.count]
    exact (Nat.add_assoc _ _ 1).symm
  · rw [mergedOperations_concat]
    exact h.operations
  · -- the first of its name has given the name a source
    rw [find?_concat, ← h.definedIn]
    split
    · rename_i hsame
      obtain ⟨n, hn⟩ := h.exists_definedIn (mem_of_firstNamed hfirst)
      have hname : first.name = name := (name_of_firstNamed hfirst).trans (Option.some.inj hsame)
      rw [hname] at hn
      rw [hn, Option.some_or]
      exact hn
    · exact Option.or_none.symm

/-- Keeping a fragment that does not. -/
theorem Records.keep (h : r.Records xs) {frag : Fragment}
    (hdiffers : ¬ RegisteredFragment.repeatsFirst ⟨source, frag⟩ (mergedFragments xs) = true) :
    (r.keep ⟨source, frag⟩).Records (xs ++ [⟨source, file, .fragment frag⟩]) := by
  refine ⟨?_, ?_, ?_, fun name => ?_⟩
  · rw [mergedFragments_concat, keptOf_concat, if_neg hdiffers, fragments_keep, h.fragments]
  · rw [fragments_keep, mergedFragments_concat, List.length_append, List.length_append, ← h.count, Nat.add_right_comm]
    rfl
  · rw [mergedOperations_concat]
    exact h.operations
  · rw [find?_concat, ← h.definedIn]
    refine (OrderedMap.find?_insertNew ..).trans ?_
    simp only [MergedDefinition.name?, Definition.name?, Option.map_some, Option.some.injEq]
    rfl

/-- A fragment that repeats the first of its name is counted, any other one is kept. -/
theorem Records.mergeFragment (h : r.Records xs) (frag : Fragment) :
    (r.mergeFragment source frag).Records (xs ++ [⟨source, file, .fragment frag⟩]) := by
  have hrepeats : (r.fragment? frag.name.text).any (fun known => known.text == frag.text) =
      RegisteredFragment.repeatsFirst ⟨source, frag⟩ (mergedFragments xs) := by
    rw [h.fragment?]
    rfl
  unfold Registry.mergeFragment
  dsimp only
  split
  · rename_i hdropped
    exact h.drop (hrepeats.symm.trans hdropped)
  · rename_i hkept
    exact h.keep fun he => hkept (hrepeats.trans he)

theorem Records.mergeDefinition (h : r.Records xs) (source : Nat) (file : QueryFile) (x : Definition) :
    (Registry.mergeDefinition source file r x).Records (xs ++ [⟨source, file, x⟩]) := by
  cases x with
  | operation op => exact h.mergeOperation op
  | fragment frag => exact h.mergeFragment frag

theorem Records.merge (h : r.Records xs) (source : Nat) (file : QueryFile) :
    (r.merge source file).Records (xs ++ file.document.definitions.map (MergedDefinition.mk source file)) := by
  unfold Registry.merge
  generalize file.document.definitions = definitions
  induction definitions generalizing r xs with
  | nil =>
    rw [List.map_nil, List.append_nil]
    exact h
  | cons x rest ih =>
    have hrest := ih (h.mergeDefinition source file x)
    rwa [List.append_assoc] at hrest

/-- A registry that was made by merges has what the definitions leave. -/
theorem records_ofMerges (files : List (Nat × QueryFile)) : (ofMerges files).Records (mergedDefinitions files) := by
  induction files using List.reverseRecOn with
  | nil => exact records_empty
  | append_singleton files f ih =>
    unfold ofMerges mergedDefinitions
    rw [List.foldl_append, List.flatMap_append, List.flatMap_singleton]
    exact ih.merge f.1 f.2

theorem Records.names (h : r.Records xs) :
    r.names = ((mergedFragments xs).map RegisteredFragment.name).eraseDups := by
  rw [names_eq, OrderedSet.toList_ofList, h.fragments, eraseDups_names_keptOf]

end Records

/-! ## The first of a name wins -/

/-- In what a registry records, the first of a name wins. -/
structure FirstWins (r : Registry) (xs : List MergedDefinition) : Prop extends r.Records xs where
  /-- The index leads from a name to the first fragment of that name that was kept. -/
  leads : ∀ name, r.firstAt.find? name = r.fragments.findIdx? fun f => f.name == name
  /-- A name stands for the first fragment that was merged under it. -/
  standsFor : ∀ name, r.fragment? name = firstNamed name (mergedFragments xs)
  /-- The names of fragments are listed once, in order of first appearance. -/
  names : r.names = ((mergedFragments xs).map RegisteredFragment.name).eraseDups
  /-- So are the fragments that they stand for. -/
  canonical : r.canonical = r.names.filterMap fun name => firstNamed name (mergedFragments xs)
  canonicalNames : r.canonical.map RegisteredFragment.name = r.names

theorem mergedFragments_append (files more : List (Nat × QueryFile)) :
    mergedFragments (mergedDefinitions (files ++ more)) =
      mergedFragments (mergedDefinitions files) ++ mergedFragments (mergedDefinitions more) := by
  unfold mergedFragments mergedDefinitions
  rw [List.flatMap_append, List.filterMap_append]

/-- After any sequence of merges a registry has the first of each name: its index leads to the first fragment of a name
that was kept, which is the first that was merged under it, and further merges do not change that. A fragment is dropped
just if it has the text of the one that its name stands for; those that are kept stand in the order of merging, and with
the number of the dropped they make up the number of the merged. The names and their fragments are listed once, in order
of first appearance, and the operations in the order of merging. A name is defined in the source of the first operation
or fragment of that name. -/
theorem ofMerges_firstWins (files : List (Nat × QueryFile)) :
    (ofMerges files).FirstWins (mergedDefinitions files) ∧
    ∀ more name, (ofMerges (files ++ more)).fragment? name =
      ((ofMerges files).fragment? name).or (firstNamed name (mergedFragments (mergedDefinitions more))) := by
  have h := records_ofMerges files
  refine ⟨{ h with
      leads := (ofMerges files).indexed.find?_eq
      standsFor := h.fragment?
      names := h.names
      canonical := ?_
      canonicalNames := names_canonical _ }, ?_⟩
  · rw [canonical_eq]
    exact List.filterMap_congr fun name _ => h.fragment? name
  · intro more name
    rw [(records_ofMerges (files ++ more)).fragment?, h.fragment?, mergedFragments_append]
    exact List.find?_append

/-! ## Fragments that are kept twice -/

/-- Fragments of one name and text are kept twice only if they differ from the fragment that their name stands for. If
all names of a file have come up, then merging it adds just those of its fragments that differ from the ones that their
names stand for. -/
theorem ofMerges_deduplicated (files : List (Nat × QueryFile)) :
    ((ofMerges files).fragments.Pairwise fun f g => f.name = g.name → f.text = g.text →
      ∃ first, (ofMerges files).fragment? f.name = some first ∧ first.text ≠ f.text) ∧
    ∀ source file,
      (∀ frag ∈ file.document.fragments, ∃ f ∈ mergedFragments (mergedDefinitions files), f.name = frag.name.text) →
      ((ofMerges files).merge source file).fragments = (ofMerges files).fragments ++
        (file.document.fragments.map (RegisteredFragment.mk source)).filter fun g =>
          !((ofMerges files).fragment? g.name).any fun first => first.text == g.text := by
  have h := records_ofMerges files
  constructor
  · simp only [h.fragment?]
    rw [h.fragments]
    exact pairwise_keptOf _
  · intro source file hknown
    have hfile : mergedFragments (file.document.definitions.map (MergedDefinition.mk source file)) =
        file.document.fragments.map (RegisteredFragment.mk source) := by
      unfold mergedFragments Document.fragments
      rw [List.filterMap_map, List.map_filterMap]
      rfl
    have hnames : ∀ g ∈ file.document.fragments.map (RegisteredFragment.mk source),
        ∃ f ∈ mergedFragments (mergedDefinitions files), f.name = g.name := by
      intro g hg
      obtain ⟨frag, hfrag, rfl⟩ := List.mem_map.1 hg
      exact hknown frag hfrag
    have hmerged := (h.merge source file).fragments
    rw [mergedFragments, List.filterMap_append] at hmerged
    change _ = keptOf (mergedFragments _ ++ mergedFragments _) at hmerged
    rw [hmerged, hfile, keptOf_append hnames, h.fragments]
    simp only [h.fragment?]
    rfl

/-- Two files with fragments of one name and different texts. -/
def rivalFiles : List (Nat × QueryFile) :=
  [(0, Batch.sampleFile "a.js" "fragment F on T \x7b a \x7d"),
    (1, Batch.sampleFile "b.js" "fragment F on T \x7b b \x7d")]

/-- The second of them once more, with the fragment of the first. -/
def rivalFile : QueryFile := Batch.sampleFile "c.js" "fragment F on T \x7b b \x7d fragment F on T \x7b a \x7d"

theorem ofMerges_deduplicated_rivals :
    (∀ frag ∈ rivalFile.document.fragments,
      ∃ f ∈ mergedFragments (mergedDefinitions rivalFiles), f.name = frag.name.text) ∧
    ((ofMerges rivalFiles).merge 2 rivalFile).fragments = (ofMerges rivalFiles).fragments ++
      (rivalFile.document.fragments.map (RegisteredFragment.mk 2)).filter fun g =>
        !((ofMerges rivalFiles).fragment? g.name).any fun first => first.text == g.text := by
  have hknown : ∀ frag ∈ rivalFile.document.fragments,
      ∃ f ∈ mergedFragments (mergedDefinitions rivalFiles), f.name = frag.name.text := by
    decide +kernel
  exact ⟨hknown, (ofMerges_deduplicated rivalFiles).2 2 rivalFile hknown⟩

/-- A fragment that differs from the first of its name is kept each time it is merged. -/
theorem ofMerges_not_deduplicated :
    (¬ ∀ files, (ofMerges files).fragments.Pairwise fun f g => ¬ (f.name = g.name ∧ f.text = g.text)) ∧
    ¬ ∀ files source file, (∀ frag ∈ file.document.fragments,
        ∃ f ∈ mergedFragments (mergedDefinitions files), f.name = frag.name.text ∧ f.text = frag.text) →
      ((ofMerges files).merge source file).fragments = (ofMerges files).fragments := by
  constructor
  · intro h
    have hpairwise := h (rivalFiles ++ [(2, rivalFile)])
    revert hpairwise
    decide +kernel
  · intro h
    have hsame := congrArg List.length (h rivalFiles 2 rivalFile (by decide +kernel))
    revert hsame
    decide +kernel

end Registry

end QueryBatch
