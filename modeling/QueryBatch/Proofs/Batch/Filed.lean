import QueryBatch.Proofs.Batch.Gathered

/-!
# The files that definitions stand in

What is gathered from files is told by the files alone: the operations are theirs in order, and every fragment of a file
has a fragment of its name and text among those that are kept.

* `Batch.operationsFrom`: the operations of files. `operations_gather`: those are the ones that are gathered.
* `all_gather_of_getElem?`: a property of the definitions of each file, with its source, is one of what is gathered.
* `exists_gather`: files that pass one by one are gathered. `passes_of_gather`: no others are.
* `Registry.Knows`: a fragment of the same name and text was kept. `knows_gather`: so it is for all fragments of files.
-/

namespace QueryBatch

namespace Registry

/-! ## Merging a file -/

theorem mergeDefinition_operations (r : Registry) (source : Nat) (file : QueryFile) (x : Definition) :
    (mergeDefinition source file r x).operations =
      r.operations ++ x.operation?.toList.map (RegisteredOperation.mk source file) := by
  cases x with
  | operation op => rfl
  | fragment frag =>
    unfold mergeDefinition mergeFragment
    dsimp only
    split <;> exact (List.append_nil _).symm

theorem operations_merge (r : Registry) (source : Nat) (file : QueryFile) :
    (r.merge source file).operations =
      r.operations ++ file.document.operations.map (RegisteredOperation.mk source file) := by
  unfold merge Document.operations
  generalize file.document.definitions = definitions
  induction definitions generalizing r with
  | nil => exact (List.append_nil _).symm
  | cons x rest ih =>
    rw [List.foldl_cons, ih, mergeDefinition_operations, List.append_assoc]
    cases x <;> rfl

/-- A fragment with the name and text of another one was kept. -/
def Knows (r : Registry) (frag : Fragment) : Prop :=
  ∃ f ∈ r.fragments, f.name = frag.name.text ∧ f.text = frag.text

variable {r : Registry} {source : Nat} {file : QueryFile} {frag : Fragment}

theorem Knows.mergeDefinition (h : r.Knows frag) (x : Definition) :
    (mergeDefinition source file r x).Knows frag := by
  obtain ⟨f, hf, hname⟩ := h
  cases x with
  | operation op => exact ⟨f, hf, hname⟩
  | fragment new =>
    unfold Registry.mergeDefinition mergeFragment
    dsimp only
    split
    · exact ⟨f, hf, hname⟩
    · exact ⟨f, List.mem_append_left _ hf, hname⟩

/-- What is dropped was known before. -/
theorem knows_mergeFragment (r : Registry) (source : Nat) (frag : Fragment) :
    (r.mergeFragment source frag).Knows frag := by
  unfold mergeFragment
  dsimp only
  split
  · rename_i hknown
    obtain ⟨known, hfound, htext⟩ := (Option.any_eq_true _ _).1 hknown
    rw [fragment?_eq] at hfound
    exact ⟨known, List.mem_of_find?_eq_some hfound, beq_iff_eq.1 (List.find?_some hfound :), beq_iff_eq.1 htext⟩
  · exact ⟨_, List.mem_append_right _ (List.mem_singleton_self _), rfl, rfl⟩

theorem Knows.foldl (h : r.Knows frag) (definitions : List Definition) :
    (definitions.foldl (Registry.mergeDefinition source file) r).Knows frag := by
  induction definitions generalizing r with
  | nil => exact h
  | cons x rest ih => exact ih (h.mergeDefinition x)

theorem knows_merge (h : frag ∈ file.document.fragments) : (r.merge source file).Knows frag := by
  unfold Registry.merge Document.fragments at *
  generalize file.document.definitions = definitions at h ⊢
  induction definitions generalizing r with
  | nil => exact absurd h List.not_mem_nil
  | cons x rest ih =>
    rw [List.foldl_cons]
    cases x with
    | operation op => exact ih h
    | fragment new =>
      rcases List.mem_cons.1 h with rfl | h
      · exact (knows_mergeFragment r source frag).foldl rest
      · exact ih h

end Registry

namespace Batch

/-! ## Gathering files -/

/-- The operations of files, the first of which has the given source. -/
def operationsFrom (source : Nat) : List QueryFile → List RegisteredOperation
  | [] => []
  | file :: rest =>
    file.document.operations.map (RegisteredOperation.mk source file) ++ operationsFrom (source + 1) rest

theorem mem_operationsFrom {files : List QueryFile} {source : Nat} {op : RegisteredOperation} :
    op ∈ operationsFrom source files ↔
      ∃ i, files[i]? = some op.file ∧ op.source = source + i ∧ op.definition ∈ op.file.document.operations := by
  induction files generalizing source with
  | nil => simp [operationsFrom]
  | cons file rest ih =>
    rw [operationsFrom, List.mem_append, ih, List.mem_map]
    constructor
    · rintro (⟨definition, hmem, rfl⟩ | ⟨i, hi, hsource, hmem⟩)
      · exact ⟨0, rfl, rfl, hmem⟩
      · exact ⟨i + 1, hi, by omega, hmem⟩
    · rintro ⟨i, hi, hsource, hmem⟩
      cases i with
      | zero =>
        obtain ⟨n, file', definition⟩ := op
        cases hi
        cases hsource
        exact .inl ⟨definition, hmem, rfl⟩
      | succ i => exact .inr ⟨i, hi, by omega, hmem⟩

section Gather

variable {schema : Schema} {files : List QueryFile} {source : Nat} {r r' : Registry}

/-- The operations that are gathered are those of the files, in order. -/
theorem operations_gather (h : gather schema source r files = .ok r') :
    r'.operations = r.operations ++ operationsFrom source files := by
  induction files generalizing source r with
  | nil =>
    cases h
    exact (List.append_nil _).symm
  | cons file rest ih =>
    rw [gather] at h
    split at h
    · rw [ih h, Registry.operations_merge, List.append_assoc]
      rfl
    · cases h

/-- An operation that is gathered stands in the file of its source. -/
theorem file_of_operation (h : gather schema 0 {} files = .ok r) {op : RegisteredOperation}
    (hop : op ∈ r.operations) : files[op.source]? = some op.file ∧ op.definition ∈ op.file.document.operations := by
  rw [operations_gather h] at hop
  obtain ⟨i, hi, hsource, hmem⟩ := mem_operationsFrom.1 hop
  rw [hsource, Nat.zero_add]
  exact ⟨hi, hmem⟩

/-- What holds of the definitions of each file, with its source, holds of those that are gathered. -/
theorem all_gather_of_getElem? {P : Nat → Definition → Prop} (hr : r.All P)
    (hfiles : ∀ i file, files[i]? = some file → ∀ x ∈ file.document.definitions, P (source + i) x)
    (h : gather schema source r files = .ok r') : r'.All P := by
  induction files generalizing source r with
  | nil =>
    cases h
    exact hr
  | cons file rest ih =>
    rw [gather] at h
    split at h
    · refine ih (hr.merge (hfiles 0 file rfl)) (fun i file' hi x hx => ?_) h
      rw [Nat.add_right_comm]
      exact hfiles (i + 1) file' hi x hx
    · cases h

/-- Every definition that is gathered stands in the file of its source. -/
theorem all_gather_file (h : gather schema 0 {} files = .ok r) :
    r.All fun n x => ∃ file, files[n]? = some file ∧ x ∈ file.document.definitions := by
  refine all_gather_of_getElem? (Registry.all_empty _) (fun i file hi x hx => ?_) h
  rw [Nat.zero_add]
  exact ⟨file, hi, hx⟩

/-- Files that are gathered pass the structural rules. -/
theorem passes_of_gather (h : gather schema source r files = .ok r') {file : QueryFile} (hfile : file ∈ files) :
    validateStructural schema 0 file.document = [] := by
  induction files generalizing source r with
  | nil => exact absurd hfile List.not_mem_nil
  | cons first rest ih =>
    rw [gather] at h
    split at h
    · rename_i hpasses
      rcases List.mem_cons.1 hfile with rfl | hfile
      · exact structural_of_source hpasses 0
      · exact ih h hfile
    · cases h

theorem exists_gather (h : ∀ file ∈ files, validateStructural schema 0 file.document = []) :
    ∃ r', gather schema source r files = .ok r' := by
  induction files generalizing source r with
  | nil => exact ⟨r, rfl⟩
  | cons file rest ih =>
    rw [gather, structural_of_source (h file List.mem_cons_self) source]
    exact ih fun f hf => h f (List.mem_cons_of_mem _ hf)

theorem knows_gather_of_knows {frag : Fragment} (hr : r.Knows frag) (h : gather schema source r files = .ok r') :
    r'.Knows frag := by
  induction files generalizing source r with
  | nil =>
    cases h
    exact hr
  | cons file rest ih =>
    rw [gather] at h
    split at h
    · exact ih (hr.foldl file.document.definitions) h
    · cases h

/-- Of every fragment of a file one of its name and text is gathered. -/
theorem knows_gather (h : gather schema source r files = .ok r') {file : QueryFile} (hfile : file ∈ files)
    {frag : Fragment} (hfrag : frag ∈ file.document.fragments) : r'.Knows frag := by
  induction files generalizing source r with
  | nil => exact absurd hfile List.not_mem_nil
  | cons first rest ih =>
    rw [gather] at h
    split at h
    · rcases List.mem_cons.1 hfile with rfl | hfile
      · exact knows_gather_of_knows (Registry.knows_merge hfrag) h
      · exact ih h hfile
    · cases h

end Gather

end Batch

end QueryBatch
