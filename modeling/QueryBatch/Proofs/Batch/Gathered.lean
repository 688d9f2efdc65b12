import QueryBatch.Batch
import QueryBatch.Proofs.Rules.Alike

/-!
# What a batch gathers

* `validateStructural_eq_nil_iff`: a document passes just if no structural rule finds anything in it, and does so
  wherever it stands.
* `Registry.All`: all definitions of a registry have a property. `Batch.all_gather`: so it is if those of the files that
  pass have it.
-/

namespace QueryBatch

open Rules

/-! ## Structural validation -/

/-- Every finding of a structural rule is a diagnostic. -/
theorem Rules.exists_diagnostic {rule : Rule} (hrule : rule ∈ structuralRules) {cx : Context} {f : Finding}
    (hf : f ∈ rule cx) : ∃ d, f.diagnostic = some d := by
  have hlone : ∀ f ∈ loneAnonymous cx, ∃ d, f.diagnostic = some d := by
    intro f hf
    unfold loneAnonymous at hf
    split at hf
    · exact absurd hf List.not_mem_nil
    · obtain ⟨x, -, rfl⟩ := List.mem_map.1 hf
      exact ⟨_, rfl⟩
  have hsubjectwise : Subjectwise rule → ∃ d, f.diagnostic = some d := by
    intro h
    obtain ⟨s, -, d, rfl⟩ := h.accuses hf
    exact ⟨d, rfl⟩
  simp only [structuralRules, List.mem_cons, List.not_mem_nil, or_false] at hrule
  rcases hrule with rfl | rfl | rfl | rfl | rfl | rfl | rfl | rfl
  · exact hlone f hf
  · exact hsubjectwise local_knownTypes.subjectwise
  · exact hsubjectwise local_compositeConditions.subjectwise
  · exact hsubjectwise local_inputVariables.subjectwise
  · exact hsubjectwise local_scalarLeafs.subjectwise
  · exact hsubjectwise subjectwise_possibleSpreads
  · exact hsubjectwise local_correctValues.subjectwise
  · exact hsubjectwise subjectwise_variablePositions

theorem validateStructural_eq_nil_iff {schema : Schema} {source : Nat} {document : Document} :
    validateStructural schema source document = [] ↔
      ∀ rule ∈ structuralRules, rule (.ofDocument schema source document) = [] := by
  unfold validateStructural findings
  rw [List.filterMap_eq_nil_iff]
  constructor
  · intro h rule hrule
    refine List.eq_nil_iff_forall_not_mem.2 fun f hf => ?_
    obtain ⟨d, hd⟩ := exists_diagnostic hrule hf
    rw [h f (List.mem_flatMap.2 ⟨rule, hrule, hf⟩)] at hd
    cases hd
  · intro h f hf
    obtain ⟨rule, hrule, hf⟩ := List.mem_flatMap.1 hf
    rw [h rule hrule] at hf
    exact absurd hf List.not_mem_nil

/-- A document passes the structural rules wherever it stands. -/
theorem Batch.structural_of_source {schema : Schema} {source : Nat} {document : Document}
    (h : validateStructural schema source document = []) (source' : Nat) :
    validateStructural schema source' document = [] := by
  rw [validateStructural_eq_nil_iff] at h ⊢
  have hsubjects : (Context.ofDocument schema source document).subjects.map (Subject.recast .still) =
      (Context.ofDocument schema source' document).subjects.map (Subject.recast .still) := by
    unfold Context.ofDocument Context.of Context.numbered
    simp only [List.zipIdx_map, List.map_append, List.map_map]
    rfl
  have halike : (Context.ofDocument schema source document).Alike (.ofDocument schema source' document) .still .still :=
    Context.alike_of_filter rfl (congrArg _ hsubjects)
  have hsubjectwise : ∀ rule, Subjectwise rule → rule (.ofDocument schema source document) = [] →
      rule (.ofDocument schema source' document) = [] := by
    intro rule hrule
    refine hrule.nil_of_recast halike.recast_eq fun s' hs' => ?_
    have hmem := List.mem_map_of_mem (f := Subject.recast .still) hs'
    rw [← hsubjects] at hmem
    exact List.mem_map.1 hmem
  have hlone : loneAnonymous (.ofDocument schema source document) = [] →
      loneAnonymous (.ofDocument schema source' document) = [] := by
    unfold loneAnonymous Context.ofDocument
    simp only [Context.operations_of, List.zipIdx_map, List.map_map, List.length_map, List.filter_map]
    split
    · exact id
    · simp only [List.map_eq_nil_iff]
      exact id
  unfold structuralRules at h ⊢
  simp only [List.forall_mem_cons] at h ⊢
  obtain ⟨hlone', htypes, hconditions, hvariables, hleafs, hspreads, hvalues, hpositions, -⟩ := h
  exact ⟨hlone hlone', hsubjectwise _ local_knownTypes.subjectwise htypes,
    hsubjectwise _ local_compositeConditions.subjectwise hconditions,
    hsubjectwise _ local_inputVariables.subjectwise hvariables, hsubjectwise _ local_scalarLeafs.subjectwise hleafs,
    hsubjectwise _ subjectwise_possibleSpreads hspreads, hsubjectwise _ local_correctValues.subjectwise hvalues,
    hsubjectwise _ subjectwise_variablePositions hpositions, fun _ h => absurd h List.not_mem_nil⟩

/-! ## Definitions of documents -/

theorem Document.mem_operations {d : Document} {op : Operation} :
    op ∈ d.operations ↔ .operation op ∈ d.definitions := by
  unfold operations
  rw [List.mem_filterMap]
  constructor
  · rintro ⟨x, hx, hop⟩
    cases x with
    | operation _ => exact Option.some.inj hop ▸ hx
    | fragment _ => cases hop
  · exact fun hx => ⟨_, hx, rfl⟩

theorem Document.mem_fragments {d : Document} {frag : Fragment} :
    frag ∈ d.fragments ↔ .fragment frag ∈ d.definitions := by
  unfold fragments
  rw [List.mem_filterMap]
  constructor
  · rintro ⟨x, hx, hfrag⟩
    cases x with
    | operation _ => cases hfrag
    | fragment _ => exact Option.some.inj hfrag ▸ hx
  · exact fun hx => ⟨_, hx, rfl⟩

/-- Every definition of a document is looked at. -/
theorem Rules.Context.exists_mem_ofDocument {schema : Schema} {source : Nat} {document : Document} {x : Definition}
    (hx : x ∈ document.definitions) : ∃ s ∈ (Context.ofDocument schema source document).subjects, s.definition = x := by
  cases x with
  | operation op =>
    obtain ⟨i, hi⟩ := List.mem_iff_getElem?.1 (Document.mem_operations.2 hx)
    refine ⟨_, mem_subjects_of.2 (.inl ⟨i, (source, op), ?_, rfl⟩), rfl⟩
    rw [List.getElem?_map, hi, Option.map_some]
  | fragment frag =>
    obtain ⟨i, hi⟩ := List.mem_iff_getElem?.1 (Document.mem_fragments.2 hx)
    refine ⟨_, mem_subjects_of.2 (.inr ⟨i, (source, frag), ?_, rfl⟩), rfl⟩
    rw [List.getElem?_map, hi, Option.map_some]

/-! ## Registries -/

namespace Registry

variable {P : Nat → Definition → Prop} {r : Registry}

/-- All definitions of a registry, each with its source, have a property. -/
structure All (P : Nat → Definition → Prop) (r : Registry) : Prop where
  fragments : ∀ f ∈ r.fragments, P f.source (.fragment f.definition)
  operations : ∀ op ∈ r.operations, P op.source (.operation op.definition)

theorem all_empty (P : Nat → Definition → Prop) : Registry.All P {} :=
  ⟨fun _ h => absurd h List.not_mem_nil, fun _ h => absurd h List.not_mem_nil⟩

theorem All.mergeDefinition (h : r.All P) {source : Nat} (file : QueryFile) {x : Definition} (hx : P source x) :
    (mergeDefinition source file r x).All P := by
  cases x with
  | operation op =>
    refine ⟨h.fragments, fun other hother => ?_⟩
    rcases List.mem_append.1 hother with hother | hother
    · exact h.operations other hother
    · cases List.mem_singleton.1 hother
      exact hx
  | fragment frag =>
    unfold Registry.mergeDefinition mergeFragment
    dsimp only
    split
    · exact ⟨h.fragments, h.operations⟩
    · refine ⟨fun g hg => ?_, h.operations⟩
      rcases List.mem_append.1 hg with hg | hg
      · exact h.fragments g hg
      · cases List.mem_singleton.1 hg
        exact hx

theorem All.merge (h : r.All P) {source : Nat} {file : QueryFile}
    (hfile : ∀ x ∈ file.document.definitions, P source x) : (r.merge source file).All P := by
  unfold Registry.merge
  generalize file.document.definitions = definitions at hfile
  induction definitions generalizing r with
  | nil => exact h
  | cons x rest ih =>
    exact ih (h.mergeDefinition file (hfile x List.mem_cons_self)) fun y hy => hfile y (List.mem_cons_of_mem _ hy)

end Registry

/-- What holds of all definitions of the files that pass holds of those that are gathered. -/
theorem Batch.all_gather {P : Nat → Definition → Prop} {schema : Schema} {files : List QueryFile}
    (hfiles : ∀ source, ∀ file ∈ files, validateStructural schema source file.document = [] →
      ∀ x ∈ file.document.definitions, P source x) {source : Nat} {r r' : Registry} (hr : r.All P)
    (h : gather schema source r files = .ok r') : r'.All P := by
  induction files generalizing source r with
  | nil =>
    cases h
    exact hr
  | cons file rest ih =>
    rw [gather] at h
    split at h
    · rename_i hpasses
      exact ih (fun n f hf => hfiles n f (List.mem_cons_of_mem _ hf))
        (hr.merge (hfiles source file List.mem_cons_self hpasses)) h
    · cases h

/-! ## Where definitions come from -/

namespace Registry

variable {source : Nat} {name : String}

/-- A name stands for the fragment that it stood for, or for the one that was added. -/
theorem fragment?_mergeFragment (r : Registry) (source : Nat) (frag : Fragment) (name : String) :
    (r.mergeFragment source frag).fragment? name =
      (r.fragment? name).or (if frag.name.text = name then some ⟨source, frag⟩ else none) := by
  unfold mergeFragment
  dsimp only
  split
  · rename_i hknown
    obtain ⟨known, hfound, -⟩ := (Option.any_eq_true _ _).1 hknown
    by_cases hname : frag.name.text = name
    · subst hname
      rw [show r.fragment? frag.name.text = some known from hfound, Option.some_or]
      exact hfound
    · rw [if_neg hname, Option.or_none]
      rfl
  · exact fragment?_keep r _ name

/-- A name stands for the fragment that it stood for, or for the first of its name in the file that was merged. -/
theorem fragment?_merge (r : Registry) (source : Nat) (file : QueryFile) (name : String) :
    (r.merge source file).fragment? name = (r.fragment? name).or
      ((file.document.fragments.find? fun frag => frag.name.text == name).map (RegisteredFragment.mk source)) := by
  unfold merge Document.fragments
  generalize file.document.definitions = definitions
  induction definitions generalizing r with
  | nil => exact (Option.or_none).symm
  | cons x rest ih =>
    rw [List.foldl_cons, ih]
    cases x with
    | operation op => rfl
    | fragment frag =>
      rw [show mergeDefinition source file r (.fragment frag) = r.mergeFragment source frag from rfl,
        fragment?_mergeFragment, Option.or_assoc, List.filterMap_cons]
      congr 1
      simp only [Definition.fragment?, List.find?_cons]
      by_cases hname : frag.name.text = name
      · rw [if_pos hname, Option.some_or, beq_iff_eq.2 hname]
        rfl
      · rw [if_neg hname, Option.none_or, beq_eq_false_iff_ne.2 hname]

theorem mem_operations_merge {r : Registry} {file : QueryFile} {op : RegisteredOperation}
    (h : op ∈ (r.merge source file).operations) :
    op ∈ r.operations ∨ op.source = source ∧ op.definition ∈ file.document.operations := by
  unfold merge Document.operations at *
  generalize file.document.definitions = definitions at h ⊢
  induction definitions generalizing r with
  | nil => exact .inl h
  | cons x rest ih =>
    rcases ih h with hknown | ⟨hsource, hmem⟩
    · cases x with
      | operation op' =>
        rcases List.mem_append.1 hknown with hknown | hnew
        · exact .inl hknown
        · cases List.mem_singleton.1 hnew
          exact .inr ⟨rfl, List.mem_cons_self⟩
      | fragment frag =>
        refine .inl ?_
        unfold mergeDefinition mergeFragment at hknown
        dsimp only at hknown
        split at hknown <;> exact hknown
    · refine .inr ⟨hsource, ?_⟩
      cases x with
      | operation op' => exact List.mem_cons_of_mem _ hmem
      | fragment frag => exact hmem

end Registry

namespace Batch

variable {schema : Schema} {files : List QueryFile} {source : Nat} {r r' : Registry}

theorem gather_append (before after : List QueryFile) :
    gather schema source r (before ++ after) =
      (gather schema source r before).bind fun q => gather schema (source + before.length) q after := by
  induction before generalizing source r with
  | nil => rfl
  | cons file rest ih =>
    rw [List.cons_append, gather, gather]
    split
    · rw [ih, List.length_cons, Nat.add_assoc, Nat.add_comm 1]
    · rfl

/-- All sources of what is gathered are those of files. -/
theorem sources_gather {files : List QueryFile} (hr : r.All fun n _ => n < source)
    (h : gather schema source r files = .ok r') : r'.All fun n _ => n < source + files.length := by
  induction files generalizing source r with
  | nil =>
    cases h
    exact hr
  | cons file rest ih =>
    rw [gather] at h
    split at h
    · have hmerged : (r.merge source file).All fun n _ => n < source + 1 := by
        refine Registry.All.merge ⟨fun f hf => ?_, fun op hop => ?_⟩ fun _ _ => Nat.lt_succ_self source
        · exact Nat.lt_succ_of_lt (hr.fragments f hf)
        · exact Nat.lt_succ_of_lt (hr.operations op hop)
      rw [List.length_cons, Nat.add_comm rest.length, ← Nat.add_assoc]
      exact ih hmerged h
    · cases h

/-- The fragment that a name stands for was there before, or is the first of its name in its file. -/
theorem exists_file_of_fragment? (h : gather schema source r files = .ok r') {name : String} {f : RegisteredFragment}
    (hf : r'.fragment? name = some f) : r.fragment? name = some f ∨
      ∃ i file, files[i]? = some file ∧ f.source = source + i ∧
        (file.document.fragments.find? fun frag => frag.name.text == name) = some f.definition := by
  induction files generalizing source r with
  | nil =>
    cases h
    exact .inl hf
  | cons file rest ih =>
    rw [gather] at h
    split at h
    · rcases ih h with hmerged | ⟨i, file', hi, hsource, hfound⟩
      · rw [Registry.fragment?_merge] at hmerged
        rcases Option.or_eq_some_iff.1 hmerged with hknown | ⟨-, hnew⟩
        · exact .inl hknown
        · obtain ⟨frag, hfrag, rfl⟩ := Option.map_eq_some_iff.1 hnew
          exact .inr ⟨0, file, rfl, rfl, hfrag⟩
      · exact .inr ⟨i + 1, file', hi, by omega, hfound⟩
    · cases h

/-- An operation was there before, or stands in its file, which passes the structural rules. -/
theorem exists_file_of_operation (h : gather schema source r files = .ok r') {op : RegisteredOperation}
    (hop : op ∈ r'.operations) : op ∈ r.operations ∨
      ∃ i file, files[i]? = some file ∧ op.source = source + i ∧ op.definition ∈ file.document.operations ∧
        validateStructural schema (source + i) file.document = [] := by
  induction files generalizing source r with
  | nil =>
    cases h
    exact .inl hop
  | cons file rest ih =>
    rw [gather] at h
    split at h
    · rename_i hpasses
      rcases ih h with hmerged | ⟨i, file', hi, hsource, hmem, hpasses'⟩
      · rcases Registry.mem_operations_merge hmerged with hknown | ⟨hsource, hmem⟩
        · exact .inl hknown
        · exact .inr ⟨0, file, rfl, hsource, hmem, hpasses⟩
      · refine .inr ⟨i + 1, file', hi, by omega, hmem, ?_⟩
        rw [← Nat.add_assoc, Nat.add_right_comm]
        exact hpasses'
    · cases h

end Batch

end QueryBatch
