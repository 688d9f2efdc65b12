import QueryBatch.Proofs.Batch.MinimalText
import QueryBatch.Proofs.Rules.Overlap
import QueryBatch.Proofs.Rules.Rejection
import QueryBatch.Proofs.Rules.Variables

/-!
# Compiled operations are valid

* `mem_rejected`, `mem_tainted`: what a validation rejects is what its rules reject.
* `Plan.Compiles.embeds`: a compiled operation and the fragments of its closure are a context inside that of the batch,
  and `Plan.Compiles.spares`: no rule rejects any of them there.
* `Batch.compiled_operation_valid`: so the global rules find nothing in them alone.
* `Batch.reachable_batchContext`: the rules reach the same fragments from a selection set as the compiler.
-/

namespace QueryBatch

open Rules

/-! ## Validations -/

section Validations

variable {schema : Schema} {operations : List (Nat × Operation)} {fragments : List (Nat × Fragment)}

/-- The indices of the operations that rules reject. -/
theorem mem_rejected {index : Nat} : index ∈ (validateGlobal schema operations fragments).rejected ↔
    ∃ rule ∈ globalRules, Rejects rule (.of schema operations fragments) (.operation index) := by
  unfold validateGlobal findings Rejects
  simp only [OrderedSet.mem_ofList, List.mem_filterMap, List.mem_flatMap]
  constructor
  · rintro ⟨owner, ⟨f, ⟨rule, hrule, hf⟩, ho⟩, he⟩
    cases owner with
    | operation n =>
      cases he
      exact ⟨rule, hrule, f, hf, ho⟩
    | fragment n => cases he
  · rintro ⟨rule, hrule, f, hf, ho⟩
    exact ⟨_, ⟨f, ⟨rule, hrule, hf⟩, ho⟩, rfl⟩

/-- The names of the fragments that rules reject. -/
theorem mem_tainted {name : String} : name ∈ (validateGlobal schema operations fragments).tainted ↔
    ∃ rule ∈ globalRules, ∃ index x, Rejects rule (.of schema operations fragments) (.fragment index) ∧
      fragments[index]? = some x ∧ x.2.name.text = name := by
  unfold validateGlobal findings Rejects
  simp only [OrderedSet.mem_ofList, List.mem_filterMap, List.mem_flatMap]
  constructor
  · rintro ⟨owner, ⟨f, ⟨rule, hrule, hf⟩, ho⟩, he⟩
    cases owner with
    | operation n => cases he
    | fragment n =>
      obtain ⟨x, hx, hname⟩ := Option.map_eq_some_iff.1 he
      exact ⟨rule, hrule, n, x, ⟨f, hf, ho⟩, hx, hname⟩
  · rintro ⟨rule, hrule, index, x, ⟨f, hf, ho⟩, hx, hname⟩
    refine ⟨_, ⟨f, ⟨rule, hrule, hf⟩, ho⟩, ?_⟩
    dsimp only
    rw [hx, Option.map_some, hname]

/-- A validation whose rules find nothing says nothing and rejects nothing. -/
theorem validateGlobal_of_nil (h : ∀ rule ∈ globalRules, rule (.of schema operations fragments) = []) :
    (validateGlobal schema operations fragments).diagnostics = [] ∧
      (validateGlobal schema operations fragments).rejected.toList = [] ∧
      (validateGlobal schema operations fragments).tainted.toList = [] := by
  have hnone : findings globalRules (.of schema operations fragments) = [] := List.flatMap_eq_nil_iff.2 h
  unfold validateGlobal
  rw [hnone]
  exact ⟨rfl, rfl, rfl⟩

end Validations

namespace Rules

/-! ## All global rules -/

/-- A context with at most one operation has no operations of one name. -/
theorem uniqueOperationNames_singleton {schema : Schema} {op : Nat × Operation} {frags : List (Nat × Fragment)} :
    uniqueOperationNames (.of schema [op] frags) = [] := by
  refine List.map_eq_nil_iff.2 (repeats_eq_nil_iff.2 ?_)
  unfold namedOperations
  rw [Context.operations_of]
  cases h : op.2.name <;> simp [List.zipIdx, h]

/-- The global rules find nothing in an embedded context of one operation and differently named fragments that they
spare. -/
theorem globalRules_eq_nil {schema : Schema} {op : Nat × Operation} {frags : List (Nat × Fragment)} {whole : Context}
    {rename : Owner → Owner} (hnodup : (frags.map fun x => x.2.name.text).Nodup)
    (h : (Context.of schema [op] frags).Embeds whole rename)
    (hspares : ∀ rule ∈ globalRules, Spares (.of schema [op] frags) whole rename rule) :
    ∀ rule ∈ globalRules, rule (.of schema [op] frags) = [] := by
  have hinherit : ∀ rule ∈ globalRules, Inherits rule → rule (.of schema [op] frags) = [] := fun rule hrule hi =>
    hi _ _ _ h (hspares rule hrule)
  have hnames : uniqueFragmentNames (.of schema [op] frags) = [] := by
    refine uniqueFragmentNames_eq_nil_iff.2 ?_
    rw [Context.names_of]
    exact hnodup
  unfold globalRules at hinherit ⊢
  simp only [List.forall_mem_cons] at hinherit ⊢
  obtain ⟨-, hroot, hfields, -, hcycles, hunique, hdefined, hused, hdirectives, honce, harguments, hargument, hrequired,
    hoverlap, hinputs, -⟩ := hinherit
  exact ⟨uniqueOperationNames_singleton, hroot inherits_singleRootField, hfields inherits_knownFields, hnames,
    hcycles inherits_acyclicFragments, hunique inherits_uniqueVariables, hdefined inherits_definedVariables,
    hused inherits_usedVariables, hdirectives inherits_knownDirectives, honce inherits_uniqueDirectives,
    harguments inherits_knownArguments, hargument inherits_uniqueArguments, hrequired inherits_requiredArguments,
    hoverlap inherits_overlappingFields, hinputs inherits_uniqueInputFields, fun _ h => absurd h List.not_mem_nil⟩

end Rules

/-! ## Compiled operations -/

namespace Batch

/-- The fragments of a closure as a validation takes them. -/
def closureFragments (registry : Registry) (closure : Closure) : List (Nat × Fragment) :=
  (registry.neededBy closure).map fun f => (f.source, f.definition)

/-- What a validation sees of a compiled operation and the fragments of its closure. -/
def closureContext (schema : Schema) (registry : Registry) (op : RegisteredOperation) (closure : Closure) : Context :=
  .of schema [(op.source, op.definition)] (closureFragments registry closure)

/-- What a validation sees of a batch. -/
def batchContext (schema : Schema) (registry : Registry) : Context :=
  .of schema (registry.operations.map fun op => (op.source, op.definition))
    (registry.fragments.map fun f => (f.source, f.definition))

/-- The owners that the definitions of a closure have in the batch. -/
def batchOwner (registry : Registry) (index : Nat) (closure : Closure) : Owner → Owner :=
  ownerAmong index (closureFragments registry closure) (registry.fragments.map fun f => (f.source, f.definition))

section Compiled

variable {settings : Settings} {schema : Schema} {registry : Registry} {index : Nat} {op : RegisteredOperation}
  {closure : Closure}

theorem names_closureFragments (registry : Registry) (closure : Closure) :
    ((closureFragments registry closure).map fun x => x.2.name.text) =
      (registry.neededBy closure).map RegisteredFragment.name := by
  unfold closureFragments
  rw [List.map_map]
  rfl

theorem find?_of_mem_closureFragments {x : Nat × Fragment} (hx : x ∈ closureFragments registry closure) :
    (registry.fragments.map fun f => (f.source, f.definition)).find? (fun y => y.2.name.text == x.2.name.text) =
      some x := by
  obtain ⟨f, hf, rfl⟩ := List.mem_map.1 hx
  have hfound := (Registry.mem_neededBy.1 hf).1
  rw [List.find?_map]
  show (registry.fragments.find? fun g => g.name == f.name).map _ = _
  rw [← Registry.fragment?_eq, hfound]
  rfl

/-- Whatever a part of a compiled operation spreads is in the closure. -/
theorem Plan.Compiles.mem_names (h : (Plan.of settings schema registry).Compiles index op closure)
    {part : Nat × SelectionSet} (hpart : registry.Part (op.source, op.definition.body) part) {s : Spread}
    (hs : s ∈ part.2.spreads) : s.name.text ∈ (closureFragments registry closure).map fun x => x.2.name.text := by
  have hneeded : registry.IsNeeded op.definition.body (registry.neededBy closure) :=
    Registry.isNeeded_neededBy h.isClosureOf
  obtain ⟨f, hf, hname⟩ := hneeded.exists_mem hpart hs (h.fragment?_ne_none hpart hs)
  rw [names_closureFragments, ← hname]
  exact List.mem_map_of_mem hf

/-- A compiled operation and the fragments of its closure are a context inside that of the batch. -/
theorem Plan.Compiles.embeds (h : (Plan.of settings schema registry).Compiles index op closure) :
    (closureContext schema registry op closure).Embeds (batchContext schema registry)
      (batchOwner registry index closure) := by
  apply embeds_of
  · have hop : registry.operations[index]? = some op := h.getElem?
    rw [List.getElem?_map, hop]
    rfl
  · exact fun x hx => find?_of_mem_closureFragments hx
  · rw [names_closureFragments]
    exact (Registry.isNeeded_neededBy h.isClosureOf).nodup
  · exact fun s hs => h.mem_names .start hs
  · intro x hx s hs
    obtain ⟨f, hf, rfl⟩ := List.mem_map.1 hx
    obtain ⟨hfound, hmem⟩ := Registry.mem_neededBy.1 hf
    exact h.mem_names (.fragment ((h.isClosureOf.mem_fragments _).1 hmem) hfound) hs

/-- No global rule rejects a compiled operation or a fragment of its closure. -/
theorem Plan.Compiles.spares (h : (Plan.of settings schema registry).Compiles index op closure) {rule : Rule}
    (hrule : rule ∈ globalRules) :
    Spares (closureContext schema registry op closure) (batchContext schema registry)
      (batchOwner registry index closure) rule := by
  intro f hf s hs howner
  rcases Context.mem_subjects_of.1 hs with ⟨n, x, hx, rfl⟩ | ⟨n, x, hx, rfl⟩
  · cases n with
    | zero => exact h.not_rejected (mem_rejected.2 ⟨rule, hrule, f, hf, howner⟩)
    | succ n => cases hx
  · simp only [batchOwner, ownerAmong, hx] at howner
    have hplace := getElem?_findIdx (fun x hx => find?_of_mem_closureFragments hx) hx
    obtain ⟨g, hg, rfl⟩ := List.mem_map.1 (List.mem_of_getElem? hx)
    exact h.not_tainted (Registry.mem_neededBy.1 hg).2
      (mem_tainted.2 ⟨rule, hrule, _, _, ⟨f, hf, howner⟩, hplace, rfl⟩)

/-- A name stands for the same fragment in a registry and for the rules, which know it by its place in the registry. -/
theorem fragment?_batchContext (schema : Schema) (registry : Registry) (name : String) :
    (batchContext schema registry).fragment? name = (registry.fragment? name).map fun f =>
      (⟨.fragment (registry.fragments.findIdx fun f => f.name == name), f.source, .fragment f.definition⟩,
        f.definition) := by
  unfold batchContext
  rw [Context.fragment?_of, List.find?_map, List.findIdx_map, Option.map_map, Registry.fragment?_eq]
  rfl

theorem bodyOf_batchContext (schema : Schema) (registry : Registry) (name : String) :
    (batchContext schema registry).bodyOf name = registry.bodyOf name := by
  unfold Context.bodyOf
  rw [fragment?_batchContext, Option.map_map]
  rfl

/-- The rules and the compiler see the same fragments. Whatever was asked of a cache before, what the rules reach from
a selection set are the fragments of its closure, each once, and each is the one that its name stands for in the
registry. -/
theorem reachable_batchContext (schema : Schema) (registry : Registry) (history : List ClosureCache.Call)
    (source : Nat) (body : SelectionSet) :
    let reached := (batchContext schema registry).reachable body
    let closure := ((ClosureCache.after registry history).resolve registry source body).1
    (reached.map fun x => x.2.name.text).Nodup ∧
    (∀ name, name ∈ closure.fragments ↔ ∃ x ∈ reached, x.2.name.text = name) ∧
    ∀ x ∈ reached, ∃ f, registry.fragment? x.2.name.text = some f ∧ x.2 = f.definition ∧
      x.1 = ⟨.fragment (registry.fragments.findIdx fun f => f.name == x.2.name.text), f.source,
        .fragment f.definition⟩ := by
  have hsame : (batchContext schema registry).bodyOf = registry.bodyOf := funext (bodyOf_batchContext schema registry)
  have hclosure := (ClosureCache.resolve_spec (ClosureCache.holds_after registry history) source body).1
  refine ⟨Context.nodup_reachable _ body, fun name => ?_, fun x hx => ?_⟩
  · refine (hclosure.mem_fragments name).trans ⟨fun hreach => ?_, ?_⟩
    · rw [← hsame] at hreach
      obtain ⟨set, hset⟩ := hreach.exists_body
      obtain ⟨s, frag, hfound, -⟩ := Context.exists_of_bodyOf hset
      exact ⟨(s, frag), Context.mem_reachable.2 ⟨name, hreach, hfound⟩, Context.name_of_fragment? hfound⟩
    · rintro ⟨⟨s, frag⟩, hx, rfl⟩
      obtain ⟨name, hreach, hfound⟩ := Context.mem_reachable.1 hx
      rw [Context.name_of_fragment? hfound, ← hsame]
      exact hreach
  · obtain ⟨s, frag⟩ := x
    obtain ⟨name, -, hfound⟩ := Context.mem_reachable.1 hx
    rw [← Context.name_of_fragment? hfound, fragment?_batchContext] at hfound
    obtain ⟨f, hf, he⟩ := Option.map_eq_some_iff.1 hfound
    cases he
    exact ⟨f, hf, rfl, rfl⟩

/-- No fragment of the closure of a compiled operation reaches itself. -/
theorem Plan.Compiles.not_reaches (h : (Plan.of settings schema registry).Compiles index op closure) {name : String}
    (hname : name ∈ closure.fragments) {body : SelectionSet} (hbody : registry.bodyOf name = some body) :
    ¬ Reaches registry.bodyOf body name := by
  have hsame : (batchContext schema registry).bodyOf = registry.bodyOf := funext (bodyOf_batchContext schema registry)
  have hmem : name ∈ (closureContext schema registry op closure).names := by
    obtain ⟨f, hfound, -⟩ := Registry.exists_of_bodyOf hbody
    have hf := Registry.name_of_fragment? hfound
    unfold closureContext
    rw [Context.names_of, names_closureFragments, ← hf]
    refine List.mem_map_of_mem (Registry.mem_neededBy.2 ?_)
    rw [hf]
    exact ⟨hfound, hname⟩
  have hcyclic : acyclicFragments ∈ globalRules := by simp [globalRules]
  rw [← hsame] at hbody ⊢
  exact not_reaches_of_spares h.embeds (h.spares hcyclic) hmem hbody

/-- The global rules find nothing in a compiled operation and the fragments of its closure. -/
theorem Plan.Compiles.rules_eq_nil (h : (Plan.of settings schema registry).Compiles index op closure) :
    ∀ rule ∈ globalRules, rule (closureContext schema registry op closure) = [] := by
  have hnodup : ((closureFragments registry closure).map fun x => x.2.name.text).Nodup := by
    rw [names_closureFragments]
    exact (Registry.isNeeded_neededBy h.isClosureOf).nodup
  exact globalRules_eq_nil hnodup h.embeds fun rule hrule => h.spares hrule

/-- An operation that the compiler compiles is valid together with the canonical fragments of its closure alone: the
global rules report nothing and reject nothing. So none of them finds anything, and no fragment of the closure reaches
itself. The operations that are compiled with some closure are those that the run has compiled. -/
theorem compiled_operation_valid (settings : Settings) (schema : Schema) (registry : Registry) :
    (∀ index op closure, (Plan.of settings schema registry).Compiles index op closure →
      (let alone := validateGlobal schema [(op.source, op.definition)] (closureFragments registry closure)
       alone.diagnostics = [] ∧ alone.rejected.toList = [] ∧ alone.tainted.toList = []) ∧
      (∀ rule ∈ globalRules, rule (closureContext schema registry op closure) = []) ∧
      ∀ name ∈ closure.fragments, ∀ body, registry.bodyOf name = some body → ¬ Reaches registry.bodyOf body name) ∧
    ∀ op, op ∈ (compileOperations (Plan.of settings schema registry) 0 {} registry.operations).1.compiled ↔
      ∃ index closure, (Plan.of settings schema registry).Compiles index op closure := by
  refine ⟨fun index op closure h => ?_, fun op => mem_compiled_iff⟩
  have hrules := h.rules_eq_nil
  refine ⟨validateGlobal_of_nil hrules, hrules, fun name hname body hbody => ?_⟩
  exact h.not_reaches hname hbody

end Compiled

theorem compiled_operation_valid_sample : ∃ registry index op closure,
    gather sampleSchema 0 {} sampleFiles = .ok registry ∧
    (Plan.of {} sampleSchema registry).Compiles index op closure ∧ op.definition.displayName = "Q" ∧
    (let alone := validateGlobal sampleSchema [(op.source, op.definition)] (closureFragments registry closure)
     alone.diagnostics = [] ∧ alone.rejected.toList = [] ∧ alone.tainted.toList = []) := by
  obtain ⟨registry, index, op, closure, hgather, hcompiles, hname⟩ := sample_compiles
  have hvalid := ((compiled_operation_valid {} sampleSchema registry).1 index op closure hcompiles).1
  exact ⟨registry, index, op, closure, hgather, hcompiles, hname, hvalid⟩

end Batch

end QueryBatch
