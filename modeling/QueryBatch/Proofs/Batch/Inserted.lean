import QueryBatch.Proofs.Batch.Gathered
import QueryBatch.Proofs.Batch.Validation
import QueryBatch.Proofs.Rules.Widened

/-!
# One file more

A file with one operation and no fragments is put in among the files of a batch.

* `Registry.Inserted`: what is gathered then is what was gathered, and the operation. `exists_gather_insert`.
* `Progress.Follows`: the run of the one batch has made the same as that of the other. `Progress.Follows.run`: so it
  goes on, if the rules let the same operations pass.
* `admits_moved_iff`: the rules let the same operations pass, if the new operation burdens no fragment with a
  conflict, save those that are rejected anyway.
* `Batch.compile_insert`: so the batch has the same queries for all other files.
* `Batch.compile_insert_interferes`: in general it has not.
-/

namespace QueryBatch

open Rules

/-! ## Registries -/

/-- A fragment of a file that has another place. -/
def RegisteredFragment.moved (place : Nat → Nat) (f : RegisteredFragment) : RegisteredFragment :=
  { f with source := place f.source }

/-- An operation of a file that has another place. -/
def RegisteredOperation.moved (place : Nat → Nat) (op : RegisteredOperation) : RegisteredOperation :=
  { op with source := place op.source }

namespace Registry

/-- A registry has what another one has, from files that have other places, and a new operation. -/
structure Inserted (place : Nat → Nat) (new : RegisteredOperation) (r r' : Registry) : Prop where
  fragments : r'.fragments = r.fragments.map (RegisteredFragment.moved place)
  operations : ∃ before after, r.operations = before ++ after ∧
    r'.operations = before.map (RegisteredOperation.moved place) ++ new :: after.map (RegisteredOperation.moved place)

section Inserted

variable {place : Nat → Nat} {new : RegisteredOperation} {r r' : Registry} {closure closure' : Closure}
  {source source' : Nat} {body : SelectionSet}

theorem Inserted.fragment?_eq (h : Inserted place new r r') (name : String) :
    r'.fragment? name = (r.fragment? name).map (RegisteredFragment.moved place) := by
  rw [Registry.fragment?_eq, Registry.fragment?_eq, h.fragments, List.find?_map]
  rfl

theorem Inserted.bodyOf_eq (h : Inserted place new r r') : r'.bodyOf = r.bodyOf := by
  funext name
  unfold bodyOf
  rw [h.fragment?_eq, Option.map_map]
  rfl

theorem Inserted.canonical_eq (h : Inserted place new r r') :
    r'.canonical = r.canonical.map (RegisteredFragment.moved place) := by
  have hnames : r'.names = r.names := by
    rw [names_eq, names_eq, h.fragments, List.map_map]
    rfl
  rw [Registry.canonical_eq, Registry.canonical_eq, hnames, List.map_filterMap]
  exact List.filterMap_congr fun name _ => h.fragment?_eq name

/-- An operation has the same text, with whatever closures of its selection set. -/
theorem Inserted.minimalDocument_eq (h : Inserted place new r r') {op : Operation}
    (hc : closure.IsClosureOf r source op.body) (hc' : closure'.IsClosureOf r' source' op.body) :
    minimalDocument r' closure' op = minimalDocument r closure op := by
  have hneeded : r'.canonical.filter (fun f => f.name ∈ closure'.fragments) =
      (r.canonical.filter fun f => f.name ∈ closure.fragments).map (RegisteredFragment.moved place) := by
    rw [h.canonical_eq, List.filter_map]
    refine congrArg _ (List.filter_congr fun f _ => decide_eq_decide.2 ?_)
    rw [hc.mem_fragments, hc'.mem_fragments, h.bodyOf_eq]
    exact Iff.rfl
  unfold minimalDocument
  rw [hneeded]
  dsimp only
  rw [List.map_map]
  rfl

/-! ### Merging -/

theorem Inserted.mergeDefinition (h : Inserted place new r r') (file : QueryFile) (x : Definition) :
    Inserted place new (mergeDefinition source file r x) (mergeDefinition (place source) file r' x) := by
  cases x with
  | operation op =>
    obtain ⟨before, after, hr, hr'⟩ := h.operations
    refine ⟨h.fragments, before, after ++ [⟨source, file, op⟩], ?_, ?_⟩
    · show r.operations ++ _ = _
      rw [hr, List.append_assoc]
    · show r'.operations ++ _ = _
      rw [hr', List.map_append, List.append_assoc]
      rfl
  | fragment frag =>
    have hknown : ∀ f : RegisteredFragment, (r'.fragment? (f.moved place).name).any (fun known =>
        known.text == (f.moved place).text) = (r.fragment? f.name).any fun known => known.text == f.text := by
      intro f
      rw [h.fragment?_eq, Option.any_map]
      rfl
    unfold Registry.mergeDefinition mergeFragment
    dsimp only
    rw [show (⟨place source, frag⟩ : RegisteredFragment) = RegisteredFragment.moved place ⟨source, frag⟩ from rfl,
      hknown]
    split
    · exact ⟨h.fragments, h.operations⟩
    · refine ⟨?_, h.operations⟩
      rw [fragments_keep, fragments_keep, h.fragments, List.map_append, List.map_singleton]

theorem Inserted.merge (h : Inserted place new r r') (file : QueryFile) :
    Inserted place new (r.merge source file) (r'.merge (place source) file) := by
  unfold Registry.merge
  generalize file.document.definitions = definitions
  induction definitions generalizing r r' with
  | nil => exact h
  | cons x rest ih => exact ih (h.mergeDefinition file x)

end Inserted

end Registry

/-! ## Gathering -/

namespace Batch

section Gather

variable {schema : Schema} {file : QueryFile} {op : Operation} {place : Nat → Nat} {new : RegisteredOperation}
  {r r' q : Registry} {source source' : Nat}

/-- More files are gathered alike behind what differs by an operation. -/
theorem exists_gather_inserted {files : List QueryFile} (h : Registry.Inserted place new r r')
    (hplace : ∀ i, place (source + i) = source' + i) (hgather : gather schema source r files = .ok q) :
    ∃ q', gather schema source' r' files = .ok q' ∧ Registry.Inserted place new q q' := by
  induction files generalizing source source' r r' with
  | nil =>
    cases hgather
    exact ⟨r', rfl, h⟩
  | cons file rest ih =>
    rw [gather] at hgather
    split at hgather
    · rename_i hpasses
      have hhere : place source = source' := hplace 0
      have hrest : ∀ i, place (source + 1 + i) = source' + 1 + i := fun i => by
        rw [Nat.add_assoc, hplace, Nat.add_assoc]
      obtain ⟨q', hq', hinserted⟩ := ih (hhere ▸ h.merge file) hrest hgather
      refine ⟨q', ?_, hinserted⟩
      rw [gather, structural_of_source hpasses source']
      exact hq'
    · cases hgather

/-- What is gathered once a file with one operation is put in. -/
theorem exists_gather_insert {before after : List QueryFile}
    (hgather : gather schema 0 {} (before ++ after) = .ok r)
    (hfile : validateStructural schema 0 file.document = [])
    (hdefinitions : file.document.definitions = [.operation op]) :
    ∃ r', gather schema 0 {} (before ++ file :: after) = .ok r' ∧
      Registry.Inserted (stepOver before.length) ⟨before.length, file, op⟩ r r' := by
  rw [gather_append] at hgather ⊢
  cases hbefore : gather schema 0 {} before with
  | error fault =>
    rw [hbefore] at hgather
    cases hgather
  | ok q =>
    rw [hbefore] at hgather
    have hsources := sources_gather (Registry.all_empty _) hbefore
    rw [Nat.zero_add] at hsources
    have hinserted : Registry.Inserted (stepOver before.length) ⟨before.length, file, op⟩ q
        (q.merge before.length file) := by
      have hfixed : ∀ n < before.length, stepOver before.length n = n := fun n hn => stepOver_of_lt hn
      have hfragments : q.fragments.map (RegisteredFragment.moved (stepOver before.length)) = q.fragments := by
        refine (List.map_congr_left fun f hf => ?_).trans (List.map_id _)
        unfold RegisteredFragment.moved
        rw [hfixed _ (hsources.fragments f hf)]
        rfl
      have hoperations : q.operations.map (RegisteredOperation.moved (stepOver before.length)) = q.operations := by
        refine (List.map_congr_left fun op hop => ?_).trans (List.map_id _)
        unfold RegisteredOperation.moved
        rw [hfixed _ (hsources.operations op hop)]
        rfl
      have hmerged : q.merge before.length file = q.mergeOperation before.length file op := by
        unfold Registry.merge
        rw [hdefinitions]
        rfl
      rw [hmerged]
      exact ⟨hfragments.symm, q.operations, [], (List.append_nil _).symm, by rw [hoperations]; rfl⟩
    have hplace : ∀ i, stepOver before.length (0 + before.length + i) = before.length + 1 + i := fun i => by
      rw [Nat.zero_add, stepOver_add]
    obtain ⟨q', hq', hinserted'⟩ := exists_gather_inserted hinserted hplace hgather
    refine ⟨q', ?_, hinserted'⟩
    show gather schema (0 + before.length) q (file :: after) = _
    rw [gather, structural_of_source hfile, Nat.zero_add]
    exact hq'

end Gather

/-! ## Two runs -/

/-- The run of a batch with one file more, whose path is given, has made the same of all other files. -/
structure Progress.Follows (plan plan' : Plan) (place : Nat → Nat) (path : String) (p p' : Progress) : Prop where
  holds : ClosureCache.Holds plan.registry p.cache.entries
  holds' : ClosureCache.Holds plan'.registry p'.cache.entries
  compiled : ∀ source,
    (∃ other ∈ p'.compiled, other.source = place source) ↔ ∃ other ∈ p.compiled, other.source = source
  queries : ∀ other, other ≠ path → p'.queries.find? other = p.queries.find? other

section Follows

variable {plan plan' : Plan} {place : Nat → Nat} {new op : RegisteredOperation} {p p' : Progress} {index index' : Nat}

/-- The step for an operation that was there before. -/
theorem Progress.Follows.step (h : p.Follows plan plan' place new.file.path p')
    (hsettings : plan'.settings = plan.settings)
    (hregistry : Registry.Inserted place new plan.registry plan'.registry) (hplace : Function.Injective place)
    (hhook : ∀ file, refusesHook plan.settings file = false)
    (hadmits : plan.Admits index op ↔ plan'.Admits index' (op.moved place)) :
    ∃ q q', compileOperation plan p index op = .ok q ∧ compileOperation plan' p' index' (op.moved place) = .ok q' ∧
      q.Follows plan plan' place new.file.path q' := by
  obtain ⟨q, hq, hholds, hcases⟩ := @compileOperation_next plan p index op h.holds (hhook _)
  obtain ⟨q', hq', hholds', hcases'⟩ := @compileOperation_next plan' p' index' (op.moved place) h.holds'
    (by rw [hsettings]; exact hhook _)
  have htakes : plan.Takes p.compiled index op ↔ plan'.Takes p'.compiled index' (op.moved place) := by
    refine and_congr hadmits ?_
    have hfirst := not_congr (h.compiled op.source)
    simp only [not_exists, not_and] at hfirst
    exact hfirst.symm
  rcases hcases with ⟨htaken, hcompiled, closure, hclosure, hqueries⟩ | ⟨hleft, hcompiled, hqueries⟩
  · obtain ⟨-, hcompiled', closure', hclosure', hqueries'⟩ :=
      hcases'.resolve_right fun hleft => hleft.1 (htakes.1 htaken)
    have hquery : plan'.queryOf (op.moved place) closure' = plan.queryOf op closure := by
      have htext : minimalDocument plan'.registry closure' op.definition = _ :=
        hregistry.minimalDocument_eq hclosure hclosure'
      unfold Plan.queryOf
      rw [hsettings, show (op.moved place).definition = op.definition from rfl, htext]
      rfl
    refine ⟨q, q', hq, hq', hholds, hholds', fun source => ?_, fun other hother => ?_⟩
    · have hsource : (op.moved place).source = place source ↔ op.source = source := hplace.eq_iff
      rw [hcompiled, hcompiled']
      simp only [List.mem_append, List.mem_singleton, or_and_right, exists_or, exists_eq_left, h.compiled, hsource]
    · rw [hqueries, hqueries', OrderedMap.find?_insert, OrderedMap.find?_insert, hquery, h.queries other hother]
      rfl
  · obtain ⟨-, hcompiled', hqueries'⟩ := hcases'.resolve_left fun htaken => hleft (htakes.2 htaken.1)
    refine ⟨q, q', hq, hq', hholds, hholds', ?_, ?_⟩
    · rw [hcompiled, hcompiled']
      exact h.compiled
    · rw [hqueries, hqueries']
      exact h.queries

/-- The step for the new operation. -/
theorem Progress.Follows.step_new (h : p.Follows plan plan' place new.file.path p')
    (hnew : ∀ source, place source ≠ new.source) (hhook : refusesHook plan'.settings new.file = false) :
    ∃ q', compileOperation plan' p' index' new = .ok q' ∧ p.Follows plan plan' place new.file.path q' := by
  obtain ⟨q', hq', hholds', hcases'⟩ := @compileOperation_next plan' p' index' new h.holds' hhook
  refine ⟨q', hq', h.holds, hholds', ?_, ?_⟩
  · rcases hcases' with ⟨-, hcompiled', -⟩ | ⟨-, hcompiled', -⟩
    · intro source
      rw [hcompiled', ← h.compiled]
      simp only [List.mem_append, List.mem_singleton, or_and_right, exists_or, exists_eq_left, (hnew source).symm,
        or_false]
    · rw [hcompiled']
      exact h.compiled
  · rcases hcases' with ⟨-, -, closure', -, hqueries'⟩ | ⟨-, -, hqueries'⟩
    · intro other hother
      rw [hqueries', OrderedMap.find?_insert, if_neg (Ne.symm hother)]
      exact h.queries other hother
    · rw [hqueries']
      exact h.queries

/-- The runs over operations that were there before. -/
theorem Progress.Follows.run (new : RegisteredOperation) {ops : List RegisteredOperation}
    (h : p.Follows plan plan' place new.file.path p') (hsettings : plan'.settings = plan.settings)
    (hregistry : Registry.Inserted place new plan.registry plan'.registry) (hplace : Function.Injective place)
    (hhook : ∀ file, refusesHook plan.settings file = false)
    (hadmits : ∀ i op, ops[i]? = some op → (plan.Admits (index + i) op ↔ plan'.Admits (index' + i) (op.moved place))) :
    ∃ q q', compileOperations plan index p ops = (q, none) ∧
      compileOperations plan' index' p' (ops.map (RegisteredOperation.moved place)) = (q', none) ∧
      q.Follows plan plan' place new.file.path q' := by
  induction ops generalizing index index' p p' with
  | nil => exact ⟨p, p', rfl, rfl, h⟩
  | cons op rest ih =>
    obtain ⟨q, q', hq, hq', hnext⟩ := h.step hsettings hregistry hplace hhook (hadmits 0 op rfl)
    have hrest : ∀ i op, rest[i]? = some op →
        (plan.Admits (index + 1 + i) op ↔ plan'.Admits (index' + 1 + i) (op.moved place)) := by
      intro i op hi
      rw [Nat.add_assoc, Nat.add_assoc, Nat.add_comm 1]
      exact hadmits (i + 1) op hi
    obtain ⟨e, e', he, he', hend⟩ := ih hnext hrest
    exact ⟨e, e', compileOperations_cons_iff.2 ⟨q, hq, he⟩, compileOperations_cons_iff.2 ⟨q', hq', he'⟩, hend⟩

end Follows

/-! ## What the rules let pass -/

/-- The names of the fragments of a registry that rules reject. -/
theorem mem_tainted_of_registry {settings : Settings} {schema : Schema} {r : Registry} {name : String} :
    name ∈ (Plan.of settings schema r).validation.tainted ↔ ∃ rule ∈ globalRules, ∃ index f,
      Rejects rule (batchContext schema r) (.fragment index) ∧ r.fragments[index]? = some f ∧ f.name = name := by
  refine mem_tainted.trans (exists_congr fun rule => and_congr_right fun _ => exists_congr fun index => ?_)
  simp only [List.getElem?_map, Option.map_eq_some_iff]
  constructor
  · rintro ⟨_, hrejects, ⟨f, hf, rfl⟩, hname⟩
    exact ⟨f, hrejects, hf, hname⟩
  · rintro ⟨f, hrejects, hf, hname⟩
    exact ⟨_, hrejects, ⟨f, hf, rfl⟩, hname⟩

theorem mem_subjects_of_fragments {schema : Schema} {r : Registry} {n : Nat} {f : RegisteredFragment}
    (h : r.fragments[n]? = some f) :
    (⟨.fragment n, f.source, .fragment f.definition⟩ : Subject) ∈ (batchContext schema r).subjects := by
  refine Context.mem_subjects_of.2 (.inr ⟨n, (f.source, f.definition), ?_, rfl⟩)
  rw [List.getElem?_map, h]
  rfl

/-- The fragments that hold the fields of the conflicts which are met in an operation, when it is validated with the
fragments of a registry. -/
def burdened (schema : Schema) (registry : Registry) (op : Operation) : List String :=
  (conflicts (.of schema [(0, op)] (registry.fragments.map fun f => (f.source, f.definition)))).flatMap fun (s, c) =>
    if s.owner = .operation 0 then
      [c.first, c.second].filterMap fun p => p.subject.definition.fragment?.map fun frag => frag.name.text
    else []

section Admits

variable {settings : Settings} {schema : Schema} {place : Nat → Nat} {new : RegisteredOperation} {r r' : Registry}
  {before after : List RegisteredOperation}

variable (hinserted : Registry.Inserted place new r r') (hops : r.operations = before ++ after)
  (hops' : r'.operations = before.map (RegisteredOperation.moved place) ++
    new :: after.map (RegisteredOperation.moved place))
include hinserted hops hops'

theorem widened_batchContext : (batchContext schema r).Widened (batchContext schema r') (.past before.length)
    ⟨.operation before.length, new.source, .operation new.definition⟩ := by
  unfold batchContext
  rw [hinserted.fragments, hops, hops', List.map_append, List.map_append, List.map_cons]
  have hwidened := @widened_of schema (before.map fun op => (op.source, op.definition))
    ((before.map (RegisteredOperation.moved place)).map fun op => (op.source, op.definition))
    (after.map fun op => (op.source, op.definition))
    ((after.map (RegisteredOperation.moved place)).map fun op => (op.source, op.definition))
    (new.source, new.definition) (r.fragments.map fun f => (f.source, f.definition))
    ((r.fragments.map (RegisteredFragment.moved place)).map fun f => (f.source, f.definition))
    (by simp only [List.map_map]; rfl) (by simp only [List.map_map]; rfl) (by simp only [List.map_map]; rfl)
  rwa [List.length_map] at hwidened

omit hops hops' in
/-- A fragment that is blamed for a conflict which is met in the new operation is burdened. -/
theorem mem_burdened_of_blames {t' : Subject} (hblames : (batchContext schema r').Blames
      ⟨.operation before.length, new.source, .operation new.definition⟩ t') {frag' : Fragment}
    (hfrag' : t'.definition = .fragment frag') : frag'.name.text ∈ burdened schema r new.definition := by
  -- the operation alone has the index 0
  have halike : (Context.of schema [(0, new.definition)] (r.fragments.map fun f => (f.source, f.definition))).Alike
      (batchContext schema r') ⟨Owner.elim (fun _ => .operation before.length) .fragment, fun _ => id⟩ .still := by
    unfold batchContext
    rw [hinserted.fragments]
    exact Context.alike_of (by simp only [List.map_map]; rfl) (fun _ => rfl) fun _ => rfl
  obtain ⟨t, ⟨c, hc, ht⟩, hsame⟩ := halike.exists_blames Recast.faithful_still
    (Context.mem_subjects_of.2 (.inl ⟨0, (0, new.definition), rfl, rfl⟩)) rfl hblames
  have hname : (t.definition.fragment?.map fun frag => frag.name.text) = some frag'.name.text := by
    rw [← Subject.fragmentName_recast, hsame, Subject.fragmentName_recast, hfrag']
    rfl
  refine List.mem_flatMap.2 ⟨_, hc, ?_⟩
  dsimp only
  rw [if_pos rfl, List.mem_filterMap]
  rcases ht with rfl | rfl | rfl
  · cases hname
  · exact ⟨c.first, List.mem_cons_self, hname⟩
  · exact ⟨c.second, List.mem_cons_of_mem _ (List.mem_singleton_self _), hname⟩

variable (hname : ∀ name ∈ new.definition.name, ∀ other ∈ r.operations, ∀ name' ∈ other.definition.name,
  name'.text ≠ name.text)
include hname

omit hinserted hops hops' in
/-- The name of the new operation is not used. -/
theorem operationName_fresh : ∀ x ∈ (batchContext schema r).operationNames,
    ∀ y ∈ Subject.operationName? ⟨.operation before.length, new.source, .operation new.definition⟩, x.2 ≠ y.2 := by
  intro x hx y hy
  obtain ⟨s, hs, hx⟩ := List.mem_filterMap.1 hx
  obtain ⟨op, hop, hx⟩ := Option.bind_eq_some_iff.1 hx
  obtain ⟨name', hname', rfl⟩ := Option.map_eq_some_iff.1 hx
  obtain ⟨name, hnew, rfl⟩ := Option.map_eq_some_iff.1 hy
  rcases Context.mem_subjects_of.1 hs with ⟨i, z, hz, rfl⟩ | ⟨i, z, hz, rfl⟩
  · obtain ⟨other, hother, rfl⟩ := List.mem_map.1 (List.mem_of_getElem? hz)
    cases hop
    exact hname name hnew other hother name' hname'
  · cases hop

theorem mem_rejected_moved_iff {i : Nat} {op : RegisteredOperation} (hop : r.operations[i]? = some op) :
    i ∈ (Plan.of settings schema r).validation.rejected ↔
      stepOver before.length i ∈ (Plan.of settings schema r').validation.rejected := by
  have hwidened : (batchContext schema r).Widened (batchContext schema r') _ _ :=
    widened_batchContext hinserted hops hops'
  have hs : (⟨.operation i, op.source, .operation op.definition⟩ : Subject) ∈ (batchContext schema r).subjects := by
    refine Context.mem_subjects_of.2 (.inl ⟨i, (op.source, op.definition), ?_, rfl⟩)
    rw [List.getElem?_map, hop]
    rfl
  obtain ⟨s', hs', hsame⟩ := hwidened.exists_image hs
  have howner : Owner.operation (stepOver before.length i) = s'.owner := congrArg Subject.owner hsame
  refine mem_rejected.trans (Iff.trans ?_ mem_rejected.symm)
  refine exists_congr fun rule => and_congr_right fun hrule => ?_
  unfold batchContext at hwidened hs hs'
  rw [howner]
  exact hwidened.rejects_operation_iff (operationName_fresh hname) hrule hs hs' hsame rfl

variable (hburdened : ∀ fragment ∈ burdened schema r new.definition,
  fragment ∈ (Plan.of settings schema r).validation.tainted)
include hburdened

theorem mem_tainted_moved_iff {fragment : String} : fragment ∈ (Plan.of settings schema r).validation.tainted ↔
    fragment ∈ (Plan.of settings schema r').validation.tainted := by
  have hwidened : (batchContext schema r).Widened (batchContext schema r') _ _ :=
    widened_batchContext hinserted hops hops'
  have hfresh := @operationName_fresh schema new r before hname
  have hfound : ∀ n, r'.fragments[n]? = (r.fragments[n]?).map (RegisteredFragment.moved place) := fun n => by
    rw [hinserted.fragments, List.getElem?_map]
  rw [mem_tainted_of_registry, mem_tainted_of_registry]
  constructor
  · rintro ⟨rule, hrule, n, f, hrejects, hf, rfl⟩
    have hf' : r'.fragments[n]? = some (f.moved place) := by rw [hfound, hf, Option.map_some]
    exact ⟨rule, hrule, n, _, hwidened.rejects hfresh hrule (mem_subjects_of_fragments hf)
      (mem_subjects_of_fragments hf') rfl hrejects, hf', rfl⟩
  · rintro ⟨rule, hrule, n, f', hrejects, hf', rfl⟩
    obtain ⟨f, hf, rfl⟩ := Option.map_eq_some_iff.1 ((hfound n).symm.trans hf')
    rcases hwidened.rejects_or_blames hfresh hrule (mem_subjects_of_fragments hf) (mem_subjects_of_fragments hf') rfl
      hrejects with hrejects | hblames
    · exact ⟨rule, hrule, n, f, hrejects, hf, rfl⟩
    · exact mem_tainted_of_registry.1 (hburdened _ (mem_burdened_of_blames hinserted hblames rfl))

theorem admits_moved_iff {i : Nat} {op : RegisteredOperation} (hop : r.operations[i]? = some op) :
    (Plan.of settings schema r).Admits i op ↔
      (Plan.of settings schema r').Admits (stepOver before.length i) (op.moved place) := by
  have hrejected : i ∈ (Plan.of settings schema r).validation.rejected ↔ _ :=
    mem_rejected_moved_iff hinserted hops hops' hname hop
  have htainted : ∀ fragment, fragment ∈ (Plan.of settings schema r).validation.tainted ↔ _ := fun fragment =>
    mem_tainted_moved_iff hinserted hops hops' hname hburdened
  have hbody := hinserted.bodyOf_eq
  have hlacking : r'.Lacking op.definition.body ↔ r.Lacking op.definition.body := by
    unfold Registry.Lacking
    rw [hbody]
  constructor
  · intro h
    refine ⟨fun hr => h.passes (hrejected.2 hr), fun hl => h.complete (hlacking.1 hl), fun name hreach ht => ?_⟩
    exact h.clean name (hbody ▸ hreach) ((htainted name).2 ht)
  · intro h
    refine ⟨fun hr => h.passes (hrejected.1 hr), fun hl => h.complete (hlacking.2 hl), fun name hreach ht => ?_⟩
    exact h.clean name (hbody.symm ▸ hreach) ((htainted name).1 ht)

end Admits

/-! ## Two batches -/

section Insert

variable {settings : Settings} {schema : Schema} {before after : List QueryFile} {file : QueryFile} {op : Operation}
  {registry : Registry}

/-- A file with one operation and no fragments, put in among the files of a batch, leaves the queries for all other
files as they were, whether or not it is compiled itself: if its operation has a name of its own, and burdens no
fragment with a conflict, save those that are rejected anyway. -/
theorem compile_insert (hhooks : settings.hooksSupported = true)
    (hgather : gather schema 0 {} (before ++ after) = .ok registry)
    (hfile : validateStructural schema 0 file.document = [])
    (hdefinitions : file.document.definitions = [.operation op])
    (hname : ∀ name ∈ op.name, ∀ other ∈ registry.operations, ∀ name' ∈ other.definition.name, name'.text ≠ name.text)
    (hburdened : ∀ fragment ∈ burdened schema registry op,
      fragment ∈ (Plan.of settings schema registry).validation.tainted) :
    ∃ outcome outcome', (compile settings schema (before ++ after)).result = .ok outcome ∧
      (compile settings schema (before ++ file :: after)).result = .ok outcome' ∧ outcome.status = .complete ∧
      outcome'.status = .complete ∧
      ∀ path, path ≠ file.path → outcome'.queries.find? path = outcome.queries.find? path := by
  obtain ⟨registry', hgather', hinserted⟩ := exists_gather_insert hgather hfile hdefinitions
  obtain ⟨ops, ops', hops, hops'⟩ := hinserted.operations
  have hhook : ∀ file, refusesHook settings file = false := fun file => by
    unfold refusesHook
    rw [hhooks, Bool.not_true, Bool.and_false]
  have hadmits : ∀ i other, registry.operations[i]? = some other → ((Plan.of settings schema registry).Admits i other ↔
      (Plan.of settings schema registry').Admits (stepOver ops.length i) (other.moved (stepOver before.length))) :=
    fun i other hother => admits_moved_iff hinserted hops hops' hname hburdened hother
  have hplace := stepOver_injective before.length
  have hstart : Progress.Follows (Plan.of settings schema registry) (Plan.of settings schema registry')
      (stepOver before.length) file.path {} {} :=
    ⟨ClosureCache.holds_empty _, ClosureCache.holds_empty _, fun _ => by simp, fun _ _ => rfl⟩
  -- the operations of the files before, then the new one, then those of the files behind
  obtain ⟨p, p', hp, hp', hfollows⟩ :=
    Progress.Follows.run ⟨before.length, file, op⟩ hstart rfl hinserted hplace hhook fun i other hi => by
      have hlt := (List.getElem?_eq_some_iff.1 hi).1
      have hother : registry.operations[i]? = some other := by rw [hops, List.getElem?_append_left hlt, hi]
      rw [Nat.zero_add, hadmits i other hother, stepOver_of_lt hlt]
  obtain ⟨p'', hnew, hfollows'⟩ := @Progress.Follows.step_new _ _ _ ⟨before.length, file, op⟩ _ _ ops.length hfollows
    (stepOver_ne before.length) (hhook file)
  obtain ⟨q, q', hq, hq', hend⟩ :=
    Progress.Follows.run ⟨before.length, file, op⟩ hfollows' rfl hinserted hplace hhook fun i other hi => by
      have hother : registry.operations[ops.length + i]? = some other := by
        rw [hops, List.getElem?_append_right (Nat.le_add_right _ _), Nat.add_sub_cancel_left, hi]
      rw [hadmits _ other hother, stepOver_add]
  have hrun : compileOperations (Plan.of settings schema registry) 0 {} registry.operations = (q, none) := by
    rw [hops, compileOperations_append hp, Nat.zero_add, hq]
  have hrun' : compileOperations (Plan.of settings schema registry') 0 {} registry'.operations = (q', none) := by
    rw [hops', compileOperations_append hp', Nat.zero_add, List.length_map, compileOperations, hnew]
    exact hq'
  obtain ⟨outcome, hresult, hstatus, hqueries⟩ := exists_outcome hgather hrun
  obtain ⟨outcome', hresult', hstatus', hqueries'⟩ := exists_outcome hgather' hrun'
  refine ⟨outcome, outcome', hresult, hresult', hstatus, hstatus', fun path hpath => ?_⟩
  rw [hqueries, hqueries']
  exact hend.queries path hpath

end Insert

/-! ## Files put in -/

/-- What is gathered, and the operation of a file that is put in, if nothing stands against it. -/
def insertion? (schema : Schema) (before after : List QueryFile) (file : QueryFile) : Option (Registry × Operation) :=
  match gather schema 0 {} (before ++ after), file.document.definitions, validateStructural schema 0 file.document with
  | .ok registry, [.operation op], [] =>
    if ∀ other ∈ registry.operations, other.definition.displayName ≠ op.displayName then some (registry, op) else none
  | _, _, _ => none

theorem insertion?_eq_some {schema : Schema} {before after : List QueryFile} {file : QueryFile} {registry : Registry}
    {op : Operation} (h : insertion? schema before after file = some (registry, op)) :
    gather schema 0 {} (before ++ after) = .ok registry ∧ validateStructural schema 0 file.document = [] ∧
      file.document.definitions = [.operation op] ∧ ∀ name ∈ op.name, ∀ other ∈ registry.operations,
        ∀ name' ∈ other.definition.name, name'.text ≠ name.text := by
  unfold insertion? at h
  split at h
  · rename_i hgather hdefinitions hstructural
    split at h
    · rename_i hnames
      cases h
      refine ⟨hgather, hstructural, hdefinitions, fun name hname other hother name' hname' htext => ?_⟩
      refine hnames other hother ?_
      unfold Operation.displayName
      rw [hname, hname']
      exact htext
    · cases h
  · cases h

/-- An operation with a field that does not exist and with fields that do not merge. -/
def sampleInsert : QueryFile := sampleFile "d.js" "query D \x7b x: a x: b \x7b a \x7d c ...F \x7d"

/-- The query that a batch has for a path. -/
def queryAt (schema : Schema) (files : List QueryFile) (path : String) : Option CompiledQuery :=
  (compile {} schema files).result.toOption.bind fun outcome => outcome.queries.find? path

theorem queryAt_eq {schema : Schema} {files : List QueryFile} {path : String} {outcome : BatchOutcome}
    (hrun : (compile {} schema files).result = .ok outcome) :
    queryAt schema files path = outcome.queries.find? path := by
  unfold queryAt
  rw [hrun]
  rfl

theorem compile_insert_sample : (queryAt sampleSchema sampleFiles "a.js").isSome = true ∧
    queryAt sampleSchema ([sampleFiles[0]] ++ sampleInsert :: [sampleFiles[1]]) "a.js" =
      queryAt sampleSchema ([sampleFiles[0]] ++ [sampleFiles[1]]) "a.js" := by
  obtain ⟨⟨registry, op⟩, hinsertion, hburdened⟩ : ∃ x, insertion? sampleSchema [sampleFiles[0]] [sampleFiles[1]]
      sampleInsert = some x ∧ ∀ fragment ∈ burdened sampleSchema x.1 x.2,
        fragment ∈ (Plan.of {} sampleSchema x.1).validation.tainted := by
    have hall : (insertion? sampleSchema [sampleFiles[0]] [sampleFiles[1]] sampleInsert).any (fun x =>
        (burdened sampleSchema x.1 x.2).isEmpty) = true := by decide +kernel
    obtain ⟨x, hx, hnone⟩ := (Option.any_eq_true _ _).1 hall
    refine ⟨x, hx, fun fragment hfragment => ?_⟩
    rw [List.isEmpty_iff.1 hnone] at hfragment
    exact absurd hfragment List.not_mem_nil
  obtain ⟨hgather, hstructural, hdefinitions, hname⟩ := insertion?_eq_some hinsertion
  obtain ⟨outcome, outcome', hresult, hresult', -, -, hqueries⟩ := @compile_insert {} sampleSchema [sampleFiles[0]]
    [sampleFiles[1]] sampleInsert op registry rfl hgather hstructural hdefinitions hname hburdened
  refine ⟨by decide +kernel, ?_⟩
  rw [queryAt_eq hresult, queryAt_eq hresult']
  exact hqueries "a.js" (by decide +kernel)

/-- A schema of one object type with two fields. -/
def pairSchema : Schema where
  queryType := some "Query"
  mutationType := none
  subscriptionType := none
  types := .ofList [("Int", .scalar "Int"), ("Query", .object "Query" (.ofList
    [("a", ⟨"a", .empty, .named "Int"⟩), ("b", ⟨"b", .empty, .named "Int"⟩)]) [])]
  directives := .empty

/-- Two operations, and two fragments that do not merge, each of which one operation spreads. -/
def pairFiles : List QueryFile :=
  [sampleFile "a.js" "query A \x7b ...F \x7d", sampleFile "b.js" "query B \x7b ...G \x7d",
    sampleFile "f.js" "fragment F on Query \x7b x: a \x7d  fragment G on Query \x7b x: b \x7d"]

/-- An operation that spreads both. -/
def pairInsert : QueryFile := sampleFile "d.js" "query D \x7b ...F ...G \x7d"

theorem pair_isClean : ∀ file ∈ pairFiles ++ [pairInsert], file.document.IsClean := by
  unfold pairFiles pairInsert
  simp only [List.cons_append, List.nil_append, List.forall_mem_cons]
  refine ⟨sampleFile_isClean _ ?_, sampleFile_isClean _ ?_, sampleFile_isClean _ ?_, sampleFile_isClean _ ?_,
    fun _ h => absurd h List.not_mem_nil⟩ <;> decide +kernel

/-- In general a file that is put in does not leave the others alone. Its operation is rejected for a conflict between
the fields of two fragments, and so are both fragments, together with all that needs one of them. -/
theorem compile_insert_interferes : ¬ ∀ (settings : Settings) (schema : Schema) (before after : List QueryFile)
    (file : QueryFile) (op : Operation) (registry : Registry),
    (∀ f ∈ before ++ file :: after, f.document.IsClean) → ((before ++ file :: after).map QueryFile.path).Nodup →
    settings.hooksSupported = true → gather schema 0 {} (before ++ after) = .ok registry →
    validateStructural schema 0 file.document = [] → file.document.definitions = [.operation op] →
    (∀ name ∈ op.name, ∀ other ∈ registry.operations, ∀ name' ∈ other.definition.name, name'.text ≠ name.text) →
    ∃ outcome outcome', (compile settings schema (before ++ after)).result = .ok outcome ∧
      (compile settings schema (before ++ file :: after)).result = .ok outcome' ∧
      ∀ path, path ≠ file.path → outcome'.queries.find? path = outcome.queries.find? path := by
  intro hall
  obtain ⟨⟨registry, op⟩, hinsertion⟩ : ∃ x, insertion? pairSchema pairFiles [] pairInsert = some x :=
    Option.isSome_iff_exists.1 (by decide +kernel)
  obtain ⟨hgather, hstructural, hdefinitions, hname⟩ := insertion?_eq_some hinsertion
  obtain ⟨outcome, outcome', hresult, hresult', hqueries⟩ := hall {} pairSchema pairFiles [] pairInsert op registry
    pair_isClean (by decide +kernel) rfl hgather hstructural hdefinitions hname
  have hsame := hqueries "a.js" (by decide +kernel)
  rw [← queryAt_eq hresult, ← queryAt_eq hresult'] at hsame
  have hthere : (queryAt pairSchema (pairFiles ++ []) "a.js").isSome = true := by decide +kernel
  have hgone : (queryAt pairSchema (pairFiles ++ [pairInsert]) "a.js").isSome = false := by decide +kernel
  rw [hsame, hthere] at hgone
  cases hgone

end Batch

end QueryBatch
