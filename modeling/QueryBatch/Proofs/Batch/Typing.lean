import QueryBatch.Proofs.Batch.Gathered
import QueryBatch.Proofs.Batch.Validation
import QueryBatch.Proofs.Rules.Typing

/-!
# Compiled operations are typed

* `Batch.FromFile`: a definition stands in a document that passes the structural rules. `Batch.fromFile_gather`: so do
  all definitions of a batch.
* `Batch.passed_of_compiles`: what the rules leave of the definitions of a closure. `Batch.exists_typed_fragment`: its
  fragments are typed.
* `Batch.compiled_operation_typed`: so an operation whose kind has a root type, and all fragments of its closure, are
  typed throughout.
-/

namespace QueryBatch.Batch

open Rules

/-- A definition stands in a document that passes the structural rules. -/
def FromFile (schema : Schema) (source : Nat) (x : Definition) : Prop :=
  ∃ document : Document, x ∈ document.definitions ∧ validateStructural schema source document = []

theorem fromFile_gather {schema : Schema} {files : List QueryFile} {registry : Registry}
    (hgather : gather schema 0 {} files = .ok registry) : registry.All (FromFile schema) :=
  all_gather (fun _ file _ hpasses _ hx => ⟨file.document, hx, hpasses⟩) (Registry.all_empty _) hgather

/-- What the structural rules find in the document of a definition: nothing. -/
theorem FromFile.exists_context {schema : Schema} {source : Nat} {x : Definition} (h : FromFile schema source x) :
    ∃ cx : Context, cx.schema = schema ∧ (∃ s ∈ cx.subjects, s.definition = x) ∧
      ∀ rule ∈ structuralRules, rule cx = [] := by
  obtain ⟨document, hx, hpasses⟩ := h
  exact ⟨.ofDocument schema source document, rfl, Context.exists_mem_ofDocument hx,
    validateStructural_eq_nil_iff.1 hpasses⟩

section Compiled

variable {settings : Settings} {schema : Schema} {registry : Registry} {index : Nat} {op : RegisteredOperation}
  {closure : Closure}

/-- A definition of a closure is one of the registry. -/
theorem mem_registry_of_closure (h : (Plan.of settings schema registry).Compiles index op closure)
    (hall : registry.All (FromFile schema)) {s : Subject}
    (hs : s ∈ (closureContext schema registry op closure).subjects) :
    FromFile schema s.source s.definition := by
  rcases Context.mem_subjects_of.1 hs with ⟨i, x, hx, rfl⟩ | ⟨i, x, hx, rfl⟩
  · cases List.mem_singleton.1 (List.mem_of_getElem? hx)
    exact hall.operations op h.mem_operations
  · obtain ⟨f, hf, rfl⟩ := List.mem_map.1 (List.mem_of_getElem? hx)
    exact hall.fragments f (Registry.mem_of_fragment? (Registry.mem_neededBy.1 hf).1)

/-- What the rules leave of the walk through a definition of a closure. The condition of a fragment is known. -/
theorem passed_of_compiles (h : (Plan.of settings schema registry).Compiles index op closure)
    (hall : registry.All (FromFile schema)) {s : Subject}
    (hs : s ∈ (closureContext schema registry op closure).subjects) :
    Passed schema (s.visits schema) ∧
      ∀ frag, s.definition = .fragment frag → (schema.type? frag.condition.text).isSome = true := by
  obtain ⟨cx, hschema, ⟨s', hs', hsame⟩, hnil⟩ := (mem_registry_of_closure h hall hs).exists_context
  have hfields := h.rules_eq_nil knownFields (by simp [globalRules])
  have hleafs := hnil scalarLeafs (by simp [structuralRules])
  have htypes := hnil knownTypes (by simp [structuralRules])
  refine ⟨passed_of_rules hs hs' hsame hschema hfields hleafs htypes, fun frag hfrag => ?_⟩
  rw [← hschema]
  exact condition_of_knownTypes htypes hs' (hsame.trans hfrag)

/-- What the rules leave of the walk through an operation that is compiled. -/
theorem passed_operation (h : (Plan.of settings schema registry).Compiles index op closure)
    (hall : registry.All (FromFile schema)) : Passed schema (operationVisits schema op.definition) := by
  have hs : ⟨.operation 0, op.source, .operation op.definition⟩ ∈
      (closureContext schema registry op closure).subjects :=
    Context.mem_subjects_of.2 (.inl ⟨0, (op.source, op.definition), rfl, rfl⟩)
  exact (passed_of_compiles h hall hs).1

/-- The fragments of a closure are typed. -/
theorem exists_typed_fragment (hschema : schema.IsBuilt)
    (h : (Plan.of settings schema registry).Compiles index op closure) (hall : registry.All (FromFile schema))
    {name : String} (hname : name ∈ closure.fragments) : ∃ f, registry.fragment? name = some f ∧
      ∀ v ∈ fragmentVisits schema f.definition, v.Typed schema := by
  obtain ⟨f, hf⟩ := h.exists_fragment? hname
  have hfname := Registry.name_of_fragment? hf
  have hmem : (f.source, f.definition) ∈ closureFragments registry closure :=
    List.mem_map_of_mem (Registry.mem_neededBy.2 (by rw [hfname]; exact ⟨hf, hname⟩))
  obtain ⟨i, hi⟩ := List.mem_iff_getElem?.1 hmem
  have hs : ⟨.fragment i, f.source, .fragment f.definition⟩ ∈ (closureContext schema registry op closure).subjects :=
    Context.mem_subjects_of.2 (.inr ⟨i, (f.source, f.definition), hi, rfl⟩)
  obtain ⟨hpassed, hcondition⟩ := passed_of_compiles h hall hs
  exact ⟨f, hf, typed_fragmentVisits hschema (hcondition _ rfl) hpassed⟩

/-- In a schema that was built, an operation that the compiler compiles and whose kind has a root type is typed, and so
is every fragment of its closure: each selection set stands for a known type, each field is declared by it, and a field
has a selection set if, and only if, its type is no scalar or enum. The operations that are compiled with some closure
are those that the run has compiled. -/
theorem compiled_operation_typed {files : List QueryFile} (hschema : schema.IsBuilt)
    (hgather : gather schema 0 {} files = .ok registry) :
    (∀ index op closure, (Plan.of settings schema registry).Compiles index op closure →
      schema.root? op.definition.kind ≠ none →
      (∀ v ∈ operationVisits schema op.definition, v.Typed schema) ∧
      ∀ name ∈ closure.fragments, ∃ f, registry.fragment? name = some f ∧
        ∀ v ∈ fragmentVisits schema f.definition, v.Typed schema) ∧
    ∀ op, op ∈ (compileOperations (Plan.of settings schema registry) 0 {} registry.operations).1.compiled ↔
      ∃ index closure, (Plan.of settings schema registry).Compiles index op closure := by
  have hall := fromFile_gather hgather
  refine ⟨fun index op closure h hroot => ⟨?_, fun name hname => ?_⟩, fun op => mem_compiled_iff⟩
  · exact typed_operationVisits hschema hroot (passed_operation h hall)
  · exact exists_typed_fragment hschema h hall hname

end Compiled

/-! ## A schema that was built -/

/-- The schema of the sample as a builder gives it. -/
def builtSchema : Except SchemaFault Schema := do
  let b ← ({} : Builder).addType (.object "Query" (.ofList
    [("a", ⟨"a", .ofList [⟨"n", .named "Int", none⟩], .named "String"⟩), ("b", ⟨"b", .empty, .named "Query"⟩)]) [])
  b.build

theorem isBuilt_builtSchema {schema : Schema} (h : builtSchema = .ok schema) : schema.IsBuilt := by
  obtain ⟨b, hadd, hbuild⟩ := bind_eq_ok.1 h
  exact ⟨b, .type .start hadd, hbuild⟩

/-- What is seen of the schema is seen of one that was built. -/
theorem exists_of_builtSchema {α : Type} {view : Schema → α} {a : α} (h : builtSchema.toOption.map view = some a) :
    ∃ schema : Schema, schema.IsBuilt ∧ view schema = a := by
  obtain ⟨schema, hbuilt, hview⟩ := Option.map_eq_some_iff.1 h
  exact ⟨schema, isBuilt_builtSchema (eq_ok_of_toOption hbuilt), hview⟩

theorem compiled_operation_typed_sample : ∃ schema registry index op closure,
    schema.IsBuilt ∧ gather schema 0 {} sampleFiles = .ok registry ∧
    (Plan.of {} schema registry).Compiles index op closure ∧ schema.root? op.definition.kind ≠ none ∧
    (∀ v ∈ operationVisits schema op.definition, v.Typed schema) ∧
    ∀ name ∈ closure.fragments, ∃ f, registry.fragment? name = some f ∧
      ∀ v ∈ fragmentVisits schema f.definition, v.Typed schema := by
  have hrun : (builtSchema.toOption.map fun schema => (compiledOperations schema sampleFiles).map
      fun op => (schema.root? op.definition.kind).isSome) = some [true] := by decide +kernel
  obtain ⟨schema, hschema, hrun⟩ := exists_of_builtSchema hrun
  obtain ⟨registry, index, op, closure, hgather, hcompiles, hroot⟩ := exists_compiles hrun
  have hroot' := Option.isSome_iff_ne_none.1 hroot
  have htyped := (@compiled_operation_typed {} _ _ _ hschema hgather).1 index op closure hcompiles hroot'
  exact ⟨schema, registry, index, op, closure, hschema, hgather, hcompiles, hroot', htyped⟩

end QueryBatch.Batch
