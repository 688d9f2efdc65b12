import QueryBatch.Proofs.Batch.Silent
import QueryBatch.Proofs.Batch.Typing
import QueryBatch.Proofs.Rules.Bare

/-!
# Operations without a root type

A schema need not have a root type for every kind of operation. No rule asks for one, so an operation of a kind that has
none is compiled like any other.

* `Batch.compiled_without_root`: what is left unchecked in such an operation is what stands in it under no type
  condition. All that it needs is typed.
* `Batch.compiled_unchecked`: such an operation can be compiled with fields that no type has.
-/

namespace QueryBatch

open Rules

/-- In an operation of a kind that has no root type, whatever passes is typed or stands under no type condition. -/
theorem Rules.typed_or_bare_operationVisits {schema : Schema} (hschema : schema.IsBuilt) {op : Operation}
    (hroot : schema.root? op.kind = none) (hpassed : Passed schema (operationVisits schema op)) :
    ∀ v ∈ operationVisits schema op, v.Typed schema ∨ v ∈ bareSetVisits op.body := by
  have hbody : Passed schema (setVisits schema none op.body) := by
    rw [← hroot]
    exact hpassed.mono fun v hv => List.mem_append_left _ (List.mem_append_right _ hv)
  intro v hv
  simp only [operationVisits, List.mem_append, List.mem_cons, List.mem_flatMap, List.not_mem_nil, or_false, hroot] at hv
  rcases hv with (((rfl | ⟨w, -, rfl | hv⟩) | hv) | hv) | rfl
  · exact .inl trivial
  · exact .inl trivial
  · exact .inl (typed_directiveVisits hv)
  · exact .inl (typed_directiveVisits hv)
  · exact typed_or_bare_setVisits hschema hbody v hv
  · exact .inl trivial

theorem Rules.bareSetVisits_subset_operationVisits {schema : Schema} {op : Operation}
    (hroot : schema.root? op.kind = none) : bareSetVisits op.body ⊆ operationVisits schema op := by
  intro v hv
  unfold operationVisits
  rw [hroot]
  exact List.mem_append_left _ (List.mem_append_right _ (bareSetVisits_subset op.body hv))

namespace Batch

/-- In a schema that was built, take an operation that the compiler compiles though its kind has no root type. Its
selection sets and fields that stand under no type condition have no parent type and no declaration. All others are
typed, and so is every fragment of its closure. The operations that are compiled with some closure are those that the
run has compiled. -/
theorem compiled_without_root {settings : Settings} {schema : Schema} {registry : Registry} {files : List QueryFile}
    (hschema : schema.IsBuilt) (hgather : gather schema 0 {} files = .ok registry) :
    (∀ index op closure, (Plan.of settings schema registry).Compiles index op closure →
      schema.root? op.definition.kind = none →
      (∀ v ∈ operationVisits schema op.definition, v.Typed schema ∨ v ∈ bareSetVisits op.definition.body) ∧
      (∀ v ∈ bareSetVisits op.definition.body, v ∈ operationVisits schema op.definition ∧ v.Bare) ∧
      ∀ name ∈ closure.fragments, ∃ f, registry.fragment? name = some f ∧
        ∀ v ∈ fragmentVisits schema f.definition, v.Typed schema) ∧
    ∀ op, op ∈ (compileOperations (Plan.of settings schema registry) 0 {} registry.operations).1.compiled ↔
      ∃ index closure, (Plan.of settings schema registry).Compiles index op closure := by
  have hall := fromFile_gather hgather
  refine ⟨fun index op closure h hroot => ⟨?_, fun v hv => ?_, fun name hname => ?_⟩, fun op => mem_compiled_iff⟩
  · exact typed_or_bare_operationVisits hschema hroot (passed_operation h hall)
  · exact ⟨bareSetVisits_subset_operationVisits hroot hv, bare_of_mem_bareSetVisits v hv⟩
  · exact exists_typed_fragment hschema h hall hname

/-! ## A mutation without a root type -/

/-- A mutation of a field that no type has, with an argument and fields below it. -/
def rootlessFiles : List QueryFile :=
  [sampleFile "m.js" "mutation M \x7b nope(x: 1) \x7b deeper \x7d ... on Query \x7b a \x7d \x7d"]

/-- The batch of the mutation is a success, and it has its query. -/
theorem exists_rootless : ∃ schema outcome registry index op closure, schema.IsBuilt ∧
    (compile {} schema rootlessFiles).result = .ok outcome ∧ outcome.isSuccess = true ∧
    gather schema 0 {} rootlessFiles = .ok registry ∧ schema.root? op.definition.kind = none ∧
    (Plan.of {} schema registry).Compiles index op closure ∧
    outcome.queries.find? op.file.path = some ((Plan.of {} schema registry).queryOf op closure) := by
  have hrun : (builtSchema.toOption.map fun schema =>
      ((completeOutcome schema rootlessFiles).any (fun outcome => outcome.diagnostics.length = 0),
        (compiledOperations schema rootlessFiles).map fun op => (schema.root? op.definition.kind).isNone)) =
      some (true, [true]) := by decide +kernel
  obtain ⟨schema, hschema, hrun⟩ := exists_of_builtSchema hrun
  obtain ⟨houtcome, hcompiled⟩ := Prod.mk.inj hrun
  obtain ⟨outcome, hresult, hstatus, hlength⟩ :=
    @exists_completeOutcome schema rootlessFiles (fun outcome => outcome.diagnostics.length = 0) _ houtcome
  have hsuccess := BatchOutcome.isSuccess_iff.2 ⟨hstatus, List.eq_nil_of_length_eq_zero hlength⟩
  obtain ⟨registry, index, op, closure, hgather, hcompiles, hroot⟩ := exists_compiles hcompiled
  have hpaths : (rootlessFiles.map QueryFile.path).Nodup := List.nodup_singleton _
  obtain ⟨index', closure', hcompiles', hquery⟩ :=
    exists_query hpaths hresult hsuccess hgather hcompiles.mem_operations
  exact ⟨schema, outcome, registry, index', op, closure', hschema, hresult, hsuccess, hgather,
    Option.isNone_iff_eq_none.1 hroot, hcompiles', hquery⟩

theorem compiled_without_root_sample : ∃ schema registry index op closure, schema.IsBuilt ∧
    gather schema 0 {} rootlessFiles = .ok registry ∧ (Plan.of {} schema registry).Compiles index op closure ∧
    schema.root? op.definition.kind = none ∧
    (∀ v ∈ operationVisits schema op.definition, v.Typed schema ∨ v ∈ bareSetVisits op.definition.body) ∧
    ∀ v ∈ bareSetVisits op.definition.body, v.Bare := by
  obtain ⟨schema, -, registry, index, op, closure, hschema, -, -, hgather, hroot, hcompiles, -⟩ := exists_rootless
  obtain ⟨htyped, hbare, -⟩ := (compiled_without_root hschema hgather).1 index op closure hcompiles hroot
  exact ⟨schema, registry, index, op, closure, hschema, hgather, hcompiles, hroot, htyped, fun v hv => (hbare v hv).2⟩

/-- A missing root type does not keep an operation from being compiled. -/
theorem compiled_unchecked : ¬ ∀ (settings : Settings) (schema : Schema) (files : List QueryFile)
    (outcome : BatchOutcome) (registry : Registry) (index : Nat) (op : RegisteredOperation) (closure : Closure),
    schema.IsBuilt → (compile settings schema files).result = .ok outcome →
    gather schema 0 {} files = .ok registry → registry.operations[index]? = some op →
    schema.root? op.definition.kind = none →
    outcome.queries.find? op.file.path ≠ some ((Plan.of settings schema registry).queryOf op closure) := by
  intro hall
  obtain ⟨schema, outcome, registry, index, op, closure, hschema, hresult, -, hgather, hroot, hcompiles, hquery⟩ :=
    exists_rootless
  exact hall {} schema rootlessFiles outcome registry index op closure hschema hresult hgather hcompiles.getElem? hroot
    hquery

end Batch

end QueryBatch
