import QueryBatch.Diagnostic.Report
import QueryBatch.Query
import QueryBatch.Rules.Validate

/-!
# Compiling a batch

From files to queries, in three steps. The structural rules look at file after file, and the first file with a fault
ends the batch. The global rules look at all definitions together. Then every operation that was not rejected is
compiled, unless something it needs is missing or tainted, or its file has a query already.

* `Verdict`: what becomes of one operation.
* `Batch.compile`: the outcome of a batch and the events of its run.
-/

namespace QueryBatch

/-! ## Settings and outcome -/

/-- How a batch is compiled. -/
structure Settings where
  /-- The directory that identifiers of static queries are relative to. -/
  projectRoot : String := "."
  /-- Whether a development session is running. -/
  develop : Bool := false
  /-- Whether hooks can run in what is built. -/
  hooksSupported : Bool := true
  deriving DecidableEq, Repr, Inhabited

/-- How far a batch got. -/
inductive BatchStatus where
  | complete
  | aborted (path : String)
  deriving DecidableEq, Repr, Inhabited

/-- What a batch yields. -/
structure BatchOutcome where
  queries : OrderedMap CompiledQuery := .empty
  diagnostics : List Diagnostic
  status : BatchStatus

/-- Whether all files were compiled without a diagnostic. -/
def BatchOutcome.isSuccess (o : BatchOutcome) : Bool := o.status == .complete && o.diagnostics.isEmpty

/-- What a build is told during a run. -/
inductive BatchEvent where
  | extractionFailed (path : String)
  | batchFailed (errors : List ReportedError)
  /-- The errors to show on a channel; none clears it. -/
  | publish (channel : String) (errors : Option (List ReportedError))

/-- What ends a run without an outcome. -/
inductive BatchFault where
  | unsupportedHook (path : String)
  deriving DecidableEq, Repr, Inhabited

namespace BatchFault

/-- The published number. -/
def code : BatchFault → String
  | unsupportedHook _ => "85920"

def message : BatchFault → String
  | unsupportedHook path =>
    "`" ++ path ++ "` uses a static query hook, which requires a runtime with hook support; " ++
      "upgrade the runtime or replace the hook with a static query"

end BatchFault

/-- A run: its events in order, and its outcome. -/
structure BatchRun where
  events : List BatchEvent
  result : Except BatchFault BatchOutcome

namespace Batch

/-! ## Verdicts -/

/-- What becomes of an operation. -/
inductive Verdict where
  /-- It spreads fragments that do not exist. -/
  | unresolved (first : MissingSpread) (others : List MissingSpread)
  /-- It needs a fragment that was rejected. -/
  | tainted (fragment : String)
  /-- Its file has a query already. -/
  | secondRoot (first : RegisteredOperation)
  | compiled

/-- The verdict on an operation that the rules let pass. `compiled` are the operations compiled before. -/
def verdict (taintedNames : OrderedSet String) (compiled : List RegisteredOperation) (op : RegisteredOperation)
    (closure : Closure) : Verdict :=
  match closure.missing.toList with
  | first :: others => .unresolved first others
  | [] =>
    match closure.fragments.toList.find? fun name => name ∈ taintedNames with
    | some name => .tainted name
    | none =>
      match compiled.find? fun other => other.source == op.source with
      | some first => .secondRoot first
      | none => .compiled

/-! ## Diagnostics of operations -/

/-- The diagnostic for a spread of a fragment that does not exist. -/
def undefinedFragment (registry : Registry) (m : MissingSpread) : Diagnostic :=
  let d := ((Diagnostic.of m.source .undefinedFragment m.span).withDetail m.name).withContext "fragmentName" m.name
  match Text.closestMatch m.name registry.names Rules.suggestionThreshold with
  | some closest => (d.withContext "closestFragment" closest).withFix (Rules.suggestion closest) closest
  | none => d

/-- The diagnostic for an operation whose missing spreads were all reported before. -/
def undefinedThrough (op : RegisteredOperation) (m : MissingSpread) : Diagnostic :=
  (((Diagnostic.of op.source .undefinedFragment op.definition.headSpan).withDetail m.name).withContext "fragmentName"
    m.name).relatedTo m.source m.span "spread here"

/-- The diagnostics for missing spreads, those at the places in `reported` left out. At least one points out the
operation. -/
def missingDiagnostics (registry : Registry) (reported : List (Nat × Span)) (op : RegisteredOperation)
    (first : MissingSpread) (others : List MissingSpread) : List Diagnostic :=
  let fresh := (first :: others).filter fun m => !reported.contains (m.source, m.span)
  if fresh.isEmpty then [undefinedThrough op first] else fresh.map (undefinedFragment registry)

/-- The diagnostic for an operation that needs a rejected fragment. -/
def invalidDependency (registry : Registry) (op : RegisteredOperation) (fragment : String) : Diagnostic :=
  let d := (Diagnostic.of op.source .invalidFragmentDependency op.definition.headSpan).withDetail fragment
  match registry.fragment? fragment with
  | some f => d.relatedTo f.source f.definition.name.span "fragment defined here"
  | none => d

/-- The diagnostic for an operation that is not the first of its file. -/
def multipleRoots (first op : RegisteredOperation) : Diagnostic :=
  ((Diagnostic.of op.source .multipleRootQueries op.definition.headSpan).withDetail
    ("`" ++ op.file.path ++ "` contains multiple root queries, `" ++ first.definition.displayName ++ "` and `" ++
      op.definition.displayName ++ "`; only the first is compiled")).relatedTo first.source first.definition.headSpan
    "first root query defined here"

/-! ## Operations -/

/-- What the operations of a batch are compiled under. -/
structure Plan where
  settings : Settings
  registry : Registry
  validation : GlobalValidation

/-- How far the operations of a batch are compiled. -/
structure Progress where
  cache : ClosureCache := {}
  queries : OrderedMap CompiledQuery := .empty
  /-- The operations that were compiled. -/
  compiled : List RegisteredOperation := []
  /-- The places of the missing spreads met. -/
  reported : List (Nat × Span) := []
  diagnostics : List Diagnostic := []
  events : List BatchEvent := []

/-- Whether a hook may not be compiled. -/
def refusesHook (settings : Settings) (file : QueryFile) : Bool :=
  file.isHook && !settings.develop && !settings.hooksSupported

/-- Carries a verdict out. -/
def Progress.settle (plan : Plan) (p : Progress) (op : RegisteredOperation) (closure : Closure) :
    Verdict → Except BatchFault Progress
  | .unresolved first others =>
    .ok { p with
      diagnostics := p.diagnostics ++ missingDiagnostics plan.registry p.reported op first others
      reported := p.reported ++ (first :: others).map fun m => (m.source, m.span)
      events := p.events ++ [.extractionFailed op.file.path] }
  | .tainted fragment =>
    .ok { p with diagnostics := p.diagnostics ++ [invalidDependency plan.registry op fragment] }
  | .secondRoot first => .ok { p with diagnostics := p.diagnostics ++ [multipleRoots first op] }
  | .compiled =>
    if refusesHook plan.settings op.file then .error (.unsupportedHook op.file.path)
    else
      let text := minimalDocument plan.registry closure op.definition
      .ok { p with
        compiled := p.compiled ++ [op]
        queries := p.queries.insert op.file.path (.of plan.settings.projectRoot op.file op.definition text) }

/-- Compiles the operation of an index. -/
def compileOperation (plan : Plan) (p : Progress) (index : Nat) (op : RegisteredOperation) :
    Except BatchFault Progress :=
  if index ∈ plan.validation.rejected then .ok p
  else
    let (closure, cache) := p.cache.resolve plan.registry op.source op.definition.body
    let p := { p with cache }
    p.settle plan op closure (verdict plan.validation.tainted p.compiled op closure)

/-- Compiles operations, the first of which has the given index, up to the first fault. -/
def compileOperations (plan : Plan) : (index : Nat) → Progress → List RegisteredOperation →
    Progress × Option BatchFault
  | _, p, [] => (p, none)
  | index, p, op :: rest =>
    match compileOperation plan p index op with
    | .ok p => compileOperations plan (index + 1) p rest
    | .error fault => (p, some fault)

/-! ## Files -/

/-- The merged files, or the first file with a structural fault and its diagnostics. -/
def gather (schema : Schema) : (source : Nat) → Registry → List QueryFile →
    Except (QueryFile × List Diagnostic) Registry
  | _, registry, [] => .ok registry
  | source, registry, file :: rest =>
    match validateStructural schema source file.document with
    | [] => gather schema (source + 1) (registry.merge source file) rest
    | found => .error (file, found)

/-! ## The batch -/

/-- The channel that a development session shows errors on. -/
def overlayChannel : String := "graphql-compiler"

/-- The events that end a run. -/
def closingEvents (settings : Settings) (sources : Sources) (diagnostics : List Diagnostic) : List BatchEvent :=
  let errors := reportAll diagnostics sources
  let failed := if errors.isEmpty then [] else [.batchFailed errors]
  let shown := if settings.develop then [.publish overlayChannel (if errors.isEmpty then none else some errors)] else []
  failed ++ shown

/-- The run of a batch whose files are merged. -/
def compileRegistry (settings : Settings) (schema : Schema) (sources : Sources) (registry : Registry) : BatchRun :=
  let validation := validateGlobal schema (registry.operations.map fun op => (op.source, op.definition))
    (registry.fragments.map fun f => (f.source, f.definition))
  match compileOperations ⟨settings, registry, validation⟩ 0 {} registry.operations with
  | (p, some fault) => ⟨p.events, .error fault⟩
  | (p, none) =>
    let diagnostics := validation.diagnostics ++ p.diagnostics
    ⟨p.events ++ closingEvents settings sources diagnostics, .ok { queries := p.queries, diagnostics, status := .complete }⟩

/-- The run of a batch. -/
def compile (settings : Settings) (schema : Schema) (files : List QueryFile) : BatchRun :=
  let sources := QueryFile.sources files
  match gather schema 0 {} files with
  | .ok registry => compileRegistry settings schema sources registry
  | .error (file, diagnostics) =>
    ⟨.extractionFailed file.path :: closingEvents settings sources diagnostics,
      .ok { diagnostics, status := .aborted file.path }⟩

end Batch

end QueryBatch
