import QueryBatch.Batch
import QueryBatch.Command.Load

/-!
# Running a command

* `Outcome`: what a run leaves behind besides the files it writes.
* `run`: the run of a command line over some file system.
-/

namespace QueryBatch.Command

/-- The exit code of a run and what it prints. -/
structure Outcome where
  exitCode : Nat := 0
  stdout : String := ""
  stderr : String := ""
  deriving DecidableEq, Repr, Inhabited

namespace Outcome

def failed (stderr : String) : Outcome := { exitCode := 1, stderr }

/-- The outcome of a command line that is not well formed. -/
def misused : Outcome := { exitCode := 2, stderr := "error: invalid arguments; see --help\n" }

def usage : String :=
  "Usage: check [DIR] --schema <FILE>\n" ++
  "       compile [DIR] --schema <FILE> [-o <FILE>] [--compact]\n\n" ++
  "  --manifest <FILE>  JSON list of extracted documents instead of a directory\n" ++
  "  --root <DIR>       directory static query ids are relative to\n" ++
  "  --develop          compile for a development session\n" ++
  "  --no-hooks         target runtime cannot execute static query hooks\n" ++
  "  --color <WHEN>     auto, always or never\n" ++
  "  -v                 verbosity level\n"

end Outcome

/-! ## Output -/

def Options.settings (o : Options) : Settings :=
  { projectRoot := o.projectRoot, develop := o.develop, hooksSupported := o.hooksSupported }

/-- The text of compiled queries. -/
def queriesText (compact : Bool) (queries : OrderedMap CompiledQuery) : String :=
  (if compact then (queriesJson queries).compact else (queriesJson queries).pretty) ++ "\n"

/-- The diagnostics of a batch as they are printed. -/
def diagnosticsText (files : List QueryFile) (o : BatchOutcome) : String :=
  if o.diagnostics.isEmpty then "" else renderAll o.diagnostics (QueryFile.sources files) ++ "\n"

/-- The line of a fault of a batch. -/
def faultText (fault : BatchFault) : String := "error[" ++ fault.code ++ "]: " ++ fault.message ++ "\n"

def exitCodeOf (o : BatchOutcome) : Nat := if o.diagnostics.isEmpty then 0 else 1

/-! ## Commands -/

section Access

variable {m : Type → Type} [Monad m] (files : Files m)

/-- Loads the schema and then the documents of a batch. -/
def loadBatch (o : Options) : ExceptT LoadFault m (Schema × List QueryFile) := do
  let schema ← loadSchema files o.schema
  return (schema, ← loadDocuments files o.input)

/-- Puts the queries where they are asked for. They are written even if there are diagnostics. -/
def deliver (o : Options) (loaded : List QueryFile) (outcome : BatchOutcome) : m Outcome := do
  let shown := diagnosticsText loaded outcome
  let text := queriesText o.compact outcome.queries
  match o.output with
  | none => return { exitCode := exitCodeOf outcome, stdout := text, stderr := shown }
  | some path =>
    match ← files.write path text with
    | .ok _ => return { exitCode := exitCodeOf outcome, stderr := shown }
    | .error cause => return .failed (shown ++ "error: failed to write '" ++ path ++ "': " ++ cause ++ "\n")

/-- Runs a command with its options. -/
def runOptions (o : Options) : m Outcome := do
  match ← (loadBatch files o).run with
  | .error fault => return .failed fault.text
  | .ok (schema, loaded) =>
    match (Batch.compile o.settings schema loaded).result, o.verb with
    | .error fault, _ => return .failed (faultText fault)
    | .ok outcome, .check => return { exitCode := exitCodeOf outcome, stderr := diagnosticsText loaded outcome }
    | .ok outcome, .compile => deliver files o loaded outcome

/-- Runs a command line. -/
def run (arguments : List String) (environmentRoot : Option String) : m Outcome :=
  match Request.ofArguments arguments environmentRoot with
  | none => pure .misused
  | some .help => pure { stdout := Outcome.usage }
  | some (.run o) => runOptions files o

end Access

end QueryBatch.Command
