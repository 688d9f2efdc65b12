import QueryBatch.Command.Files
import QueryBatch.Command.Options
import QueryBatch.Diagnostic.Render
import QueryBatch.Json.Decode
import QueryBatch.Json.Read
import QueryBatch.Parse.Document
import QueryBatch.Parse.SchemaText
import QueryBatch.QueryFile
import QueryBatch.Schema.Json

/-!
# Loading a batch

The schema and the documents of a batch, read from files. Documents are the query files of a directory, or the entries
of a manifest: a list of texts that were taken out of other files.

* `LoadFault`: why nothing is loaded, with its wording and, for faults in a text, the diagnostics.
* `loadSchema`, `loadDocuments`: the two halves of a batch.
-/

namespace QueryBatch.Command

/-! ## Faults -/

/-- Why nothing is loaded. -/
inductive LoadFault where
  | unreadable (path cause : String)
  | unlisted (directory below cause : String)
  | invalidManifest (path : String)
  | noDocuments (directory : String)
  | document (source : Source) (fault : DocumentFault)
  | schema (source : Source) (fault : SchemaTextFault)

namespace LoadFault

/-- The wording of a fault. What is wrong with a JSON text is not told. -/
def message : LoadFault → String
  | unreadable path cause => "failed to read '" ++ path ++ "': " ++ cause
  | unlisted directory below cause =>
    "failed to walk '" ++ directory ++ "': IO error for operation on " ++ below ++ ": " ++ cause
  | invalidManifest path => "invalid manifest '" ++ path ++ "': "
  | noDocuments directory => "no .graphql or .gql files found in '" ++ directory ++ "'"
  | document source (.stopped stop) => "failed to parse '" ++ source.path ++ "': " ++ stop.message
  | document source (.malformed _) => "syntax errors in '" ++ source.path ++ "'"
  | schema source fault => "invalid schema '" ++ source.path ++ "': " ++ fault.message

/-- The diagnostics behind a fault, with their source. -/
def diagnostics? : LoadFault → Option (Source × List Diagnostic)
  | document source (.malformed diagnostics) | schema source (.malformed diagnostics) => some (source, diagnostics)
  | _ => none

/-- The lines of a fault: its message and, if there are any, the diagnostics. -/
def text (fault : LoadFault) : String :=
  let shown := match fault.diagnostics? with
    | some (source, diagnostics) => renderAll diagnostics [source] ++ "\n"
    | none => ""
  "error: " ++ fault.message ++ "\n" ++ shown

end LoadFault

/-! ## Texts -/

/-- The schema of a text: JSON if the file's extension says so. -/
def schemaOf (path text : String) : Except LoadFault Schema :=
  let read := if pathExtension? path = some "json" then (Schema.ofJson text).mapError .refused else Schema.ofText text
  read.mapError (.schema { path, text })

/-- The parsed text of a file. -/
def parseSource (source : Source) : Except LoadFault Document := (Document.ofText source.text).mapError (.document source)

/-! ## Manifests -/

/-- One entry of a manifest. -/
structure ManifestEntry where
  source : Source
  hash : Option Nat
  isHook : Bool
  isStaticQuery : Bool
  deriving DecidableEq, Repr

namespace ManifestEntry

open Json

def decodePosition (value : Json) : Option Position := do
  let [line, column] ← value.record ["line", "column"] 2 | none
  return ⟨← required word32? line, ← required word32? column⟩

def decode (value : Json) : Option ManifestEntry := do
  let [path, text, offset, hash, isHook, isStaticQuery] ←
    value.record ["path", "text", "templateOffset", "hash", "isHook", "isStaticQuery"] 2 | none
  let path ← required string? path
  let text ← required string? text
  let offset ← optional decodePosition offset
  return { source := { path, text, offset := offset.getD {} }, hash := ← optional word32? hash,
           isHook := ← flag isHook, isStaticQuery := ← flag isStaticQuery }

/-- The file of an entry. -/
def load (e : ManifestEntry) : Except LoadFault QueryFile := do
  let document ← parseSource e.source
  return { source := e.source, document, hash := e.hash.getD (Text.contentHash e.source.text), isHook := e.isHook,
           isStaticQuery := e.isStaticQuery }

end ManifestEntry

/-- The entries of the text of a manifest. -/
def manifestEntries (text : String) : Option (List ManifestEntry) :=
  (Json.read text).bind (Json.list ManifestEntry.decode)

/-- The files of the text of a manifest, or the first fault. -/
def loadManifest (path text : String) : Except LoadFault (List QueryFile) :=
  match manifestEntries text with
  | some entries => entries.mapM ManifestEntry.load
  | none => .error (.invalidManifest path)

/-! ## Files -/

section Access

variable {m : Type → Type} [Monad m] (files : Files m)

/-- Reads a file of a batch. -/
def readText (path : String) : ExceptT LoadFault m String :=
  ExceptT.mk do return (← files.read path).mapError (.unreadable path)

/-- Loads the schema in a file. -/
def loadSchema (path : String) : ExceptT LoadFault m Schema := do
  let text ← readText files path
  ExceptT.mk (pure (schemaOf path text))

/-- Whether the name of a file is that of a query file. -/
def isQueryPath (path : String) : Bool :=
  match pathExtension? path with
  | some extension => ["graphql", "gql"].contains extension
  | none => false

/-- Loads the query file of a path. -/
def loadQueryFile (path : String) : ExceptT LoadFault m QueryFile := do
  let source : Source := { path, text := ← readText files path }
  let document ← ExceptT.mk (pure (parseSource source))
  return { source, document }

/-- Loads the query files of a directory. There has to be one. -/
def loadDirectory (directory : String) : ExceptT LoadFault m (List QueryFile) := do
  let paths ← ExceptT.mk do return (← files.list directory).mapError fun (below, cause) => .unlisted directory below cause
  let loaded ← (paths.filter isQueryPath).mapM (loadQueryFile files)
  if loaded.isEmpty then throw (.noDocuments directory) else return loaded

/-- Loads the documents of a batch. -/
def loadDocuments : Input → ExceptT LoadFault m (List QueryFile)
  | .directory path => loadDirectory files path
  | .manifest path => do
    let text ← readText files path
    ExceptT.mk (pure (loadManifest path text))

end Access

end QueryBatch.Command
