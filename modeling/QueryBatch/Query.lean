import QueryBatch.Closure
import QueryBatch.Json.Print
import QueryBatch.Text.Words

/-!
# Compiled queries

An operation with all the fragments it needs, in one text.

* `minimalDocument`: that text. Fragments come in order of registration, whatever order they were found in.
* `staticQueryId`: the identifier of a static query. It depends on the path of its file below the project root alone.
* `CompiledQuery.json`: the query as the output shows it.
-/

namespace QueryBatch

open Text

/-! ## Text -/

/-- The fragments of a closure, in order of registration, and the operation. -/
def minimalDocument (registry : Registry) (closure : Closure) (op : Operation) : String :=
  let needed := registry.canonical.filter fun f => f.name ∈ closure.fragments
  "\n\n".intercalate (needed.map RegisteredFragment.text ++ [op.text])

/-! ## Identifiers -/

/-- A path with slashes for backslashes. -/
def forwardSlashes (cs : List Char) : List Char := cs.map fun c => if c = '\\' then '/' else c

/-- The path without the slashes at its end. -/
def dropEndSlashes (cs : List Char) : List Char := (cs.reverse.dropWhile (· == '/')).reverse

/-- What follows the directory `root` in `path`, if `path` is inside it. -/
def below? (root path : List Char) : Option (List Char) :=
  if !root.isEmpty && root.isPrefixOf path then
    let rest := path.drop root.length
    if rest.isEmpty || rest.head? = some '/' then some rest else none
  else none

/-- A path without any `./` in front. -/
def dropHere : List Char → List Char
  | '.' :: '/' :: rest => dropHere rest
  | cs => cs

/-- A path relative to the project root. Paths outside it are kept whole. -/
def relativePath (path root : List Char) : List Char :=
  let path := forwardSlashes path
  let relative := (below? (dropEndSlashes (forwardSlashes root)) path).getD path
  dropHere (relative.dropWhile (· == '/'))

/-- The identifier of the static query in a file. -/
def staticQueryId (path root : String) : String :=
  "sq--" ++ kebabCase (String.ofList (relativePath path.toList root.toList))

/-! ## Queries -/

/-- A compiled operation. -/
structure CompiledQuery where
  name : String
  text : String
  originalText : String
  path : String
  hash : Nat
  isHook : Bool
  isStaticQuery : Bool
  /-- The identifier of a static query. -/
  id : Option String
  deriving DecidableEq, Repr, Inhabited

/-- The compiled form of an operation of a file, given its text. -/
def CompiledQuery.of (projectRoot : String) (file : QueryFile) (op : Operation) (text : String) : CompiledQuery :=
  { name := op.displayName
    text
    originalText := file.source.text
    path := file.path
    hash := file.hash
    isHook := file.isHook
    isStaticQuery := file.isStaticQuery
    id := if file.isStaticQuery then some (staticQueryId file.path projectRoot) else none }

/-- The query as an object; only static queries have an identifier. -/
def CompiledQuery.json (q : CompiledQuery) : Json :=
  let id := q.id.toList.map fun id => ("id", Json.ofString id)
  .object ([("name", .ofString q.name), ("text", .ofString q.text), ("originalText", .ofString q.originalText),
    ("path", .ofString q.path), ("hash", .ofNat q.hash), ("isHook", .boolean q.isHook),
    ("isStaticQuery", .boolean q.isStaticQuery)] ++ id)

/-- Queries by path, as an object. -/
def queriesJson (queries : OrderedMap CompiledQuery) : Json :=
  .object (queries.entries.map fun (path, q) => (Json.escapeString path, q.json))

end QueryBatch
