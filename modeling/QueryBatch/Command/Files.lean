/-!
# Files

What the commands ask of a file system, and a file system in memory.

* `Files`: reading, listing and writing in some monad. A failure is told in the words of the system.
* `pathExtension?`: what follows the last dot in the name of a file.
* `FileTree`: files by the names on the way to them. `FileTree.files` gives access to it, `FileTree.changes` tells what
  a run has written.
-/

namespace QueryBatch.Command

/-! ## Access -/

/-- Access to files. -/
structure Files (m : Type → Type) where
  read : String → m (Except String String)
  /-- The files at or below a path: depth first, the entries of a directory in the order of their names. A failure comes
  with the path that could not be listed. -/
  list : String → m (Except (String × String) (List String))
  write : String → String → m (Except String Unit)

/-! ## Paths -/

/-- The parts of a path between slashes. -/
def pathParts (path : String) : List String := (path.toList.splitOn '/').map String.ofList

/-- The name of the file or directory that a path leads to, if the path ends in a name. -/
def pathName? (path : String) : Option String :=
  match ((pathParts path).filter fun part => part != "" && part != ".").getLast? with
  | some ".." => none
  | name => name

/-- What follows the last dot of a name. A dot in front is part of the name. -/
def nameExtension? (name : String) : Option String :=
  let cs := name.toList.reverse
  match cs.dropWhile (· != '.') with
  | _ :: _ :: _ => some (String.ofList (cs.takeWhile (· != '.')).reverse)
  | _ => none

/-- What follows the last dot in the name of a file. -/
def pathExtension? (path : String) : Option String := (pathName? path).bind nameExtension?

/-- A path below a directory. -/
def joinPath (directory : String) (below : List String) : String :=
  let tail := "/".intercalate below
  if directory.endsWith "/" then directory ++ tail else directory ++ "/" ++ tail

/-! ## Failures -/

/-- The failures of a file system. -/
inductive FileFailure where
  | missing
  | notDirectory
  | isDirectory
  deriving DecidableEq, Repr

/-- The words of the system. -/
def FileFailure.message : FileFailure → String
  | missing => "No such file or directory (os error 2)"
  | notDirectory => "Not a directory (os error 20)"
  | isDirectory => "Is a directory (os error 21)"

/-! ## A file system in memory -/

/-- Files with the names on the way to them. A directory is there if something is in it; the empty way leads to the
directory that the tree stands for. -/
structure FileTree where
  contents : List (List String × String)
  deriving Inhabited

namespace FileTree

/-- The content of a file. -/
def file? (t : FileTree) (way : List String) : Option String :=
  (t.contents.find? fun f => f.1 == way).map Prod.snd

def isDirectory (t : FileTree) (way : List String) : Bool :=
  way.isEmpty || t.contents.any fun f => way.isPrefixOf f.1 && f.1 != way

/-- The way that the parts of a path lead to. All parts but the last have to lead to directories. -/
def follow (t : FileTree) : (way : List String) → List String → Except FileFailure (List String)
  | way, [] => .ok way
  | way, part :: rest =>
    if t.isDirectory way then
      if part = "" || part = "." then t.follow way rest
      else if part = ".." then t.follow way.dropLast rest
      else t.follow (way ++ [part]) rest
    else if (t.file? way).isSome then .error .notDirectory
    else .error .missing

/-- The way of a path. Nothing outside the tree is there. -/
def wayOf (t : FileTree) (path : String) : Except FileFailure (List String) :=
  if path.isEmpty || path.startsWith "/" then .error .missing else t.follow [] (pathParts path)

def readFile (t : FileTree) (path : String) : Except FileFailure String := do
  let way ← t.wayOf path
  match t.file? way with
  | some content => .ok content
  | none => .error (if t.isDirectory way then .isDirectory else .missing)

/-- The files below a way, in order. -/
def waysBelow (t : FileTree) (way : List String) : List (List String) :=
  ((t.contents.map Prod.fst).filter fun other => way.isPrefixOf other).map (List.drop way.length)
    |>.mergeSort fun a b => !(b < a)

def listFiles (t : FileTree) (path : String) : Except FileFailure (List String) := do
  let way ← t.wayOf path
  if (t.file? way).isSome then .ok [path]
  else if t.isDirectory way then .ok ((t.waysBelow way).map (joinPath path))
  else .error .missing

/-- Puts a file in place of one of its way, or adds it. -/
def put (t : FileTree) (way : List String) (content : String) : FileTree :=
  ⟨t.contents.filter (fun f => f.1 != way) ++ [(way, content)]⟩

/-- Writes a file. Its directory has to be there, and a path that ends in a slash leads to no file. -/
def writeFile (t : FileTree) (path content : String) : Except FileFailure FileTree := do
  let way ← t.wayOf (String.ofList (path.toList.reverse.dropWhile (· == '/')).reverse)
  if path.endsWith "/" || t.isDirectory way then .error .isDirectory else .ok (t.put way content)

/-- The tree of files by their paths. Of several contents for one path the last one stays. -/
def ofFiles (files : List (String × String)) : FileTree :=
  files.foldl (fun t (path, content) => t.put ((pathParts path).filter fun part => part != "" && part != ".") content)
    ⟨[]⟩

/-- The files of a tree that are not in another one with the same content: their paths and contents, in the order of the
paths. -/
def changes (t before : FileTree) : List (String × String) :=
  ((t.contents.filter fun f => !before.contents.contains f).map fun (way, content) => ("/".intercalate way, content))
    |>.mergeSort fun a b => !(b.1 < a.1)

/-- Access to a tree that is the state of a computation. -/
def files : Files (StateM FileTree) where
  read path := do return ((← get).readFile path).mapError FileFailure.message
  list path := do return ((← get).listFiles path).mapError fun failure => (path, failure.message)
  write path content := do
    match (← get).writeFile path content with
    | .ok t => set t; return .ok ()
    | .error failure => return .error failure.message

end FileTree

end QueryBatch.Command
