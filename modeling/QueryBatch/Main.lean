import QueryBatch.Command.Run

/-!
# The program

The command line over the files of the system.

* `systemFiles`: access to them. A failure keeps the system's own words and number.
* `main`: runs the command line, prints what the run leaves and gives its exit code.
-/

namespace QueryBatch.Command

/-- The system's words for a failure. -/
def failureText : IO.Error → String
  | .alreadyExists _ code details | .interrupted _ code details | .noFileOrDirectory _ code details
  | .invalidArgument _ code details | .permissionDenied _ code details | .resourceExhausted _ code details
  | .inappropriateType _ code details | .noSuchThing _ code details | .otherError code details
  | .resourceBusy code details | .resourceVanished code details | .unsupportedOperation code details
  | .hardwareFault code details | .unsatisfiedConstraints code details | .illegalOperation code details
  | .protocolError code details | .timeExpired code details =>
    details ++ " (os error " ++ toString code.toNat ++ ")"
  | .unexpectedEof => "unexpected end of file"
  | .userError _ => "stream did not contain valid UTF-8"

/-- An action whose failure is told in words. -/
def attempt {α : Type} (action : IO α) : IO (Except String α) :=
  return (← action.toBaseIO).mapError failureText

/-- The files of a directory and below it. Links are not followed. -/
partial def listBelow (directory : String) : IO (Except (String × String) (List String)) := do
  let top : IO.FS.DirEntry := { root := directory, fileName := "" }
  match ← attempt top.root.readDir with
  | .error cause => return .error (directory, cause)
  | .ok entries =>
    let ordered := entries.toList.mergeSort fun a b => !(b.fileName < a.fileName)
    let mut found := []
    for entry in ordered do
      let path := joinPath directory [entry.fileName]
      match ← attempt entry.path.symlinkMetadata with
      | .error cause => return .error (path, cause)
      | .ok data =>
        match data.type with
        | .file => found := found ++ [path]
        | .dir =>
          match ← listBelow path with
          | .error failure => return .error failure
          | .ok below => found := found ++ below
        | _ => pure ()
    return .ok found

/-- The files at or below a path. A path that cannot be listed may be that of a file. -/
def listFiles (path : String) : IO (Except (String × String) (List String)) := do
  let top : IO.FS.DirEntry := { root := path, fileName := "" }
  match ← attempt top.root.readDir with
  | .ok _ => listBelow path
  | .error cause =>
    match ← attempt top.root.metadata with
    | .ok data => return if data.type == .file && !path.endsWith "/" then .ok [path] else .error (path, cause)
    | .error _ => return .error (path, cause)

/-- Access to the files of the system. -/
def systemFiles : Files IO where
  read path := attempt (IO.FS.readFile path)
  list := listFiles
  write path content := attempt (IO.FS.writeFile path content)

end QueryBatch.Command

open QueryBatch.Command in
/-- Runs the command line. -/
def main (arguments : List String) : IO UInt32 := do
  let outcome ← run systemFiles arguments (← IO.getEnv "QUIRE_PROJECT_ROOT")
  (← IO.getStdout).putStr outcome.stdout
  (← IO.getStderr).putStr outcome.stderr
  return outcome.exitCode.toUInt32
