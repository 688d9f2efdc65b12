/-!
# Options of the command line

A command line names a command and then options, flags and a directory in any order.

* `Item`: one thing that is given. `readItems`: the things given, in order.
* `Request.ofArguments`: what a command line asks for, or nothing if it is not well formed: an option may be given once,
  a value may not be empty, and a schema has to be given.
-/

namespace QueryBatch.Command

/-! ## Items -/

/-- The options that take a value. -/
inductive Key where
  | manifest
  | schema
  | root
  | color
  | output
  deriving DecidableEq, Repr

inductive Flag where
  | develop
  | noHooks
  | compact
  deriving DecidableEq, Repr

/-- One thing given on the command line. -/
inductive Item where
  | operand (text : String)
  | value (key : Key) (text : String)
  | flag (flag : Flag)
  | verbose
  | help
  | invalid
  deriving DecidableEq, Repr

def Key.ofName? : String → Option Key
  | "manifest" => some .manifest
  | "schema" => some .schema
  | "root" => some .root
  | "color" => some .color
  | "output" => some .output
  | _ => none

def Flag.ofName? : String → Option Flag
  | "develop" => some .develop
  | "no-hooks" => some .noHooks
  | "compact" => some .compact
  | _ => none

/-- What an argument gives, and the option whose value has to follow it. -/
abbrev Reading := List Item × Option Key

/-- Reads an option by its long name. Its value may follow an equals sign. -/
def readLong (cs : List Char) : Reading :=
  let name := String.ofList (cs.takeWhile (· != '='))
  match Key.ofName? name, cs.dropWhile (· != '=') with
  | some key, [] => ([], some key)
  | some key, _ :: text => ([.value key (String.ofList text)], none)
  | none, [] =>
    match Flag.ofName? name with
    | some flag => ([.flag flag], none)
    | none => ([if name = "help" then .help else .invalid], none)
  | none, _ => ([.invalid], none)

/-- Reads options by their letters. What stands behind the letter of an option with a value is the value. -/
def readShort : List Char → Reading
  | [] => ([], none)
  | 'v' :: rest =>
    let (items, key) := readShort rest
    (.verbose :: items, key)
  | 'h' :: _ => ([.help], none)
  | ['o'] => ([], some .output)
  | 'o' :: '=' :: text => ([.value .output (String.ofList text)], none)
  | 'o' :: text => ([.value .output (String.ofList text)], none)
  | _ :: _ => ([.invalid], none)

def readArgument (argument : String) : Reading :=
  match argument.toList with
  | '-' :: '-' :: cs => readLong cs
  | '-' :: c :: cs => readShort (c :: cs)
  | _ => ([.operand argument], none)

/-- Whether an argument is read as an option: it starts with a dash and is more than that. -/
def isOption (argument : String) : Bool :=
  match argument.toList with
  | '-' :: _ :: _ => true
  | _ => false

/-- The things given by arguments. After two dashes alone there are no options. -/
def readItems : List String → List Item
  | [] => []
  | argument :: rest =>
    if argument = "--" then rest.map .operand
    else
      match readArgument argument with
      | (items, none) => items ++ readItems rest
      | (items, some key) =>
        match rest with
        | [] => items ++ [.invalid]
        | next :: more =>
          if isOption next then items ++ [.invalid] else items ++ .value key next :: readItems more

/-! ## What is given -/

/-- The things given, each at most once. -/
structure Given where
  directory : Option String := none
  manifest : Option String := none
  schema : Option String := none
  root : Option String := none
  color : Option String := none
  output : Option String := none
  develop : Bool := false
  noHooks : Bool := false
  compact : Bool := false
  deriving DecidableEq, Repr

namespace Given

/-- Fills a place that is free, unless the text is empty. -/
def fill (place : Option String) (text : String) : Option (Option String) :=
  if place.isSome || text.isEmpty then none else some (some text)

def addValue (g : Given) (text : String) : Key → Option Given
  | .manifest => (fill g.manifest text).map fun manifest => { g with manifest }
  | .schema => (fill g.schema text).map fun schema => { g with schema }
  | .root => (fill g.root text).map fun root => { g with root }
  | .output => (fill g.output text).map fun output => { g with output }
  | .color =>
    if ["auto", "always", "never"].contains text then (fill g.color text).map fun color => { g with color } else none

def addFlag (g : Given) : Flag → Option Given
  | .develop => if g.develop then none else some { g with develop := true }
  | .noHooks => if g.noHooks then none else some { g with noHooks := true }
  | .compact => if g.compact then none else some { g with compact := true }

/-- Adds one item. Nothing is added to by an item that may not be given, or not again. -/
def add (g : Given) : Item → Option Given
  | .operand text => (fill g.directory text).map fun directory => { g with directory }
  | .value key text => g.addValue text key
  | .flag flag => g.addFlag flag
  | .verbose => some g
  | .help | .invalid => none

end Given

/-! ## Requests -/

/-- The commands: to check a batch, or to compile it. -/
inductive Verb where
  | check
  | compile
  deriving DecidableEq, Repr

/-- Where the documents of a batch come from. -/
inductive Input where
  | directory (path : String)
  | manifest (path : String)
  deriving DecidableEq, Repr

/-- What a run is asked to do. -/
structure Options where
  verb : Verb
  input : Input
  schema : String
  projectRoot : String := "."
  develop : Bool := false
  hooksSupported : Bool := true
  output : Option String := none
  compact : Bool := false
  deriving DecidableEq, Repr

/-- What a command line asks for. -/
inductive Request where
  | help
  | run (options : Options)
  deriving DecidableEq, Repr

/-- The options of what is given. A manifest and a directory exclude each other. The root may also come from the
environment. -/
def Given.options (g : Given) (verb : Verb) (environmentRoot : Option String) : Option Options := do
  let schema ← g.schema
  let projectRoot ←
    match g.root, environmentRoot with
    | some root, _ => some root
    | none, some "" => none
    | none, some root => some root
    | none, none => some "."
  let input ←
    match g.manifest, g.directory with
    | some _, some _ => none
    | some path, none => some (Input.manifest path)
    | none, directory => some (Input.directory (directory.getD "."))
  return { verb, input, schema, projectRoot, develop := g.develop, hooksSupported := !g.noHooks, output := g.output,
           compact := g.compact }

/-- The request of items in order. Help that is asked for before anything goes wrong is given. -/
def requestOf (verb : Verb) (environmentRoot : Option String) : Given → List Item → Option Request
  | g, [] => (g.options verb environmentRoot).map .run
  | _, .help :: _ => some .help
  | g, item :: rest =>
    match g.add item with
    | some g => requestOf verb environmentRoot g rest
    | none => none

def Verb.ofName? : String → Option Verb
  | "check" => some .check
  | "compile" => some .compile
  | _ => none

/-- The request of a command line. -/
def Request.ofArguments (arguments : List String) (environmentRoot : Option String) : Option Request :=
  match arguments with
  | [] => none
  | ["help"] => some .help
  | ["help", name] => if name = "help" || (Verb.ofName? name).isSome then some .help else none
  | name :: rest =>
    match Verb.ofName? name with
    | some verb => requestOf verb environmentRoot {} (readItems rest)
    | none => if name = "--help" || (name.startsWith "-h" && !name.startsWith "--") then some .help else none

end QueryBatch.Command
