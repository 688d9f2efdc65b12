import QueryBatch.Parse.Document
import QueryBatch.Document.Print
import QueryBatch.Schema.Builder

/-!
# Reading schemas

The type definition language: types, directive definitions and the roots of a schema. Descriptions and directives on
definitions are read and dropped, extensions are refused.

* `Schema.ofText`: the schema of a text, or why there is none: a limit, faults in the text, or a schema that does not
  hold together.
-/

namespace QueryBatch.Parse

/-! ## Inputs -/

/-- Passes over a description. -/
def skipDescription : Parse Unit := do
  if (← get).isAtDescription then skip

/-- The type, default and directives of an input after its name. -/
def inputDef (room : Nat) (name : Name) : Parse (Option InputDef) := do
  let some _ ← expect .colon | return none
  let some (type, _) ← typeRef room | return none
  let some initial ← optionalDefault room | return none
  let _ ← directives true room
  return some ⟨name.text, type, initial.map Value.text⟩

/-- An input behind its description. -/
def inputItem (room : Nat) : Parse (Option InputDef) := do
  skipDescription
  let some name ← expectName | do skip; return none
  inputDef room name

/-- The inputs up to a closing token. What opened them is already read. -/
def inputDefs (room : Nat) (closing : TokenKind) (closer : String) (opened : Span) : Parse Inputs := do
  let inputs ← collect (fun c => !c.closes [closing]) (inputItem room)
  close closing closer opened
  return .ofList inputs

/-- The arguments of a field or directive, if there is an opening parenthesis. -/
def argumentDefs (room : Nat) : Parse Inputs := do
  if (← get).isAt .lParen then
    skip
    inputDefs room .rParen ")" (← get).span
  else return .empty

/-! ## Types -/

/-- A name behind a separator. -/
def separatedName : Parse (Option String) := do
  skip
  return (← expectName).map Name.text

/-- Names of which each follows a separator, the first one with or without it. -/
def separatedNames (separator : TokenKind) : Parse (List String) := do
  let _ ← eat separator
  let first ← expectName
  let others ← collect (fun c => c.isAt separator) separatedName
  return (first.map Name.text).toList ++ others

/-- The interfaces of a type. -/
def interfaces : Parse (List String) := do
  match ← eatWord "implements" with
  | some _ => separatedNames .amp
  | none => return []

/-- A field of an object or interface behind its description. -/
def fieldItem (room : Nat) : Parse (Option (String × FieldDef)) := do
  skipDescription
  let some name ← expectName | do skip; return none
  let arguments ← argumentDefs room
  let some _ ← expect .colon | return none
  let some (type, _) ← typeRef room | return none
  let _ ← directives true room
  return some (name.text, ⟨name.text, arguments, type⟩)

/-- The fields of an object or interface, if there is an opening brace. -/
def fieldDefs (room : Nat) : Parse (OrderedMap FieldDef) := do
  if (← get).isAt .lBrace then
    let opened ← bump
    let fields ← collect (fun c => !c.closes [.rBrace]) (fieldItem room)
    close .rBrace "\x7d" opened.span
    return .ofList fields
  else return .empty

/-- A value of an enum behind its description. -/
def enumItem (room : Nat) : Parse (Option String) := do
  skipDescription
  let some name ← expectName | do skip; return none
  let _ ← directives true room
  return some name.text

/-- The values of an enum, if there is an opening brace. -/
def enumValues (room : Nat) : Parse (List String) := do
  if (← get).isAt .lBrace then
    let opened ← bump
    let values ← collect (fun c => !c.closes [.rBrace]) (enumItem room)
    close .rBrace "\x7d" opened.span
    return values
  else return []

/-- The members of a union, if there is an equals sign. -/
def unionMembers : Parse (List String) := do
  match ← eat .equals with
  | some _ => separatedNames .pipe
  | none => return []

/-- The fields of an input object, if there is an opening brace. -/
def inputFields (room : Nat) : Parse Inputs := do
  if (← get).isAt .lBrace then
    let opened ← bump
    inputDefs room .rBrace "\x7d" opened.span
  else return .empty

/-- The definition of a type after its keyword and name. -/
def typeBody (room : Nat) (keyword name : String) : Parse TypeDef := do
  match keyword with
  | "type" =>
    let listed ← interfaces
    let _ ← directives true room
    return .object name (← fieldDefs room) listed
  | "interface" =>
    let listed ← interfaces
    let _ ← directives true room
    return .interface name (← fieldDefs room) listed
  | "scalar" =>
    let _ ← directives true room
    return .scalar name
  | "union" =>
    let _ ← directives true room
    return .union name (← unionMembers)
  | "enum" =>
    let _ ← directives true room
    return .enum name (← enumValues room)
  | _ =>
    let _ ← directives true room
    return .inputObject name (← inputFields room)

/-- The definition of a type. -/
def typeDef (room : Nat) : Parse (Option TypeDef) := do
  let keyword ← bump
  let some name ← expectName | return none
  return some (← typeBody room keyword.text name.text)

/-! ## Directives and roots -/

/-- The locations of a directive, parted by bars. An unknown one is reported and left out. There have to be more
`rounds` than bars. -/
def locations : (rounds : Nat) → (found : List DirectiveLocation) → Parse (Option (List DirectiveLocation))
  | 0, _ => throw .stepsExhausted
  | rounds + 1, found => do
    let some name ← expectName | return none
    let found ← match DirectiveLocation.ofName? name.text with
      | some location => pure (location :: found)
      | none => do
        reportAt .unexpectedToken name.span ("`" ++ name.text ++ "` is not a directive location")
        pure found
    if (← eat .pipe).isSome then locations rounds found else return some found.reverse

/-- The definition of a directive. -/
def directiveDef (room : Nat) : Parse (Option DirectiveDef) := do
  skip
  let some _ ← expect .atSign | return none
  let some name ← expectName | return none
  let arguments ← argumentDefs room
  let repeatable := (← eatWord "repeatable").isSome
  let some _ ← expectWord "on" | return none
  let _ ← eat .pipe
  let some found ← locations ((← get).rest.length + 1) [] | return none
  return some ⟨name.text, arguments, found, repeatable⟩

/-- The kind of operation of a name. -/
def rootKind? (word : String) : Option OperationKind :=
  if word = "query" then some .query
  else if word = "mutation" then some .mutation
  else if word = "subscription" then some .subscription
  else none

/-- A root type behind the kind of its operations. -/
def rootItem : Parse (Option (OperationKind × String)) := do
  let some operation ← expectName | do skip; return none
  let some _ ← expect .colon | return none
  let some type ← expectName | return none
  match rootKind? operation.text with
  | some kind => return some (kind, type.text)
  | none =>
    reportAt .unexpectedToken operation.span ("`" ++ operation.text ++ "` is not an operation type")
    return none

/-- The root types of a schema, in order. -/
def schemaRoots (room : Nat) : Parse (List (OperationKind × String)) := do
  skip
  let _ ← directives true room
  let some opened ← expect .lBrace | return []
  let roots ← collect (fun c => !c.closes [.rBrace]) rootItem
  close .rBrace "\x7d" opened.span
  return roots

/-! ## Schemas -/

/-- Passes over tokens to the next definition outside of braces. There have to be more `rounds` than such tokens. -/
def skipToDefinition : (rounds depth : Nat) → Parse Unit
  | 0, _ => throw .stepsExhausted
  | rounds + 1, depth => do
    let c ← get
    if c.atEnd then return ()
    else if c.isAt .lBrace then do skip; skipToDefinition rounds (depth + 1)
    else if c.isAt .rBrace then do skip; skipToDefinition rounds (depth - 1)
    else if depth == 0 && c.isAtAnyWord typeSystemWords then return ()
    else do skip; skipToDefinition rounds depth

/-- Reports what is no definition and passes over it. -/
def skipStrayDefinition (kind : Diagnostic.Kind) (detail : String) : Parse Unit := do
  reportAndSkip kind detail
  skipToDefinition ((← get).rest.length + 1) 0

/-- The names that start the definition of a type. -/
def typeWords : List String := ["scalar", "type", "interface", "union", "enum", "input"]

/-- Adds one definition to the parts of a schema. -/
def schemaDefinition (room : Nat) (parts : Builder) : Parse (Except SchemaFault Builder) := do
  skipDescription
  let c ← get
  if c.isAtWord "schema" then
    let roots ← schemaRoots room
    return .ok (roots.foldl (fun parts (kind, name) => parts.setRoot kind name) parts)
  else if c.isAtWord "directive" then
    match ← directiveDef room with
    | some directive => return .ok (parts.addDirective directive)
    | none => return .ok parts
  else if c.isAtAnyWord typeWords then
    match ← typeDef room with
    | some type => return parts.addType type
    | none => return .ok parts
  else if c.isAtWord "extend" then
    skipStrayDefinition .unexpectedToken "type extensions are not supported"
    return .ok parts
  else
    skipStrayDefinition .expectedDefinition ("expected a type system definition, found " ++ c.found)
    return .ok parts

/-- Adds definitions up to the end of the text, or up to the first that does not fit the others. There have to be more
`rounds` than definitions. -/
def schemaDefinitions (room : Nat) : (rounds : Nat) → Builder → Parse (Except SchemaFault Builder)
  | 0, _ => throw .stepsExhausted
  | rounds + 1, parts => do
    if (← get).atEnd then return .ok parts
    match ← schemaDefinition room parts with
    | .ok parts => schemaDefinitions room rounds parts
    | .error fault => return .error fault

end QueryBatch.Parse

namespace QueryBatch

/-- Why the text of a schema yields none. -/
inductive SchemaTextFault where
  | stopped (stop : Parse.Stop)
  | malformed (diagnostics : List Diagnostic)
  | refused (fault : SchemaFault)

def SchemaTextFault.message : SchemaTextFault → String
  | stopped stop => stop.message
  | malformed diagnostics => "schema parsing failed with " ++ toString diagnostics.length ++ " errors"
  | refused fault => fault.message

/-- The schema of a text under the default limits. Faults in the text come before those of the schema. -/
def Schema.ofText (text : String) : Except SchemaTextFault Schema :=
  let limits : Parse.Limits := {}
  let start := Parse.Cursor.ofText text limits.steps
  match (Parse.schemaDefinitions (start.roomFor limits.nesting) (start.rest.length + 1) {}).run start with
  | .error stop => .error (.stopped stop)
  | .ok (parts, final) =>
    if final.reports.isEmpty then (parts.bind Builder.build).mapError .refused
    else .error (.malformed final.reports)

end QueryBatch
