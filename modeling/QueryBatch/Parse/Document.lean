import QueryBatch.Parse.Value

/-!
# Reading query documents

A parse of a query document yields a document whatever the text is. A definition that is malformed is reported, and
reading goes on at the next token that can start one; definitions of a schema are reported and passed over.

* `Document.read`: the document of a text, the faults found and the steps taken, or the limit that stopped it.
-/

namespace QueryBatch.Parse

/-! ## Selections -/

/-- The label and name of a field. -/
def fieldName : Parse (Option (Option Name × Name)) := do
  let some first ← expectName | return none
  match ← eat .colon with
  | none => return some (none, first)
  | some _ =>
    let some second ← expectName | return none
    return some (some first, second)

/-- A field, given the parser of its selection set. -/
def field (room : Nat) (body : Parse SelectionSet) : Parse (Option Selection) := do
  let start := (← get).span.start
  let some (label, name) ← fieldName | return none
  let given ← optionalArguments false room
  let marks ← directives false room
  if (← get).isAt .lBrace then
    let set ← body
    return some (.group ⟨label, name, given, marks, ← spanFrom start⟩ set.selections set.span)
  else return some (.field ⟨label, name, given, marks, ← spanFrom start⟩)

/-- A spread that starts at `start`, after its dots. -/
def spread (room start : Nat) : Parse (Option Selection) := do
  let some name ← expectName | return none
  let marks ← directives false room
  return some (.spread ⟨name, marks, ← spanFrom start⟩)

/-- The condition of an inline fragment, if there is one. -/
def optionalCondition : Parse (Option (Option Name)) := do
  match ← eatWord "on" with
  | none => return some none
  | some _ =>
    let some type ← expectName | return none
    return some (some type)

/-- An inline fragment that starts at `start`, after its dots, given the parser of its selection set. -/
def inlineFragment (room start : Nat) (body : Parse SelectionSet) : Parse (Option Selection) := do
  let some condition ← optionalCondition | return none
  let marks ← directives false room
  if (← get).isAt .lBrace then
    let set ← body
    return some (.inline ⟨condition, marks, ⟨start, set.span.stop⟩⟩ set.selections set.span)
  else
    report .expectedSelectionSet ("found " ++ (← get).found)
    return none

/-- A spread or an inline fragment, given the parser of its selection set. -/
def spreadOrInline (room : Nat) (body : Parse SelectionSet) : Parse (Option Selection) := do
  let dots ← bump
  if (← get).isAt .name && !(← get).isAtWord "on" then spread room dots.span.start
  else inlineFragment room dots.span.start body

/-- A selection, given the parser of its selection set. What starts none is reported and passed over. -/
def selection (room : Nat) (body : Parse SelectionSet) : Parse (Option Selection) := do
  match (← get).kind? with
  | some .name => field room body
  | some .spread => spreadOrInline room body
  | _ =>
    reportAndSkip .unexpectedToken ("expected a field or fragment spread, found " ++ (← get).found)
    return none

/-- A selection set. It may not be empty. -/
def selectionSet : (room : Nat) → Parse SelectionSet
  | 0 => throw .nestingExceeded
  | room + 1 => do
    let opened ← bump
    let selections ← collect (fun c => !c.closes [.rBrace]) (selection room (selectionSet room))
    close .rBrace "\x7d" opened.span
    let span ← spanFrom opened.span.start
    if selections.isEmpty then reportAt .expectedSelectionSet span "selection sets cannot be empty"
    return ⟨selections, span⟩

/-! ## Recovery -/

/-- The names that start a definition of a schema. -/
def typeSystemWords : List String :=
  ["schema", "scalar", "type", "interface", "union", "enum", "input", "directive", "extend"]

/-- The names that start an operation. -/
def operationWords : List String := ["query", "mutation", "subscription"]

/-- Whether a description stands here. -/
def Cursor.isAtDescription (c : Cursor) : Bool := c.isAt .string || c.isAt .blockString

/-- Whether a definition starts here with a name or a description. -/
def Cursor.isAtDefinitionWord (c : Cursor) : Bool :=
  c.isAtAnyWord operationWords || c.isAtWord "fragment" || c.isAtAnyWord typeSystemWords || c.isAtDescription

/-- Whether a definition starts here. -/
def Cursor.isAtDefinition (c : Cursor) : Bool := c.isAt .lBrace || c.isAtDefinitionWord

/-- Passes over tokens up to the start of a definition. -/
def recover : Parse Unit := skipWhile fun c => !c.atEnd && !c.isAtDefinition

/-- Passes over the rest of a definition of a schema, `depth` brackets deep: up to a closing brace at depth zero or to
the start of a definition there. There have to be more `rounds` than tokens are passed over. -/
def skipDefinitionBody : (rounds depth : Nat) → Parse Unit
  | 0, _ => throw .stepsExhausted
  | rounds + 1, depth => do
    let c ← get
    if c.atEnd || (depth == 0 && c.isAtDefinitionWord) then return ()
    skip
    if c.isAt .lBrace || c.isAt .lParen then skipDefinitionBody rounds (depth + 1)
    else if c.isAt .rBrace || c.isAt .rParen then
      if depth ≤ 1 && c.isAt .rBrace then return ()
      else skipDefinitionBody rounds (depth - 1)
    else skipDefinitionBody rounds depth

/-- Reports and passes over a definition of a schema. -/
def skipTypeSystemDefinition : Parse Unit := do
  let start := (← get).span.start
  if (← get).isAtDescription then skip
  let word := (← get).text
  let wordSpan := (← get).span
  skip
  skipDefinitionBody ((← get).rest.length + 1) 0
  reportAt .nonExecutableDefinition ⟨start, max (← get).consumedEnd wordSpan.stop⟩
    ("`" ++ word ++ "` definitions describe a schema and cannot appear in a query document")

/-! ## Definitions -/

/-- The default value of a declaration, if there is one. -/
def optionalDefault (room : Nat) : Parse (Option (Option Value)) := do
  match ← eat .equals with
  | none => return some none
  | some _ =>
    let some given ← value true room | return none
    return some (some given)

/-- The declaration of one variable. -/
def variableDefinition (room : Nat) : Parse (Option VariableDefinition) := do
  let some name ← variableName | return none
  let some _ ← expect .colon | return none
  let some (type, typeSpan) ← typeRef room | return none
  let some initial ← optionalDefault room | return none
  let marks ← directives true room
  return some ⟨name, type, typeSpan, initial, marks, ← spanFrom name.span.start⟩

/-- The declaration of a variable. What does not start with a dollar sign is reported and passed over. -/
def declaredVariable (room : Nat) : Parse (Option VariableDefinition) := do
  if (← get).isAt .dollar then variableDefinition room
  else
    reportAndSkip .unexpectedToken ("expected a variable definition, found " ++ (← get).found)
    return none

/-- The declarations of variables between parentheses. -/
def variableDefinitions (room : Nat) : Parse (List VariableDefinition) := do
  let opened ← bump
  let items ← collect (fun c => !c.closes [.rParen, .lBrace]) (declaredVariable room)
  close .rParen ")" opened.span
  return items

/-- Reports that a selection set is missing and recovers. -/
def missingSelectionSet : Parse Unit := do
  report .expectedSelectionSet ("found " ++ (← get).found)
  recover

/-- The kind of operation that a keyword starts. -/
def operationKind (word : String) : OperationKind :=
  if word = "mutation" then .mutation else if word = "subscription" then .subscription else .query

/-- An operation that starts with its keyword. -/
def namedOperation (room : Nat) : Parse (Option Operation) := do
  let start := (← get).span.start
  let keyword ← bump
  let name ← if (← get).isAt .name then expectName else pure none
  let declared ← if (← get).isAt .lParen then variableDefinitions room else pure []
  let marks ← directives false room
  if (← get).isAt .lBrace then
    let body ← selectionSet room
    return some ⟨operationKind keyword.text, name, declared, marks, body, ⟨start, body.span.stop⟩⟩
  else
    missingSelectionSet
    return none

/-- An operation that is a selection set alone. -/
def shorthandOperation (room : Nat) : Parse Operation := do
  let start := (← get).span.start
  let body ← selectionSet room
  return ⟨.query, none, [], [], body, ⟨start, body.span.stop⟩⟩

/-- A fragment. It may not be named `on`. -/
def fragment (room : Nat) : Parse (Option Fragment) := do
  let start := (← get).span.start
  skip
  if (← get).isAtWord "on" then
    report .expectedName "fragments cannot be named `on`"
    recover
    return none
  let some name ← expectName | do recover; return none
  let some _ ← expectWord "on" | do recover; return none
  let some condition ← expectName | do recover; return none
  let marks ← directives false room
  if (← get).isAt .lBrace then
    let body ← selectionSet room
    return some ⟨name, condition, marks, body, ⟨start, body.span.stop⟩⟩
  else
    missingSelectionSet
    return none

/-- Reports and passes over what is no definition. -/
def skipStray : Parse Unit := do
  match (← get).kind? with
  | some .garbage => reportAndSkip .invalidCharacter "not valid in GraphQL"
  | some .unterminatedString =>
    reportHere .unterminatedString
    skip
  | _ => reportAndSkip .expectedDefinition ("found " ++ (← get).found)
  recover

/-- One definition. -/
def definition (room : Nat) : Parse (Option Definition) := do
  let c ← get
  if c.isAt .lBrace then return some (.operation (← shorthandOperation room))
  else if c.isAtWord "fragment" then return (← fragment room).map .fragment
  else if c.isAtAnyWord operationWords then return (← namedOperation room).map .operation
  else if c.isAtDescription || c.isAtAnyWord typeSystemWords then
    skipTypeSystemDefinition
    return none
  else
    skipStray
    return none

/-- The definitions up to the end of the text. Without any, and without another fault, their lack is reported. -/
def document (room : Nat) : Parse Document := do
  let definitions ← collect (fun c => !c.atEnd) (definition room)
  if definitions.isEmpty && (← get).reports.isEmpty then reportHere .expectedDefinition
  return ⟨definitions⟩

/-- The room for nested nodes under a limit. Without a limit there is room for one node more than there are tokens,
which no text fills. -/
def Cursor.roomFor (c : Cursor) (nesting : Option Nat) : Nat := nesting.getD (c.rest.length + 1)

end QueryBatch.Parse

namespace QueryBatch

/-- What a parse of a query document yields. -/
structure ParsedDocument where
  document : Document
  diagnostics : List Diagnostic
  /-- The steps taken under a limit of steps; zero without one. -/
  steps : Nat

/-- Reads a query document. -/
def Document.read (text : String) (limits : Parse.Limits := {}) : Except Parse.Stop ParsedDocument :=
  let start := Parse.Cursor.ofText text limits.steps
  match (Parse.document (start.roomFor limits.nesting)).run start with
  | .ok (document, final) => .ok ⟨document, final.reports, if limits.steps.isSome then final.steps else 0⟩
  | .error stop => .error stop

/-- Why a text yields no query document. -/
inductive DocumentFault where
  | stopped (stop : Parse.Stop)
  | malformed (diagnostics : List Diagnostic)

def DocumentFault.message : DocumentFault → String
  | stopped stop => stop.message
  | malformed diagnostics => "query parsing failed with " ++ toString diagnostics.length ++ " errors"

/-- The query document of a text without faults. -/
def Document.ofText (text : String) (limits : Parse.Limits := {}) : Except DocumentFault Document :=
  match Document.read text limits with
  | .ok parsed => if parsed.diagnostics.isEmpty then .ok parsed.document else .error (.malformed parsed.diagnostics)
  | .error stop => .error (.stopped stop)

end QueryBatch
