import QueryBatch.Parse.Cursor
import QueryBatch.Text.Quoted

/-!
# Reading types, values, arguments and directives

The parsers take the `room` that is left for nested nodes: a type, value or selection set needs one unit of it, and
without room a parse stops. A parser yields `none` where the text is no such node; the fault is reported by then.
-/

namespace QueryBatch.Parse

open Text

/-! ## Types -/

/-- A type and its span. -/
def typeRef : (room : Nat) → Parse (Option (TypeRef × Span))
  | 0 => throw .nestingExceeded
  | room + 1 => do
    let start := (← get).span.start
    let inner ← match (← get).kind? with
      | some .lBracket => do
        let opened ← bump
        let item ← typeRef room
        close .rBracket "]" opened.span
        pure (item.map fun (type, _) => TypeRef.list type)
      | some .name => do
        let name ← expectName
        pure (name.map fun name => TypeRef.named name.text)
      | _ => do
        report .expectedType ("found " ++ (← get).found)
        pure none
    let some type := inner | return none
    let type := if (← eat .bang).isSome then type.required else type
    return some (type, ← spanFrom start)

/-! ## Values -/

/-- A variable without its dollar sign, which the span covers. -/
def variableName : Parse (Option Name) := do
  let some dollar ← expect .dollar | return none
  let some name ← expectName | return none
  return some ⟨name.text, ⟨dollar.span.start, name.span.stop⟩⟩

/-- The value that a name stands for. -/
def wordValue (t : Token) : Value :=
  if t.text = "true" then .boolean true t.span
  else if t.text = "false" then .boolean false t.span
  else if t.text = "null" then .null t.span
  else .enum t.text t.span

/-- The value of a string token. A bad escape is reported and leaves an empty string. -/
def stringValue (t : Token) : Parse Value := do
  match Quoted.unquote t.text with
  | .ok content => return .string content t.span
  | .error escape =>
    reportAt .unexpectedToken t.span ("invalid escape sequence `" ++ escape ++ "`")
    return .string "" t.span

/-- An item of a list, given the parser of values. What is no value is passed over unless it ends the list. -/
def listItem (item : Parse (Option Value)) : Parse (Option Value) := do
  match ← item with
  | some item => return some item
  | none =>
    if !(← get).closes [.rBracket] then skip
    return none

/-- A field of an object, given the parser of values. -/
def objectField (field : Parse (Option Value)) : Parse (Option (Name × Value)) := do
  let some name ← expectName | do skip; return none
  let some _ ← expect .colon | return none
  let some field ← field | return none
  return some (name, field)

/-- A value. Constant values hold no variables. -/
def value (isConst : Bool) : (room : Nat) → Parse (Option Value)
  | 0 => throw .nestingExceeded
  | room + 1 => do
    let start := (← get).span.start
    match (← get).kind? with
    | some .dollar =>
      let some name ← variableName | return none
      if isConst then reportAt .unexpectedToken name.span "variables are not allowed in constant values"
      return some (.variable name.text name.span)
    | some .int =>
      let t ← bump
      return some (.int t.text t.span)
    | some .float =>
      let t ← bump
      return some (.float t.text t.span)
    | some .string =>
      let t ← bump
      return some (← stringValue t)
    | some .blockString =>
      if !BlockString.looksClosed (← get).text then reportHere .unterminatedString
      let t ← bump
      return some (.string (BlockString.value t.text) t.span)
    | some .unterminatedString =>
      reportHere .unterminatedString
      skip
      return none
    | some .name =>
      let t ← bump
      return some (wordValue t)
    | some .lBracket =>
      let opened ← bump
      let items ← collect (fun c => !c.closes [.rBracket]) (listItem (value isConst room))
      close .rBracket "]" opened.span
      return some (.list items (← spanFrom start))
    | some .lBrace =>
      let opened ← bump
      let fields ← collect (fun c => !c.closes [.rBrace]) (objectField (value isConst room))
      close .rBrace "\x7d" opened.span
      return some (.object fields (← spanFrom start))
    | _ =>
      report .expectedValue ("found " ++ (← get).found)
      return none

/-! ## Arguments and directives -/

/-- An argument. What does not start with a name is reported and passed over. -/
def argument (isConst : Bool) (room : Nat) : Parse (Option Argument) := do
  if !(← get).isAt .name then
    reportAndSkip .expectedName ("expected an argument name, found " ++ (← get).found)
    return none
  let some name ← expectName | return none
  let some _ ← expect .colon | return none
  let some given ← value isConst room | return none
  return some ⟨name, given, name.span.cover given.span⟩

/-- The arguments between parentheses. -/
def arguments (isConst : Bool) (room : Nat) : Parse (List Argument) := do
  let opened ← bump
  let items ← collect (fun c => !c.closes [.rParen, .lBrace, .rBrace]) (argument isConst room)
  close .rParen ")" opened.span
  return items

/-- The arguments, if there is an opening parenthesis. -/
def optionalArguments (isConst : Bool) (room : Nat) : Parse (List Argument) := do
  if (← get).isAt .lParen then arguments isConst room else return []

/-- A directive. -/
def directive (isConst : Bool) (room : Nat) : Parse (Option Directive) := do
  let sign ← bump
  let some name ← expectName | return none
  let given ← optionalArguments isConst room
  return some ⟨name, given, ← spanFrom sign.span.start⟩

/-- The directives that stand here. -/
def directives (isConst : Bool) (room : Nat) : Parse (List Directive) :=
  collect (fun c => c.isAt .atSign) (directive isConst room)

end QueryBatch.Parse
