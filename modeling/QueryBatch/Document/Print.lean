import QueryBatch.Document.Basic
import QueryBatch.Text.Quoted

/-!
# The canonical text of documents

Every definition has one printed text: two spaces of indentation a level, one selection to a line, arguments parted by
a comma and a blank, definitions parted by an empty line. An anonymous query without variables and directives is
printed as its selection set alone.

* `Document.text`, `Operation.text`, `Fragment.text`, `Value.text`: the printed text of each node.
-/

namespace QueryBatch

open Text

/-! ## Values, arguments, directives -/

mutual

/-- The printed text of a value. -/
def Value.text : Value → String
  | .variable name _ => "$" ++ name
  | .int digits _ => digits
  | .float digits _ => digits
  | .string content _ => Quoted.quote content
  | .boolean holds _ => if holds then "true" else "false"
  | .null _ => "null"
  | .enum name _ => name
  | .list items _ => "[" ++ ", ".intercalate (Value.textsOfList items) ++ "]"
  | .object fields _ => "\x7b" ++ ", ".intercalate (Value.textsOfFields fields) ++ "\x7d"

def Value.textsOfList : List Value → List String
  | [] => []
  | item :: items => item.text :: Value.textsOfList items

def Value.textsOfFields : List (Name × Value) → List String
  | [] => []
  | (name, value) :: fields => (name.text ++ ": " ++ value.text) :: Value.textsOfFields fields

end

def Argument.text (a : Argument) : String := a.name.text ++ ": " ++ a.value.text

/-- The arguments in parentheses, or nothing if there are none. -/
def argumentsText (arguments : List Argument) : String :=
  if arguments.isEmpty then "" else "(" ++ ", ".intercalate (arguments.map Argument.text) ++ ")"

def Directive.text (d : Directive) : String := "@" ++ d.name.text ++ argumentsText d.arguments

/-- The directives, each after a blank. -/
def directivesText (directives : List Directive) : String :=
  String.join (directives.map fun d => " " ++ d.text)

/-! ## Selections -/

/-- The indentation of a level. -/
def indentation (level : Nat) : String := String.join (List.replicate level "  ")

/-- A field up to its selection set. -/
def Field.text (f : Field) : String :=
  let label := match f.label with
    | some label => label.text ++ ": "
    | none => ""
  label ++ f.name.text ++ argumentsText f.arguments ++ directivesText f.directives

def Spread.text (s : Spread) : String := "..." ++ s.name.text ++ directivesText s.directives

/-- An inline fragment up to its selection set. -/
def Inline.text (i : Inline) : String :=
  let condition := match i.condition with
    | some type => " on " ++ type.text
    | none => ""
  "..." ++ condition ++ directivesText i.directives

/-- Braces around selections that are printed already, each with its line break and indentation. -/
def bracedText (level : Nat) (selections : String) : String :=
  "\x7b" ++ selections ++ "\n" ++ indentation level ++ "\x7d"

mutual

/-- The printed text of a selection at a level of indentation. -/
def Selection.text (level : Nat) : Selection → String
  | .field f => f.text
  | .group f selections _ => f.text ++ " " ++ bracedText level (Selection.textsIn (level + 1) selections)
  | .spread s => s.text
  | .inline i selections _ => i.text ++ " " ++ bracedText level (Selection.textsIn (level + 1) selections)

/-- The printed texts of selections, each on a line of its own. -/
def Selection.textsIn (level : Nat) : List Selection → String
  | [] => ""
  | selection :: rest =>
    "\n" ++ indentation level ++ selection.text level ++ Selection.textsIn level rest

end

def SelectionSet.text (set : SelectionSet) : String := bracedText 0 (Selection.textsIn 1 set.selections)

/-! ## Definitions -/

def VariableDefinition.text (v : VariableDefinition) : String :=
  let initial := match v.defaultValue with
    | some value => " = " ++ value.text
    | none => ""
  "$" ++ v.name.text ++ ": " ++ v.type.text ++ initial ++ directivesText v.directives

/-- Whether an operation is printed as its selection set alone. -/
def Operation.isShorthand (op : Operation) : Bool :=
  op.kind == .query && op.name.isNone && op.variableDefinitions.isEmpty && op.directives.isEmpty

/-- The keyword, name, variables and directives of an operation. -/
def Operation.headText (op : Operation) : String :=
  let name := match op.name with
    | some name => " " ++ name.text
    | none => ""
  let declared :=
    if op.variableDefinitions.isEmpty then ""
    else (if op.name.isNone then " " else "") ++
      "(" ++ ", ".intercalate (op.variableDefinitions.map VariableDefinition.text) ++ ")"
  op.kind.keyword ++ name ++ declared ++ directivesText op.directives

def Operation.text (op : Operation) : String :=
  if op.isShorthand then op.body.text else op.headText ++ " " ++ op.body.text

def Fragment.text (frag : Fragment) : String :=
  "fragment " ++ frag.name.text ++ " on " ++ frag.condition.text ++ directivesText frag.directives ++ " " ++
    frag.body.text

def Definition.text : Definition → String
  | .operation op => op.text
  | .fragment frag => frag.text

/-- The printed text of a document. -/
def Document.text (d : Document) : String := "\n\n".intercalate (d.definitions.map Definition.text)

end QueryBatch
