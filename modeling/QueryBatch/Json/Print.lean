import QueryBatch.Json.Basic

/-!
# Writing JSON

* `Json.compact`: the text of a value without white space.
* `Json.pretty`: the text of a value with one item or member to a line and two blanks for each level. An array or object
  without contents stays on its line.
-/

namespace QueryBatch.Json

/-- What is written between quotes, in its quotes. -/
def quoted (raw : String) : String := "\"" ++ raw ++ "\""

def booleanText (holds : Bool) : String := if holds then "true" else "false"

mutual

/-- The text of a value without white space. -/
def compact : Json → String
  | .null => "null"
  | .boolean holds => booleanText holds
  | .number digits => digits
  | .string raw => quoted raw
  | .array items => "[" ++ ",".intercalate (compactItems items) ++ "]"
  | .object members => "\x7b" ++ ",".intercalate (compactMembers members) ++ "\x7d"

def compactItems : List Json → List String
  | [] => []
  | item :: items => item.compact :: compactItems items

def compactMembers : List (String × Json) → List String
  | [] => []
  | (key, value) :: members => (quoted key ++ ":" ++ value.compact) :: compactMembers members

end

/-- A line break and the indentation of a level. -/
def lineBreak (level : Nat) : String := "\n" ++ String.join (List.replicate level "  ")

/-- Parts between brackets, each on a line of its own. -/
def block (level : Nat) (opened closed : String) (parts : List String) : String :=
  if parts.isEmpty then opened ++ closed
  else
    opened ++ lineBreak (level + 1) ++ ("," ++ lineBreak (level + 1)).intercalate parts ++ lineBreak level ++ closed

mutual

/-- The text of a value that starts on a line of the given level. -/
def prettyAt (level : Nat) : Json → String
  | .null => "null"
  | .boolean holds => booleanText holds
  | .number digits => digits
  | .string raw => quoted raw
  | .array items => block level "[" "]" (prettyItems (level + 1) items)
  | .object members => block level "\x7b" "\x7d" (prettyMembers (level + 1) members)

def prettyItems (level : Nat) : List Json → List String
  | [] => []
  | item :: items => item.prettyAt level :: prettyItems level items

def prettyMembers (level : Nat) : List (String × Json) → List String
  | [] => []
  | (key, value) :: members => (quoted key ++ ": " ++ value.prettyAt level) :: prettyMembers level members

end

/-- The text of a value over several lines. -/
def pretty (value : Json) : String := value.prettyAt 0

end QueryBatch.Json
