import QueryBatch.Json.Basic
import QueryBatch.Text.Number

/-!
# Reading JSON

* `Json.read`: the value of a JSON text. Only the grammar is checked: what strings and numbers stand for is left to
  whoever uses the value.
-/

namespace QueryBatch.Json

open Text

def isSpace (c : Char) : Bool := c == ' ' || c == '\t' || c == '\n' || c == '\r'

def skipSpace (cs : List Char) : List Char := cs.dropWhile isSpace

/-- What is written up to the closing quote, and what follows it. -/
def readString : List Char → Option (List Char × List Char)
  | [] => none
  | '"' :: rest => some ([], rest)
  | '\\' :: 'u' :: a :: b :: c :: d :: rest =>
    if (Quoted.hexNumber 0 [a, b, c, d]).isSome then
      (readString rest).map fun (raw, after) => ('\\' :: 'u' :: a :: b :: c :: d :: raw, after)
    else none
  | '\\' :: e :: rest =>
    if (Quoted.simpleEscape e).isSome then
      (readString rest).map fun (raw, after) => ('\\' :: e :: raw, after)
    else none
  | c :: rest =>
    if c.toNat < 0x20 then none else (readString rest).map fun (raw, after) => (c :: raw, after)

/-- A number, and what follows it. -/
def readNumber (cs : List Char) : Option (Json × List Char) :=
  (numberLength cs).map fun (length, _) => (.number (String.ofList (cs.take length)), cs.drop length)

mutual

/-- A value, and what follows it. -/
def readValue : (rounds : Nat) → List Char → Option (Json × List Char)
  | 0, _ => none
  | rounds + 1, cs =>
    match skipSpace cs with
    | '"' :: rest => (readString rest).map fun (raw, after) => (.string (String.ofList raw), after)
    | '[' :: rest => match skipSpace rest with
      | ']' :: after => some (.array [], after)
      | inside => (readItems rounds inside).map fun (items, after) => (.array items, after)
    | '{' :: rest => match skipSpace rest with
      | '}' :: after => some (.object [], after)
      | inside => (readMembers rounds inside).map fun (members, after) => (.object members, after)
    | 'n' :: 'u' :: 'l' :: 'l' :: after => some (.null, after)
    | 't' :: 'r' :: 'u' :: 'e' :: after => some (.boolean true, after)
    | 'f' :: 'a' :: 'l' :: 's' :: 'e' :: after => some (.boolean false, after)
    | other => readNumber other

/-- The items up to a closing bracket, and what follows it. -/
def readItems : (rounds : Nat) → List Char → Option (List Json × List Char)
  | 0, _ => none
  | rounds + 1, cs =>
    (readValue rounds cs).bind fun (item, rest) =>
      match skipSpace rest with
      | ',' :: more => (readItems rounds more).map fun (items, after) => (item :: items, after)
      | ']' :: after => some ([item], after)
      | _ => none

/-- The members up to a closing brace, and what follows it. -/
def readMembers : (rounds : Nat) → List Char → Option (List (String × Json) × List Char)
  | 0, _ => none
  | rounds + 1, cs =>
    match skipSpace cs with
    | '"' :: rest =>
      (readString rest).bind fun (key, rest) =>
        match skipSpace rest with
        | ':' :: rest =>
          (readValue rounds rest).bind fun (value, rest) =>
            match skipSpace rest with
            | ',' :: more =>
              (readMembers rounds more).map fun (members, after) => ((String.ofList key, value) :: members, after)
            | '}' :: after => some ([(String.ofList key, value)], after)
            | _ => none
        | _ => none
    | _ => none

end

/-- The value of a text that holds one value and white space. Two rounds for each character are enough. -/
def read (text : String) : Option Json :=
  match readValue (2 * text.length + 2) text.toList with
  | some (value, rest) => if (skipSpace rest).isEmpty then some value else none
  | none => none

end QueryBatch.Json
