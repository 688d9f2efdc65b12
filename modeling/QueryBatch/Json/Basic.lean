import QueryBatch.Text.Quoted

/-!
# JSON values

* `Json`: a JSON value. Numbers and strings keep the text they are written with; members keep their order, and a key may
  come twice.
* `Json.string?`: the string that a value stands for. A lone half of a surrogate pair stands for none.
* `Json.ofString`: the value of a string.
-/

namespace QueryBatch

/-- A JSON value. `string` and the keys hold what is written between the quotes. -/
inductive Json where
  | null
  | boolean (holds : Bool)
  | number (digits : String)
  | string (raw : String)
  | array (items : List Json)
  | object (members : List (String × Json))
  deriving Inhabited

namespace Json

open Text

/-! ## Strings -/

/-- The character of a pair of surrogates. -/
def surrogatePair (high low : Nat) : Option Char :=
  if 0xD800 ≤ high ∧ high < 0xDC00 ∧ 0xDC00 ≤ low ∧ low < 0xE000 then
    Quoted.charOfNat (0x10000 + (high - 0xD800) * 0x400 + (low - 0xDC00))
  else none

/-- The characters that stand between the quotes of a written string. -/
def unescape : List Char → Option (List Char)
  | [] => some []
  | '\\' :: 'u' :: a :: b :: c :: d :: rest =>
    (Quoted.hexNumber 0 [a, b, c, d]).bind fun code =>
      match Quoted.charOfNat code with
      | some x => (unescape rest).map (x :: ·)
      | none => match rest with
        | '\\' :: 'u' :: e :: f :: g :: h :: more =>
          (Quoted.hexNumber 0 [e, f, g, h]).bind fun low =>
            (surrogatePair code low).bind fun x => (unescape more).map (x :: ·)
        | _ => none
  | '\\' :: e :: rest => (Quoted.simpleEscape e).bind fun x => (unescape rest).map (x :: ·)
  | c :: rest => (unescape rest).map (c :: ·)

/-- The string of what is written between quotes. -/
def unescapeString (raw : String) : Option String := (unescape raw.toList).map String.ofList

/-- How a character is written between quotes: only quotes, backslashes and control characters are escaped. -/
def escapeChar (c : Char) : List Char :=
  if c = '"' then ['\\', '"']
  else if c = '\\' then ['\\', '\\']
  else if c = '\x08' then ['\\', 'b']
  else if c = '\x0c' then ['\\', 'f']
  else if c = '\n' then ['\\', 'n']
  else if c = '\r' then ['\\', 'r']
  else if c = '\t' then ['\\', 't']
  else if c.toNat < 0x20 then '\\' :: 'u' :: (Quoted.hexDigits c.toNat).map Char.toLower
  else [c]

/-- How a string is written between quotes. -/
def escapeString (text : String) : String := String.ofList (text.toList.flatMap escapeChar)

/-! ## Views and makers -/

def ofString (text : String) : Json := .string (escapeString text)

def ofNat (n : Nat) : Json := .number (toString n)

def string? : Json → Option String
  | .string raw => unescapeString raw
  | _ => none

def boolean? : Json → Option Bool
  | .boolean holds => some holds
  | _ => none

def array? : Json → Option (List Json)
  | .array items => some items
  | _ => none

/-- The number, if it is written in digits alone and fits 32 bits. -/
def word32? : Json → Option Nat
  | .number digits => if digits.all Char.isDigit then digits.toNat?.filter (· < UInt32.size) else none
  | _ => none

end Json

end QueryBatch
