/-!
# Quoted strings

The text of a string between double quotes, with backslash escapes.

* `encode`: the escaped form of a string. Quotes, backslashes and control characters are escaped, all else stays.
* `decode`: the string that an escaped form stands for, or the first escape that stands for nothing.
* `quote` and `unquote`: the same with the two quotes around the form.
-/

namespace QueryBatch.Text.Quoted

/-! ## Writing -/

/-- The digit of a number below sixteen, in upper case. -/
def hexDigit (n : Nat) : Char := if n < 10 then Char.ofNat (48 + n) else Char.ofNat (55 + n)

/-- The four hexadecimal digits of a number below 65536. -/
def hexDigits (n : Nat) : List Char :=
  [hexDigit (n / 4096 % 16), hexDigit (n / 256 % 16), hexDigit (n / 16 % 16), hexDigit (n % 16)]

/-- The escaped form of one character. -/
def encodeChar (c : Char) : List Char :=
  if c = '"' then ['\\', '"']
  else if c = '\\' then ['\\', '\\']
  else if c = '\n' then ['\\', 'n']
  else if c = '\r' then ['\\', 'r']
  else if c = '\t' then ['\\', 't']
  else if c = '\x08' then ['\\', 'b']
  else if c = '\x0c' then ['\\', 'f']
  else if c.toNat < 0x20 || c = '\x7f' then '\\' :: 'u' :: hexDigits c.toNat
  else [c]

/-- The escaped form of a string. -/
def encode (cs : List Char) : List Char := cs.flatMap encodeChar

/-- The escaped form between quotes. -/
def quote (text : String) : String := String.ofList ('"' :: encode text.toList ++ ['"'])

/-! ## Reading -/

/-- The value of a hexadecimal digit of either case. -/
def hexValue (c : Char) : Option Nat :=
  if '0' ≤ c && c ≤ '9' then some (c.toNat - 48)
  else if 'a' ≤ c && c ≤ 'f' then some (c.toNat - 87)
  else if 'A' ≤ c && c ≤ 'F' then some (c.toNat - 55)
  else none

/-- The number that hexadecimal digits stand for, most significant digit first, after the digits of `high`. -/
def hexNumber (high : Nat) : List Char → Option Nat
  | [] => some high
  | c :: cs => (hexValue c).bind fun digit => hexNumber (16 * high + digit) cs

/-- The character with a code point, unless that is a surrogate or too large. -/
def charOfNat (n : Nat) : Option Char := if h : n.isValidChar then some (Char.ofNatAux n h) else none

/-- The character that the four characters after `\u` name. A plus sign may take the place of the first digit. -/
def unicodeEscape (a b c d : Char) : Option Char :=
  (hexNumber 0 (if a = '+' then [b, c, d] else [a, b, c, d])).bind charOfNat

/-- The character that a backslash and `c` stand for. -/
def simpleEscape (c : Char) : Option Char :=
  if c = '"' then some '"'
  else if c = '\\' then some '\\'
  else if c = '/' then some '/'
  else if c = 'b' then some '\x08'
  else if c = 'f' then some '\x0c'
  else if c = 'n' then some '\n'
  else if c = 'r' then some '\r'
  else if c = 't' then some '\t'
  else none

/-- The string that an escaped form stands for, or the first escape that stands for no character. -/
def decode : List Char → Except (List Char) (List Char)
  | [] => .ok []
  | ['\\'] => .error ['\\']
  | '\\' :: 'u' :: a :: b :: c :: d :: rest =>
    match unicodeEscape a b c d with
    | some x => (decode rest).map (x :: ·)
    | none => .error ['\\', 'u', a, b, c, d]
  | '\\' :: 'u' :: short => .error ('\\' :: 'u' :: short)
  | '\\' :: e :: rest =>
    match simpleEscape e with
    | some x => (decode rest).map (x :: ·)
    | none => .error ['\\', e]
  | c :: rest => (decode rest).map (c :: ·)

/-- What stands between the quotes of a quoted text, or the text itself if it is not quoted. -/
def contents (cs : List Char) : List Char :=
  match cs with
  | '"' :: rest => if rest.getLast? = some '"' then rest.dropLast else cs
  | _ => cs

/-- The string that a quoted text stands for, or its first escape that stands for nothing. -/
def unquote (text : String) : Except String String :=
  match decode (contents text.toList) with
  | .ok cs => .ok (String.ofList cs)
  | .error cs => .error (String.ofList cs)

end QueryBatch.Text.Quoted
