import QueryBatch.Text.Size

/-!
# Block strings

A block string stands between triple quotes; a backslash before three quotes keeps them inside. Its value has the
common indentation of its lines and the blank lines at both ends removed.

* `scanBody`: how far the body of a block string reaches, closing quotes included.
* `value`: the string that a block string stands for.
-/

namespace QueryBatch.Text.BlockString

/-! ## Extent -/

/-- The number of characters up to and including the closing quotes, or of all characters if nothing closes. Byte by
byte it comes to the same place, see `scanBytes_bytes`. -/
def scanBody : List Char → Nat
  | '\\' :: '"' :: '"' :: '"' :: rest => 4 + scanBody rest
  | '"' :: '"' :: '"' :: _ => 3
  | _ :: rest => 1 + scanBody rest
  | [] => 0

/-- Whether a text is written as a block string with closing quotes. -/
def looksClosed (text : String) : Bool :=
  6 ≤ text.utf8ByteSize && ['"', '"', '"'].isSuffixOf text.toList &&
    !(['\\', '"', '"', '"'].isSuffixOf text.toList)

/-! ## Value -/

/-- Writes every escaped triple quote as three quotes. -/
def unescape : List Char → List Char
  | '\\' :: '"' :: '"' :: '"' :: rest => '"' :: '"' :: '"' :: unescape rest
  | c :: rest => c :: unescape rest
  | [] => []

/-- The parts of a text between carriage returns that have a line feed behind them. -/
def splitPairs : List Char → List (List Char)
  | '\r' :: '\n' :: rest => [] :: splitPairs rest
  | c :: rest => (splitPairs rest).modifyHead (List.cons c)
  | [] => [[]]

/-- The lines of a text. It is split at the line ends of two characters first, then at those of one. -/
def lines (cs : List Char) : List (List Char) :=
  (splitPairs cs).flatMap (List.splitOnP fun c => c == '\n' || c == '\r')

/-- Spaces and tabs indent a line. -/
def isIndent (c : Char) : Bool := c == ' ' || c == '\t'

def isBlankLine (line : List Char) : Bool := line.all isIndent

/-- The number of bytes that indent a line. -/
def indentOf (line : List Char) : Nat := byteLength line - byteLength (line.dropWhile isIndent)

/-- The least indentation of the lines that are not blank. -/
def commonIndent (ls : List (List Char)) : Option Nat :=
  ((ls.filter fun line => !isBlankLine line).map indentOf).min?

/-- The rest of a line behind `n` bytes, if these are whole characters of it. -/
def dropBytes? : (n : Nat) → List Char → Option (List Char)
  | 0, cs => some cs
  | _ + 1, [] => none
  | n + 1, c :: rest => if c.utf8Size ≤ n + 1 then dropBytes? (n + 1 - c.utf8Size) rest else none

/-- Removes the common indentation of all lines but the first from these lines. -/
def dedent : List (List Char) → List (List Char)
  | [] => []
  | first :: rest =>
    match commonIndent rest with
    | some indent => first :: rest.map fun line => (dropBytes? (min indent (byteLength line)) line).getD []
    | none => first :: rest

/-- Drops the blank lines at both ends. -/
def trimLines (ls : List (List Char)) : List (List Char) :=
  ((ls.dropWhile isBlankLine).reverse.dropWhile isBlankLine).reverse

/-- The characters between the triple quotes. Either may be missing. -/
def contents (cs : List Char) : List Char :=
  let body := if ['"', '"', '"'].isPrefixOf cs then cs.drop 3 else cs
  if ['"', '"', '"'].isSuffixOf body then body.take (body.length - 3) else body

/-- The string that the characters between the triple quotes stand for. -/
def valueOf (body : List Char) : List Char :=
  ['\n'].intercalate (trimLines (dedent (lines (unescape body))))

/-- The string that a block string stands for. -/
def value (text : String) : String := String.ofList (valueOf (contents text.toList))

end QueryBatch.Text.BlockString
