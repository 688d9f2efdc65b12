import QueryBatch.Text.BlockString
import QueryBatch.Text.Number
import QueryBatch.Text.Size
import QueryBatch.Token.Basic

/-!
# From text to tokens

`Token.scan` cuts a text into tokens, trivia included, so that their texts joined give the text back. At each place
the longest token wins; three double quotes always open a block string, which reaches to its closing quotes or to the
end of the text. A character that starts no token is skipped, and neighbours that are skipped form one garbage token.
-/

namespace QueryBatch.Token

open Text

/-! ## Lengths of single tokens -/

def isNameStart (c : Char) : Bool := c == '_' || c.isAlpha

def isNameChar (c : Char) : Bool := c == '_' || c.isAlphanum

def isBlankChar (c : Char) : Bool := c == ' ' || c == '\t' || c == '\r' || c == '\n' || c == '\uFEFF'

/-- The length of a string after its opening quote, and whether it ends in a closing quote. A string ends on its line,
and a backslash keeps the character after it inside. -/
def stringLength : List Char → Nat × Bool
  | [] => (0, false)
  | ['\\'] => (0, false)
  | '\\' :: c :: rest =>
    if c = '\n' then (0, false)
    else
      let (length, closed) := stringLength rest
      (length + 2, closed)
  | c :: rest =>
    if c = '"' then (1, true)
    else if c = '\n' || c = '\r' then (0, false)
    else
      let (length, closed) := stringLength rest
      (length + 1, closed)

/-- The class and length of a token that opens with a double quote, given what stands after the quote. -/
def quotedLength (rest : List Char) : TokenKind × Nat :=
  if ['"', '"'].isPrefixOf rest then (.blockString, 3 + BlockString.scanBody (rest.drop 2))
  else
    let (length, closed) := stringLength rest
    (if closed then .string else .unterminatedString, 1 + length)

/-- The class and length of the token that starts with `c` and goes on in `rest`. -/
def lexeme (c : Char) (rest : List Char) : TokenKind × Nat :=
  match c with
  | '!' => (.bang, 1)
  | '$' => (.dollar, 1)
  | '&' => (.amp, 1)
  | '(' => (.lParen, 1)
  | ')' => (.rParen, 1)
  | ':' => (.colon, 1)
  | '=' => (.equals, 1)
  | '@' => (.atSign, 1)
  | '[' => (.lBracket, 1)
  | ']' => (.rBracket, 1)
  | '{' => (.lBrace, 1)
  | '|' => (.pipe, 1)
  | '}' => (.rBrace, 1)
  | ',' => (.comma, 1)
  | '.' => if ['.', '.'].isPrefixOf rest then (.spread, 3) else (.garbage, 1)
  | '"' => quotedLength rest
  | '#' => (.comment, 1 + run (fun d => d != '\n' && d != '\r') rest)
  | _ =>
    if isNameStart c then (.name, 1 + run isNameChar rest)
    else if isBlankChar c then (.whitespace, 1 + run isBlankChar rest)
    else match numberLength (c :: rest) with
      | some (length, isInteger) => (if isInteger then .int else .float, length)
      | none => (.garbage, 1)

/-! ## Scanning -/

/-- The tokens of a text that starts at the byte `offset`, once `skip` characters of it are passed over: those belong
to the token before. -/
def scanFrom : (skip offset : Nat) → List Char → List Token
  | _, _, [] => []
  | skip + 1, offset, _ :: rest => scanFrom skip offset rest
  | 0, offset, c :: rest =>
    let (kind, length) := lexeme c rest
    let text := c :: rest.take (length - 1)
    let stop := offset + Text.byteLength text
    ⟨kind, String.ofList text, ⟨offset, stop⟩⟩ :: scanFrom (length - 1) stop rest

/-- Puts a token before others and makes one of two neighbours that are garbage. -/
def cons (t : Token) : List Token → List Token
  | [] => [t]
  | u :: us =>
    if t.kind = .garbage ∧ u.kind = .garbage then ⟨.garbage, t.text ++ u.text, ⟨t.span.start, u.span.stop⟩⟩ :: us
    else t :: u :: us

/-- The tokens of a text. Garbage is joined from the right; a loop from the left that keeps where garbage started finds
the same, see `gather_scanFrom`. -/
def scan (text : String) : List Token := (scanFrom 0 0 text.toList).foldr cons []

end QueryBatch.Token
