import QueryBatch.Source

/-!
# Tokens

The lexical units of query documents and schema texts. Blanks, commas and comments are tokens too: trivia, which the
grammar skips. Characters that no token holds form garbage.
-/

namespace QueryBatch

/-- The class of a token. -/
inductive TokenKind where
  | bang
  | dollar
  | amp
  | lParen
  | rParen
  | spread
  | colon
  | equals
  | atSign
  | lBracket
  | rBracket
  | lBrace
  | pipe
  | rBrace
  | name
  | int
  | float
  | string
  | unterminatedString
  | blockString
  | comment
  | whitespace
  | comma
  | garbage
  deriving DecidableEq, Repr, Inhabited

/-- Whether the grammar skips tokens of this class. -/
def TokenKind.isTrivia : TokenKind → Bool
  | .whitespace | .comma | .comment => true
  | _ => false

/-- The class as messages name it. -/
def TokenKind.describe : TokenKind → String
  | .bang => "`!`"
  | .dollar => "`$`"
  | .amp => "`&`"
  | .lParen => "`(`"
  | .rParen => "`)`"
  | .spread => "`...`"
  | .colon => "`:`"
  | .equals => "`=`"
  | .atSign => "`@`"
  | .lBracket => "`[`"
  | .rBracket => "`]`"
  | .lBrace => "`\x7b`"
  | .pipe => "`|`"
  | .rBrace => "`\x7d`"
  | .name => "name"
  | .int => "integer"
  | .float => "float"
  | .string | .unterminatedString | .blockString => "string"
  | .comment => "comment"
  | .whitespace => "whitespace"
  | .comma => "`,`"
  | .garbage => "invalid character"

/-- A lexical unit: its class, its text and where it stands. -/
structure Token where
  kind : TokenKind
  text : String
  span : Span
  deriving DecidableEq, Repr, Inhabited

end QueryBatch
