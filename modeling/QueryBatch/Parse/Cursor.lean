import QueryBatch.Diagnostic.Basic
import QueryBatch.Document.Basic
import QueryBatch.Token.Scan

/-!
# The state of a parse

A parse reads the tokens of one text from left to right, trivia left out, and reports faults as it goes on. It stops
only at a limit.

* `Limits`, `Stop`: the limits of a parse and the ways to run into one.
* `Cursor`: what is left to read, what was reported, and how many steps were taken.
* `bump`, `eat`, `expect`: the moves. Every move past a token is one step.
* `report`: one fault. Of faults that start at the same place in a row only the first counts.
* `collect`: the items up to a closing token. Its rounds are counted: a loop of more rounds than there are tokens left
  has one that reads no token, and stops the parse.
-/

namespace QueryBatch.Parse

/-! ## Limits -/

/-- The most steps a parse may take and the most nodes that may be open at once. `none` is no limit. The numbers of
steps and nodes are natural numbers of any size; in a text of less than 2^32 bytes both fit into words of 32 bits. -/
structure Limits where
  steps : Option Nat := some 1000000
  nesting : Option Nat := some 512
  deriving DecidableEq, Repr

/-- The limit that ended a parse. -/
inductive Stop where
  | stepsExhausted
  | nestingExceeded
  deriving DecidableEq, Repr

def Stop.message : Stop → String
  | .stepsExhausted => "execution limit exceeded"
  | .nestingExceeded => "recursion limit exceeded"

/-! ## Cursor -/

/-- Where a parse stands. -/
structure Cursor where
  /-- The tokens left to read. -/
  rest : List Token
  /-- The length of the text in bytes. -/
  textEnd : Nat
  /-- The most steps that may be taken. -/
  allowance : Option Nat
  /-- The steps taken. -/
  steps : Nat := 0
  /-- The end of the last token read, zero before the first. -/
  consumedEnd : Nat := 0
  /-- Where the last fault reported starts. -/
  lastReport : Option Nat := none
  /-- The faults reported, in order. -/
  reports : List Diagnostic := []

namespace Cursor

/-- The start of a text. -/
def ofText (text : String) (allowance : Option Nat) : Cursor :=
  { rest := (Token.scan text).filter fun t => !t.kind.isTrivia
    textEnd := text.utf8ByteSize
    allowance }

/-- The class of the next token. -/
def kind? (c : Cursor) : Option TokenKind := c.rest.head?.map Token.kind

/-- The text of the next token, empty at the end. -/
def text (c : Cursor) : String :=
  match c.rest with
  | t :: _ => t.text
  | [] => ""

/-- The span of the next token, or the empty span at the end of the text. -/
def span (c : Cursor) : Span :=
  match c.rest with
  | t :: _ => t.span
  | [] => .emptyAt c.textEnd

def atEnd (c : Cursor) : Bool := c.rest.isEmpty

/-- Whether the next token is of a class. -/
def isAt (c : Cursor) (kind : TokenKind) : Bool := c.kind? == some kind

/-- Whether the next token is the name `word`. -/
def isAtWord (c : Cursor) (word : String) : Bool := c.isAt .name && c.text == word

/-- Whether the next token is one of these names. -/
def isAtAnyWord (c : Cursor) (words : List String) : Bool := words.any c.isAtWord

/-- Whether a list ends here: at one of the classes or at the end of the text. -/
def closes (c : Cursor) (kinds : List TokenKind) : Bool := c.atEnd || kinds.any c.isAt

/-- The next token as messages name it. -/
def found (c : Cursor) : String :=
  match c.kind? with
  | none => "end of input"
  | some .name => "`" ++ c.text ++ "`"
  | some kind => kind.describe

end Cursor

end QueryBatch.Parse

/-- A parser of an `α`: it moves the cursor or stops at a limit. -/
abbrev QueryBatch.Parse := StateT QueryBatch.Parse.Cursor (Except QueryBatch.Parse.Stop)

namespace QueryBatch.Parse

/-- Two parsers one after the other yield what the second one yields from where the first one ended. -/
theorem bind_eq_ok {α β : Type} {p : Parse α} {f : α → Parse β} {c e : Cursor} {b : β} :
    (p >>= f) c = .ok (b, e) ↔ ∃ a d, p c = .ok (a, d) ∧ f a d = .ok (b, e) := by
  have hbind : (p >>= f) c = (p c).bind fun r => f r.1 r.2 := rfl
  rw [hbind]
  cases p c with
  | error stop =>
    refine iff_of_false (fun h => by cases h) ?_
    rintro ⟨a, d, h, -⟩
    cases h
  | ok r =>
    refine ⟨fun h => ⟨r.1, r.2, rfl, h⟩, ?_⟩
    rintro ⟨a, d, ⟨⟩, h⟩
    exact h

/-! ## Moves -/

/-- Reads the next token, in one step. At the end of the text the step yields an empty token and stays. -/
def bump : Parse Token := fun c =>
  if c.allowance.any (· ≤ c.steps) then .error .stepsExhausted
  else
    match c.rest with
    | t :: rest => .ok (t, { c with rest, steps := c.steps + 1, consumedEnd := t.span.stop })
    | [] => .ok (⟨.garbage, "", .emptyAt c.textEnd⟩, { c with steps := c.steps + 1 })

/-- Passes over the next token. -/
def skip : Parse Unit := do let _ ← bump

/-- Reads the next token if it is of a class. -/
def eat (kind : TokenKind) : Parse (Option Token) := do
  if (← get).isAt kind then return some (← bump) else return none

/-- Reads the next token if it is the name `word`. -/
def eatWord (word : String) : Parse (Option Token) := do
  if (← get).isAtWord word then return some (← bump) else return none

/-- The span from an offset to the end of the last token read. -/
def spanFrom (start : Nat) : Parse Span := do return ⟨start, (← get).consumedEnd⟩

/-! ## Reports -/

/-- Reports a fault unless the last one reported starts at `start` as well. -/
def reportOnceAt (start : Nat) (d : Diagnostic) : Parse Unit :=
  modify fun c =>
    if c.lastReport = some start then c else { c with lastReport := some start, reports := c.reports ++ [d] }

theorem reportOnceAt_run (start : Nat) (d : Diagnostic) (c : Cursor) :
    reportOnceAt start d c = .ok ((), if c.lastReport = some start then c else
      { c with lastReport := some start, reports := c.reports ++ [d] }) := rfl

/-- Reports a fault in the wording of its kind at the next token. -/
def reportHere (kind : Diagnostic.Kind) : Parse Unit := do
  let span := (← get).span
  reportOnceAt span.start (.of 0 kind span)

/-- Reports a fault at a span. -/
def reportAt (kind : Diagnostic.Kind) (span : Span) (detail : String) : Parse Unit :=
  reportOnceAt span.start ((Diagnostic.of 0 kind span).withDetail detail)

/-- Reports a fault at the next token. -/
def report (kind : Diagnostic.Kind) (detail : String) : Parse Unit := do
  reportAt kind (← get).span detail

/-- Reports a fault at the next token and passes over it. -/
def reportAndSkip (kind : Diagnostic.Kind) (detail : String) : Parse Unit := do
  report kind detail
  skip

/-- Reports that what opened at `opened` is not closed by `closer`. -/
def reportUnclosed (closer : String) (opened : Span) : Parse Unit := do
  let span := (← get).span
  reportOnceAt span.start
    (((Diagnostic.of 0 .unclosedDelimiter span).withDetail closer).relatedTo 0 opened "opened here")

/-! ## Expectations -/

/-- Reads a token of a class, or reports that it is missing. -/
def expect (kind : TokenKind) : Parse (Option Token) := do
  match ← eat kind with
  | some t => return some t
  | none =>
    report .unexpectedToken ("expected " ++ kind.describe ++ ", found " ++ (← get).found)
    return none

/-- Reads the name `word`, or reports that it is missing. -/
def expectWord (word : String) : Parse (Option Token) := do
  match ← eatWord word with
  | some t => return some t
  | none =>
    report .unexpectedToken ("expected `" ++ word ++ "`, found " ++ (← get).found)
    return none

/-- Reads a name, or reports that it is missing. -/
def expectName : Parse (Option Name) := do
  match ← eat .name with
  | some t => return some ⟨t.text, t.span⟩
  | none =>
    report .expectedName ("found " ++ (← get).found)
    return none

/-- Reads a closing token, or reports that it is missing. -/
def close (kind : TokenKind) (closer : String) (opened : Span) : Parse Unit := do
  if (← eat kind).isNone then reportUnclosed closer opened

/-! ## Rounds -/

/-- Runs `step` while `more` holds of the cursor and collects what it yields in reverse before `found`. A loop that uses
up its `rounds` stops the parse, as one does that takes steps without end. -/
def collectRounds {α : Type} (more : Cursor → Bool) (step : Parse (Option α)) :
    (rounds : Nat) → (found : List α) → Parse (List α)
  | 0, _ => throw .stepsExhausted
  | rounds + 1, found => do
    if more (← get) then
      match ← step with
      | some item => collectRounds more step rounds (item :: found)
      | none => collectRounds more step rounds found
    else return found.reverse

/-- Runs `step` while `more` holds of the cursor and collects what it yields. There are rounds
enough as long as each of them reads a token. -/
def collect {α : Type} (more : Cursor → Bool) (step : Parse (Option α)) : Parse (List α) := do
  collectRounds more step ((← get).rest.length + 1) []

/-- A token that is passed over. -/
def skipped : Parse (Option Unit) := do skip; return none

/-- Passes over tokens while `more` holds of the cursor. -/
def skipWhile (more : Cursor → Bool) : Parse Unit := do
  let _ ← collect more skipped

end QueryBatch.Parse
