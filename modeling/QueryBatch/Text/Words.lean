import QueryBatch.Text.Letter

/-!
# Words and kebab case

A text falls into words at every character that is no letter and no ASCII digit, between letters and digits, from a
lower-case letter to a capital, and before the last capital of a run that goes on in lower case.

* `words`: the words of a text, in order.
* `kebabCase`: the words in lower case, joined by hyphens.
-/

namespace QueryBatch.Text

/-- What a character is to the splitting into words. -/
inductive LetterClass where
  | upper
  | lower
  | digit
  | separator
  deriving DecidableEq, Repr

/-- Only ASCII digits are digits. A letter without case counts as lower case. -/
def letterClass (c : Char) : LetterClass :=
  if c.isDigit then .digit
  else if isUppercase c then .upper
  else if isAlphabetic c then .lower
  else .separator

/-- Whether a word ends between a character of class `before` and its neighbour of class `here`; `next` is the class
of the character after that. -/
def splitsBetween (before here : LetterClass) (next : Option LetterClass) : Bool :=
  match before, here with
  | .lower, .upper => true
  | .digit, .upper => true
  | .digit, .lower => true
  | .upper, .digit => true
  | .lower, .digit => true
  | .upper, .upper => next = some .lower
  | _, _ => false

/-- The word collected so far, if it has a character. The characters come latest first. -/
def closeWord (current : List Char) : List (List Char) :=
  if current.isEmpty then [] else [current.reverse]

/-- The words of the rest of a text: `before` is the class of the last character and `current` the word so far, latest
character first. -/
def wordsFrom (before : LetterClass) (current : List Char) : List Char → List (List Char)
  | [] => closeWord current
  | c :: rest =>
    let here := letterClass c
    if here = .separator then closeWord current ++ wordsFrom here [] rest
    else if splitsBetween before here (rest.head?.map letterClass) then
      closeWord current ++ wordsFrom here [c] rest
    else wordsFrom here (c :: current) rest

/-- The words of a text. The start of the text acts as a separator. -/
def words (cs : List Char) : List (List Char) := wordsFrom .separator [] cs

/-- The words of a text in lower case, joined by hyphens. -/
def kebabCase (text : String) : String :=
  "-".intercalate ((words text.toList).map fun word => String.ofList (lowercase word))

end QueryBatch.Text
