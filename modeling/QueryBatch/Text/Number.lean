/-!
# Number literals

The decimal numbers that query documents and JSON share: an optional minus sign, digits without leading zeros, and
then perhaps a fraction and an exponent.

* `numberLength`: the length of the longest number that a text starts with.
-/

namespace QueryBatch.Text

/-- The number of leading characters for which `p` holds. -/
def run (p : Char → Bool) (cs : List Char) : Nat := (cs.takeWhile p).length

/-- The length of a leading run of digits without leading zeros. -/
def integerLength : List Char → Option Nat
  | [] => none
  | c :: rest => if c = '0' then some 1 else if c.isDigit then some (1 + run Char.isDigit rest) else none

/-- The length of a leading point with digits after it; zero if there is none. -/
def fractionLength : List Char → Nat
  | '.' :: rest => match run Char.isDigit rest with
    | 0 => 0
    | n + 1 => n + 2
  | _ => 0

/-- The length of a leading sign of an exponent. -/
def signLength : List Char → Nat
  | c :: _ => if c = '+' || c = '-' then 1 else 0
  | [] => 0

/-- The length of a leading exponent; zero if there is none. -/
def exponentLength : List Char → Nat
  | e :: rest =>
    if e = 'e' || e = 'E' then
      match run Char.isDigit (rest.drop (signLength rest)) with
      | 0 => 0
      | n + 1 => n + 2 + signLength rest
    else 0
  | [] => 0

/-- The length of the longest leading number, and whether it is an integer. -/
def numberLength (cs : List Char) : Option (Nat × Bool) :=
  let sign := if cs.head? = some '-' then 1 else 0
  (integerLength (cs.drop sign)).map fun whole =>
    let fraction := fractionLength (cs.drop (sign + whole))
    let exponent := exponentLength (cs.drop (sign + whole + fraction))
    (sign + whole + fraction + exponent, fraction + exponent == 0)

end QueryBatch.Text
