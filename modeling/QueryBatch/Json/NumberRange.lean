import QueryBatch.Text.Number

/-!
# The range of numbers

A number is kept as a binary floating-point number of 64 bits. Its value is taken in two parts, each rounded on its
own: a significand of as many leading digits as fit into 64 bits, and the power of ten that the other digits and the
exponent make up for.

* `Scaled.ofNumber`: the two parts of a written number.
* `Scaled.isFinite`: whether their product is not too large to be kept.
-/

namespace QueryBatch.Json

/-- A number as a product, `significand * 10 ^ exponent`. -/
structure Scaled where
  significand : Nat
  exponent : Int
  deriving DecidableEq, Repr

/-- The number that digits stand for. -/
def digitsValue (cs : List Char) : Nat := cs.foldl (fun n c => 10 * n + (c.toNat - 48)) 0

/-- The greatest number of 64 bits. -/
def greatestWord : Nat := 18446744073709551615

/-- Appends digits to a significand as long as it fits into 64 bits, and leaves the others. -/
def appendDigits (significand : Nat) : List Char → Nat × List Char
  | [] => (significand, [])
  | c :: rest =>
    let next := 10 * significand + (c.toNat - 48)
    if next ≤ greatestWord then appendDigits next rest else (significand, c :: rest)

namespace Scaled

/-- The number with the given digits before and after the point, times a power of ten. Of the digits that find no room,
those before the point multiply by ten and those after it do nothing. -/
def ofDigits (whole fraction : List Char) (exponent : Int) : Scaled :=
  let (front, leftOfWhole) := appendDigits 0 whole
  let (significand, leftOfFraction) := appendDigits front fraction
  ⟨significand, leftOfWhole.length - (fraction.length - leftOfFraction.length) + exponent⟩

/-- The parts of a written number, without its sign. -/
def ofNumber (number : List Char) : Scaled :=
  let unsigned := if number.head? = some '-' then number.tail else number
  let whole := unsigned.takeWhile Char.isDigit
  let rest := unsigned.dropWhile Char.isDigit
  let fraction := if rest.head? = some '.' then rest.tail.takeWhile Char.isDigit else []
  let rest := if rest.head? = some '.' then rest.tail.dropWhile Char.isDigit else rest
  let written := rest.drop 1
  let exponent := digitsValue (written.drop (Text.signLength written))
  ofDigits whole fraction (if written.head? = some '-' then -exponent else exponent)

end Scaled

/-! ## Rounding -/

/-- The nearest number with 53 significant bits. A number halfway between two goes to the even one. -/
def roundToFloat (n : Nat) : Nat :=
  let unit := Nat.pow 2 (Nat.log2 n - 52)
  let floor := n / unit
  let rest := n % unit
  if 2 * rest < unit || (2 * rest == unit && floor % 2 == 0) then floor * unit else (floor + 1) * unit

/-- The least number that is rounded to infinity. -/
def infinityBound : Nat := Nat.pow 2 1024 - Nat.pow 2 970

/-- Whether the number is kept as a finite one. Small numbers always are. -/
def Scaled.isFinite (s : Scaled) : Bool :=
  s.significand == 0 || s.exponent < 0 ||
    (s.exponent ≤ 308 && roundToFloat s.significand * roundToFloat (Nat.pow 10 s.exponent.toNat) < infinityBound)

end QueryBatch.Json
