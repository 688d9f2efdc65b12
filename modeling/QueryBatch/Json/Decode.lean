import QueryBatch.Json.Basic
import QueryBatch.Json.NumberRange

/-!
# Reading records out of JSON values

A decoder takes a value apart and yields `none` where the value is not of the form it asks for.

* `Json.record`: the members of an object by key, or the items of an array in the order of the keys. A key that is asked
  for may come only once; other keys are passed over.
* `Json.required`, `Json.optional`, `Json.listOrEmpty`, `Json.flag`: what a member has to be, and what its lack means.
* `Json.isSound`: whether a value that is kept whole can be kept.
-/

namespace QueryBatch.Json

variable {α : Type}

/-! ## Members -/

/-- The members with their keys as strings. -/
def unescapeKeys (members : List (String × Json)) : Option (List (String × Json)) :=
  members.mapM fun (raw, value) => (unescapeString raw).map fun key => (key, value)

/-- The member of a key, if there is one, unless there are several. -/
def member (members : List (String × Json)) (key : String) : Option (Option Json) :=
  match members.filter fun m => m.1 == key with
  | [] => some none
  | [(_, value)] => some (some value)
  | _ => none

/-- Items in the order of `count` members, of which the first `least` may not be missing. -/
def positional (count least : Nat) (items : List Json) : Option (List (Option Json)) :=
  if least ≤ items.length ∧ items.length ≤ count then
    some (items.map some ++ List.replicate (count - items.length) none)
  else none

/-- The members of the given keys. An array stands for an object if it has the first `least` members at least. -/
def record (keys : List String) (least : Nat) : Json → Option (List (Option Json))
  | .object members => (unescapeKeys members).bind fun members => keys.mapM (member members)
  | .array items => positional keys.length least items
  | _ => none

/-! ## What a member has to be -/

/-- A member that may not be missing. -/
def required (decode : Json → Option α) (given : Option Json) : Option α := given.bind decode

/-- A member that may be missing or null. -/
def optional (decode : Json → Option α) : Option Json → Option (Option α)
  | none => some none
  | some .null => some none
  | some value => (decode value).map some

/-- A list. -/
def list (decode : Json → Option α) (value : Json) : Option (List α) := value.array?.bind fun items => items.mapM decode

/-- A list that is empty if it is missing. -/
def listOrEmpty (decode : Json → Option α) : Option Json → Option (List α)
  | none => some []
  | some value => list decode value

/-- A truth value that is false if it is missing. -/
def flag : Option Json → Option Bool
  | none => some false
  | some value => value.boolean?

/-! ## Values that are kept whole -/

mutual

/-- Whether a value can be kept: its strings and numbers stand for something and it is not nested deeper than `room`. -/
def isSound (room : Nat) : Json → Bool
  | .null => true
  | .boolean _ => true
  | .number digits => (Scaled.ofNumber digits.toList).isFinite
  | .string raw => (unescapeString raw).isSome
  | .array items => 0 < room && areSound (room - 1) items
  | .object members => 0 < room && membersAreSound (room - 1) members

def areSound (room : Nat) : List Json → Bool
  | [] => true
  | item :: items => item.isSound room && areSound room items

def membersAreSound (room : Nat) : List (String × Json) → Bool
  | [] => true
  | (raw, value) :: members =>
    (unescapeString raw).isSome && value.isSound room && membersAreSound room members

end

end QueryBatch.Json
