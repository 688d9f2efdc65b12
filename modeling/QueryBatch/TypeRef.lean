import QueryBatch.Text.Blank

/-!
# Type references

A type as fields, arguments and variables name it: a named type, a list of a type, or a type without `null`.

* `TypeRef.text`: the written form, and `TypeRef.ofText?`, its reader, which allows white space around every part.
* `TypeRef.isSubtypeOf`: whether values of one type may stand where another is expected.
-/

namespace QueryBatch

inductive TypeRef where
  | named (name : String)
  | list (item : TypeRef)
  | nonNull (inner : TypeRef)
  deriving DecidableEq, Repr, Inhabited

namespace TypeRef

open Text

/-! ## Parts -/

/-- The name inside all lists and non-null marks. -/
def baseName : TypeRef → String
  | named name => name
  | list item => item.baseName
  | nonNull inner => inner.baseName

def isNonNull : TypeRef → Bool
  | nonNull _ => true
  | _ => false

/-- Whether the type is a list, a non-null mark aside. -/
def isList : TypeRef → Bool
  | list _ => true
  | nonNull inner => inner.isList
  | named _ => false

/-- The type without its outer non-null mark. -/
def nullable : TypeRef → TypeRef
  | nonNull inner => inner
  | t => t

/-- The type of the items of a list, a non-null mark aside. -/
def listItem? (t : TypeRef) : Option TypeRef :=
  match t.nullable with
  | list item => some item
  | _ => none

/-- The type of the items of a list, however many non-null marks it has. -/
def itemType? : TypeRef → Option TypeRef
  | list item => some item
  | nonNull inner => inner.itemType?
  | named _ => none

/-- Marks a type non-null. A second mark changes nothing. -/
def required : TypeRef → TypeRef
  | nonNull inner => nonNull inner
  | t => nonNull t

/-- Whether a value of the first type may stand where the second is expected: the same shape, save that a non-null
type is accepted for a nullable one. -/
def isSubtypeOf : TypeRef → TypeRef → Bool
  | nonNull a, nonNull b => a.isSubtypeOf b
  | nonNull a, b => a.isSubtypeOf b
  | _, nonNull _ => false
  | list a, list b => a.isSubtypeOf b
  | list _, named _ => false
  | named _, list _ => false
  | named a, named b => a == b

/-! ## Written form -/

def text : TypeRef → String
  | named name => name
  | list item => "[" ++ item.text ++ "]"
  | nonNull inner => inner.text ++ "!"

/-- Whether characters form a name: letters, digits and underscores of ASCII, with no digit in front. -/
def isName : List Char → Bool
  | [] => false
  | c :: rest => (c == '_' || c.isAlpha) && rest.all fun d => d == '_' || d.isAlphanum

/-- The type that characters stand for, with white space around any part of it. Two non-null marks in a row are
refused. -/
def ofChars? (cs : List Char) : Option TypeRef :=
  let trimmed := trimBlank cs
  if _mark : trimmed.getLast? = some '!' then
    match ofChars? trimmed.dropLast with
    | some inner => if inner.isNonNull then none else some (nonNull inner)
    | none => none
  else if _opened : trimmed.head? = some '[' ∧ trimmed.tail.getLast? = some ']' then
    (ofChars? trimmed.tail.dropLast).map list
  else if isName trimmed then some (named (String.ofList trimmed))
  else none
termination_by cs.length
decreasing_by
  · have shorter := Text.length_trimBlank_le cs
    have some : trimmed ≠ [] := by intro h; simp [h] at _mark
    have positive := List.length_pos_iff.2 some
    simp only [List.length_dropLast]
    have same : trimmed.length = (Text.trimBlank cs).length := rfl
    omega
  · have shorter := Text.length_trimBlank_le cs
    have some : trimmed.tail ≠ [] := by intro h; simp [h] at _opened
    have positive := List.length_pos_iff.2 some
    simp only [List.length_dropLast, List.length_tail] at *
    have same : trimmed.length = (Text.trimBlank cs).length := rfl
    omega

/-- The type that a text stands for. -/
def ofText? (text : String) : Option TypeRef := ofChars? text.toList

end TypeRef

end QueryBatch
