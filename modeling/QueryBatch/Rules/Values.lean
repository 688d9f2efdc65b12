import QueryBatch.Document.Print
import QueryBatch.Rules.Walk

/-!
# Rules for literal values

* `correctValues`: literals fit the types of the arguments and variables they are given for. Variables are passed over;
  `variablePositions` looks at those.
* `uniqueInputFields`: a field of an object literal is given once.
-/

namespace QueryBatch.Rules

/-! ## Scalars and enums -/

/-- The number that the digits of an integer literal stand for. -/
def integerOf (digits : String) : Int :=
  let valueOf := fun (cs : List Char) => cs.foldl (fun n c => n * 10 + (c.toNat - '0'.toNat)) 0
  match digits.toList with
  | '-' :: cs => -(valueOf cs : Int)
  | cs => valueOf cs

/-- Whether an integer fits into 32 bits with a sign. -/
def fits32 (n : Int) : Bool := -2147483648 ≤ n && n ≤ 2147483647

/-- Whether a literal is one of a scalar. A scalar of the schema's own takes every literal. -/
def scalarAccepts (scalar : String) (value : Value) : Bool :=
  match scalar, value with
  | "Int", .int _ _ | "Float", .int _ _ | "Float", .float _ _ | "String", .string _ _ | "Boolean", .boolean _ _
  | "ID", .string _ _ | "ID", .int _ _ => true
  | _, _ => !builtinScalars.contains scalar

section Check

variable (schema : Schema) (s : Subject)

/-- The diagnostic for a value that is not of a type. -/
def mismatch (value : Value) (type : String) : Diagnostic :=
  (s.diagnostic .invalidValue value.span).withDetail
    ("expected value of type `" ++ type ++ "`, found " ++ value.text)

/-- The faults of a literal of a scalar. -/
def scalarFaults (scalar : String) (value : Value) : List Diagnostic :=
  match scalar, value with
  | "Int", .int digits span =>
    if fits32 (integerOf digits) then []
    else
      [(s.diagnostic .invalidValue span).withDetail
        ("`Int` cannot represent non 32-bit signed integer value " ++ digits)]
  | _, _ => if scalarAccepts scalar value then [] else [mismatch s value scalar]

/-- The faults of a literal of an enum. -/
def enumFaults (type : String) (values : List String) (value : Value) : List Diagnostic :=
  match value with
  | .enum name span =>
    if values.contains name then []
    else
      [suggest ((s.diagnostic .invalidValue span).withDetail
        ("value `" ++ name ++ "` does not exist in `" ++ type ++ "` enum")) name values]
  | _ => [mismatch s value type]

/-- The faults of a literal that is no object, against a named type. Types that are no input types, or unknown, are left
to other rules. -/
def namedFaults (name : String) (value : Value) : List Diagnostic :=
  match schema.type? name with
  | some (.scalar scalar) => scalarFaults s scalar value
  | some (.enum _ values) => enumFaults s name values value
  | some (.inputObject _ _) => [mismatch s value name]
  | _ => []

/-! ## Values -/

/-- The required inputs that are not among those given. -/
def missingInputs (inputs : Inputs) (given : List (Name × Value)) : List InputDef :=
  inputs.values.filter fun d => d.isRequired && given.all fun (name, _) => name.text != d.name

mutual

/-- The faults of a value against a type. A value that is no list stands for the list of itself. -/
def valueFaults (type : TypeRef) : Value → List Diagnostic
  | .variable _ _ => []
  | .null span => if type.isNonNull then [mismatch s (.null span) type.text] else []
  | .list items span =>
    match type.itemType? with
    | some item => itemFaults item items
    | none => namedFaults schema s type.baseName (.list items span)
  | .object fields span =>
    match schema.type? type.baseName with
    | some (.inputObject name inputs) =>
      fieldFaults name inputs fields ++
        (missingInputs inputs fields).map fun d =>
          (s.diagnostic .invalidValue span).withDetail
            ("field `" ++ name ++ "." ++ d.name ++ "` of required type `" ++ d.type.text ++ "` was not provided")
    | _ => namedFaults schema s type.baseName (.object fields span)
  | value => namedFaults schema s type.baseName value

def itemFaults (type : TypeRef) : List Value → List Diagnostic
  | [] => []
  | item :: items => valueFaults type item ++ itemFaults type items

def fieldFaults (object : String) (inputs : Inputs) : List (Name × Value) → List Diagnostic
  | [] => []
  | (name, value) :: fields =>
    let own :=
      match inputs.find? name.text with
      | some d => valueFaults d.type value
      | none =>
        [suggest ((s.diagnostic .invalidValue name.span).withDetail
          ("field `" ++ name.text ++ "` is not defined by type `" ++ object ++ "`")) name.text inputs.keys]
    own ++ fieldFaults object inputs fields

end

end Check

/-- Defaults of variables and values of arguments fit their types. -/
def correctValues : Rule := eachVisit fun cx s v =>
  match v with
  | .variableDefinition v =>
    (v.defaultValue.toList.flatMap fun value => valueFaults cx.schema s v.type value).map s.rejectedFor
  | .argument _ a (some declared) => (valueFaults cx.schema s declared.type a.value).map s.rejectedFor
  | _ => []

/-! ## Input fields -/

/-- The faults of one object literal whose fields are given more than once. -/
def repeatedFields (s : Subject) (names : List Name) : List Diagnostic :=
  (repeats Name.text names).map fun (first, name) =>
    ((s.diagnostic .duplicateInputField name.span).withDetail name.text).relatedTo s.source first.span
      "first provided here"

mutual

/-- The repeated fields of a value and, after them, of the values inside it. -/
def repeatedFieldsIn (s : Subject) : Value → List Diagnostic
  | .list items _ => repeatedFieldsInItems s items
  | .object fields _ => repeatedFields s (fields.map Prod.fst) ++ repeatedFieldsInFields s fields
  | _ => []

def repeatedFieldsInItems (s : Subject) : List Value → List Diagnostic
  | [] => []
  | item :: items => repeatedFieldsIn s item ++ repeatedFieldsInItems s items

def repeatedFieldsInFields (s : Subject) : List (Name × Value) → List Diagnostic
  | [] => []
  | (_, value) :: fields => repeatedFieldsIn s value ++ repeatedFieldsInFields s fields

end

/-- A field of an object literal is given once. -/
def uniqueInputFields : Rule := eachVisit fun _ s v =>
  match v with
  | .variableDefinition v => (v.defaultValue.toList.flatMap (repeatedFieldsIn s)).map s.rejectedFor
  | .argument _ a _ => (repeatedFieldsIn s a.value).map s.rejectedFor
  | _ => []

end QueryBatch.Rules
