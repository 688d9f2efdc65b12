import QueryBatch.Proofs.Schema.Additions
import QueryBatch.Proofs.Schema.Sources

/-!
# The kinds of the types that are referred to

A builder looks whether a reference has a target. Roots and interfaces aside it does not look what kind of type that is.

* `Schema.PossibleAreObjects`, `InputsAreInput`, `FieldsAreOutput`: what the rules take for granted of the kinds of
  types, together `Schema.KindCorrect`.
* `Schema.Misfit`: a reference to a type of a kind that does not belong there.
* `Schema.IsGiven.kinds`: the kinds that a schema has for certain, and that misfits are all that can go wrong.
-/

namespace QueryBatch

/-! ## What a built schema has -/

namespace Schema

variable {schema : Schema} {name member interface : String} {t : TypeDef}

theorem declarations_of_build {xs : List Addition} (h : (({} : Builder).attemptAll xs).build = .ok schema) :
    schema.declarations = declarationsOf xs ∧ (declarationsOf xs).Closed := by
  obtain ⟨hclosed, rfl⟩ := Builder.build_eq_ok_iff.1 h
  rw [Builder.declarations_assembled, Builder.declarations_attemptAll]
  exact ⟨rfl, Builder.declarations_attemptAll xs ▸ hclosed⟩

namespace IsBuilt

/-- A built schema has what some sequence of additions declares, and that is closed. -/
theorem exists_declarationsOf (h : schema.IsBuilt) :
    ∃ xs, schema.declarations = declarationsOf xs ∧ (declarationsOf xs).Closed := by
  obtain ⟨b, hmade, hbuild⟩ := h
  obtain ⟨xs, rfl⟩ := Builder.made_iff.1 hmade
  exact ⟨xs, declarations_of_build hbuild⟩

theorem closed (h : schema.IsBuilt) : schema.declarations.Closed := by
  obtain ⟨xs, hxs, hclosed⟩ := h.exists_declarationsOf
  exact hxs ▸ hclosed

/-- Types are found under their own names. -/
theorem name_of_type? (h : schema.IsBuilt) (ht : schema.type? name = some t) : t.name = name := by
  obtain ⟨xs, hxs, -⟩ := h.exists_declarationsOf
  have hfind : declaredType? xs name = some t := by
    rw [← ht]
    exact (congrFun (congrArg Declarations.type? hxs) name).symm
  exact beq_iff_eq.1 (List.find?_some (p := fun t : TypeDef => t.name == name) hfind)

end IsBuilt

theorem mem_implementations : member ∈ schema.implementations interface ↔
    ∃ fields interfaces, .object member fields interfaces ∈ schema.types.values ∧ interface ∈ interfaces := by
  simp only [implementations, List.mem_flatMap]
  constructor
  · rintro ⟨t, ht, hmember⟩
    cases t with
    | object name fields interfaces =>
      obtain ⟨i, hi, rfl⟩ := List.mem_map.1 hmember
      obtain ⟨hi, heq⟩ := List.mem_filter.1 hi
      exact ⟨fields, interfaces, ht, beq_iff_eq.1 heq ▸ hi⟩
    | _ => cases hmember
  · rintro ⟨fields, interfaces, ht, hi⟩
    exact ⟨_, ht, List.mem_map.2 ⟨interface, List.mem_filter.2 ⟨hi, beq_self_eq_true _⟩, rfl⟩⟩

/-- A type of this name is an object type. -/
def HasObject (schema : Schema) (name : String) : Prop := ∃ t, schema.type? name = some t ∧ t.kind = .object

/-- What an object or interface type stands for are object types. -/
theorem IsBuilt.hasObject (h : schema.IsBuilt) (ht : schema.type? name = some t) (hunion : t.kind ≠ .union)
    (hmember : member ∈ schema.possibleTypes t) : schema.HasObject member := by
  cases t with
  | object own fields interfaces =>
    obtain rfl := h.name_of_type? ht
    obtain rfl := List.mem_singleton.1 hmember
    exact ⟨_, ht, rfl⟩
  | interface own fields interfaces =>
    obtain ⟨fields, interfaces, hobject, -⟩ := mem_implementations.1 hmember
    obtain ⟨key, hkey⟩ := OrderedMap.mem_values_iff.1 hobject
    obtain rfl := h.name_of_type? hkey
    exact ⟨_, hkey, rfl⟩
  | union own members => exact absurd rfl hunion
  | _ => cases hmember

/-! ## Kinds -/

/-- What composite types stand for are object types. -/
def PossibleAreObjects (schema : Schema) : Prop :=
  ∀ name t, schema.type? name = some t → t.isComposite = true →
    ∀ member ∈ schema.possibleTypes t, schema.HasObject member

/-- The arguments of fields and directives and the fields of input objects are of input types. -/
def InputsAreInput (schema : Schema) : Prop :=
  ∀ input, schema.declarations.HasInput input → schema.isInputType input.type = true

/-- No field of an object or interface is of an input object type. -/
def FieldsAreOutput (schema : Schema) : Prop :=
  ∀ field, schema.declarations.HasField field →
    ∀ t, schema.type? field.type.baseName = some t → t.kind ≠ .inputObject

/-- Types stand where types of their kinds belong. -/
structure KindCorrect (schema : Schema) : Prop where
  possible : schema.PossibleAreObjects
  inputs : schema.InputsAreInput
  fields : schema.FieldsAreOutput

/-- A union lists a type that is no object type, an argument or input field is of a composite type, or a field is of an
input object type. -/
inductive Misfit (schema : Schema) : Prop
  | member {name : String} {t : TypeDef} : schema.declarations.HasMember name → schema.type? name = some t →
      t.kind ≠ .object → Misfit schema
  | input {input : InputDef} {t : TypeDef} : schema.declarations.HasInput input →
      schema.type? input.type.baseName = some t → t.isComposite = true → Misfit schema
  | field {field : FieldDef} {t : TypeDef} : schema.declarations.HasField field →
      schema.type? field.type.baseName = some t → t.kind = .inputObject → Misfit schema

theorem isInputType_of_type? {type : TypeRef} (ht : schema.type? type.baseName = some t) :
    schema.isInputType type = !t.isComposite := by
  rw [isInputType, ht, Option.any_some]
  cases t <;> rfl

theorem possibleAreObjects_iff (h : schema.IsBuilt) :
    schema.PossibleAreObjects ↔ ∀ member, schema.declarations.HasMember member → schema.HasObject member := by
  constructor
  · rintro hpossible member ⟨owner, union, members, ht, hmember⟩
    exact hpossible owner _ ht rfl member hmember
  · intro hmembers name t ht _ member hmember
    by_cases hunion : t.kind = .union
    · cases t with
      | union own members => exact hmembers member ⟨name, own, members, ht, hmember⟩
      | _ => cases hunion
    · exact h.hasObject ht hunion hmember

theorem inputsAreInput_iff (h : schema.IsBuilt) :
    schema.InputsAreInput ↔ ∀ input, schema.declarations.HasInput input →
      ∀ t, schema.type? input.type.baseName = some t → t.isComposite = false := by
  refine forall_congr' fun input => forall_congr' fun hinput => ?_
  obtain ⟨t, ht : schema.type? _ = some t⟩ := h.closed.inputs input hinput
  rw [isInputType_of_type? ht, Bool.not_eq_true', ht]
  refine ⟨?_, fun hall => hall t rfl⟩
  rintro ht t' ⟨⟩
  exact ht

/-- Misfits are all that can be wrong with the kinds. -/
theorem kindCorrect_iff (h : schema.IsBuilt) : schema.KindCorrect ↔ ¬ schema.Misfit := by
  constructor
  · rintro ⟨hpossible, hinputs, hfields⟩ hmisfit
    cases hmisfit with
    | member hmember ht hkind =>
      obtain ⟨o, ho, hobject⟩ := (possibleAreObjects_iff h).1 hpossible _ hmember
      cases ht.symm.trans ho
      exact hkind hobject
    | input hinput ht hcomposite =>
      rw [(inputsAreInput_iff h).1 hinputs _ hinput _ ht] at hcomposite
      cases hcomposite
    | field hfield ht hkind => exact hfields _ hfield _ ht hkind
  · intro hfits
    refine ⟨(possibleAreObjects_iff h).2 fun member hmember => ?_,
      (inputsAreInput_iff h).2 fun input hinput t ht => ?_, fun field hfield t ht hkind => ?_⟩
    · obtain ⟨t, ht⟩ := h.closed.members member hmember
      by_contra hno
      exact hfits (.member hmember ht fun hkind => hno ⟨t, ht, hkind⟩)
    · exact Bool.eq_false_iff.2 fun hcomposite => hfits (.input hinput ht hcomposite)
    · exact hfits (.field hfield ht hkind)

/-- Of a schema that is built, or read from a text or from JSON: what object and interface types stand for are object
types; members of unions and all types of inputs and fields are types of the schema; and all types stand where types of
their kinds belong just if no union lists a type that is no object type, no argument or input field is of a composite
type, and no field is of an input object type. -/
theorem IsGiven.kinds (h : schema.IsGiven) :
    (∀ name t, schema.type? name = some t → t.kind ≠ .union →
      ∀ member ∈ schema.possibleTypes t, schema.HasObject member) ∧
    (∀ member, schema.declarations.HasMember member → schema.declarations.Knows member) ∧
    (∀ input, schema.declarations.HasInput input → schema.declarations.Knows input.type.baseName) ∧
    (∀ field, schema.declarations.HasField field → schema.declarations.Knows field.type.baseName) ∧
    (schema.KindCorrect ↔ ¬ schema.Misfit) := by
  have hbuilt := h.isBuilt
  exact ⟨fun name t ht hunion member hmember => hbuilt.hasObject ht hunion hmember, hbuilt.closed.members,
    hbuilt.closed.inputs, hbuilt.closed.fields, kindCorrect_iff hbuilt⟩

/-- A text in which an object type lists an interface. -/
def nodeText : String := "interface Node type Query implements Node"

theorem kinds_nodeText : ∃ schema t, ofText nodeText = .ok schema ∧ schema.type? "Node" = some t ∧
    schema.possibleTypes t = ["Query"] ∧ schema.HasObject "Query" := by
  have hview : ((ofText nodeText).toOption.bind fun schema => (schema.type? "Node").map fun t =>
      (t.kind, schema.possibleTypes t)) = some (.interface, ["Query"]) := by decide +kernel
  obtain ⟨schema, hschema, hview⟩ := Option.bind_eq_some_iff.1 hview
  obtain ⟨t, ht, hview⟩ := Option.map_eq_some_iff.1 hview
  obtain ⟨hkind, hpossible⟩ : t.kind = .interface ∧ schema.possibleTypes t = ["Query"] := Prod.ext_iff.1 hview
  have hread := eq_ok_of_toOption hschema
  have hunion : t.kind ≠ .union := by
    rw [hkind]
    decide
  exact ⟨schema, t, hread, ht, hpossible,
    (IsGiven.kinds (.text hread)).1 "Node" t ht hunion "Query" (hpossible ▸ List.mem_singleton_self _)⟩

/-- An argument and an input field of an object type, a field of an input object type and a union with a scalar. -/
def misfits : List Addition :=
  [.type (.object "Query" (.ofList
      [("a", ⟨"a", .ofList [⟨"x", .named "Query", none⟩], .named "Filter"⟩)]) []),
    .type (.inputObject "Filter" (.ofList [⟨"q", .named "Query", none⟩])), .type (.union "Any" ["Int", "Query"])]

/-- They make a schema all the same. -/
theorem exists_not_kindCorrect : ∃ schema : Schema, schema.IsBuilt ∧
    ¬ schema.PossibleAreObjects ∧ ¬ schema.InputsAreInput ∧ ¬ schema.FieldsAreOutput := by
  have hok : (({} : Builder).attemptAll misfits).build.toOption.isSome = true := by decide +kernel
  obtain ⟨schema, hschema⟩ := Option.isSome_iff_exists.1 hok
  have hbuild := eq_ok_of_toOption hschema
  have hdeclared := (declarations_of_build hbuild).1
  have htype : ∀ name, schema.type? name = declaredType? misfits name :=
    fun name => congrFun (congrArg Declarations.type? hdeclared) name
  have hfield : schema.declarations.HasField
      ⟨"a", .ofList [⟨"x", .named "Query", none⟩], .named "Filter"⟩ :=
    ⟨"Query", _, _, htype "Query", rfl, List.mem_singleton_self _⟩
  refine ⟨schema, ⟨_, Builder.made_iff.2 ⟨misfits, rfl⟩, hbuild⟩, fun hpossible => ?_, fun hinputs => ?_,
    fun hfields => ?_⟩
  · obtain ⟨t, ht, hkind⟩ := hpossible "Any" _ (htype "Any") rfl "Int" List.mem_cons_self
    cases (htype "Int").symm.trans ht
    cases hkind
  · have hinput := hinputs _ (.fieldArgument hfield (List.mem_singleton_self _))
    rw [isInputType, htype] at hinput
    cases hinput
  · exact hfields _ hfield _ (htype "Filter") rfl

end Schema

end QueryBatch
