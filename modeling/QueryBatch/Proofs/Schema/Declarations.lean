import QueryBatch.Proofs.Schema.Built

/-!
# Declarations and what they refer to

* `Declarations`: what the names of types and directives and the roots stand for, as a schema or a builder has it.
* `Declarations.HasInterface`, `HasField`, `HasInput`, `HasMember`: where declarations refer to types.
* `Declarations.Closed`: every reference has a target, of the kind that roots and interfaces need.
* `Builder.build_eq_ok_iff`: a builder gives a schema just if its declarations are closed.
-/

namespace QueryBatch

/-! ## Declarations -/

/-- What names stand for. -/
@[ext] structure Declarations where
  type? : String → Option TypeDef
  directive? : String → Option DirectiveDef
  /-- The name of the root type of an operation. -/
  rootName? : OperationKind → Option String

namespace Declarations

variable (D : Declarations)

/-- A name stands for a type. -/
def Knows (name : String) : Prop := ∃ t, D.type? name = some t

/-- A type lists a name as one of its interfaces. -/
def HasInterface (name : String) : Prop := ∃ owner t, D.type? owner = some t ∧ name ∈ t.interfaces

/-- A field of an object or interface. -/
def HasField (field : FieldDef) : Prop :=
  ∃ owner t fields, D.type? owner = some t ∧ t.fields? = some fields ∧ field ∈ fields.values

/-- An argument of a field or directive, or a field of an input object. -/
inductive HasInput : InputDef → Prop
  | fieldArgument {field : FieldDef} {input : InputDef} : D.HasField field → input ∈ field.arguments.values →
      HasInput input
  | directiveArgument {name : String} {directive : DirectiveDef} {input : InputDef} :
      D.directive? name = some directive → input ∈ directive.arguments.values → HasInput input
  | inputField {owner : String} {t : TypeDef} {fields : Inputs} {input : InputDef} : D.type? owner = some t →
      t.inputFields? = some fields → input ∈ fields.values → HasInput input

/-- A union lists a name as one of its members. -/
def HasMember (name : String) : Prop :=
  ∃ owner union members, D.type? owner = some (.union union members) ∧ name ∈ members

/-- Every reference has a target: roots are object types, interfaces are interface types, and all else that fields,
inputs and unions refer to is a type. -/
structure Closed : Prop where
  roots : ∀ kind name, D.rootName? kind = some name → ∃ t, D.type? name = some t ∧ t.kind = .object
  interfaces : ∀ name, D.HasInterface name → ∃ t, D.type? name = some t ∧ t.kind = .interface
  fields : ∀ field, D.HasField field → D.Knows field.type.baseName
  inputs : ∀ input, D.HasInput input → D.Knows input.type.baseName
  members : ∀ name, D.HasMember name → D.Knows name

end Declarations

/-- The usual name of the root type of an operation. -/
def OperationKind.usualRoot : OperationKind → String
  | .query => "Query"
  | .mutation => "Mutation"
  | .subscription => "Subscription"

def Schema.declarations (schema : Schema) : Declarations := ⟨schema.type?, schema.directive?, schema.rootName?⟩

namespace Builder

/-- The root type that was set for an operation. -/
def setRoot? (b : Builder) : OperationKind → Option String
  | .query => b.queryType
  | .mutation => b.mutationType
  | .subscription => b.subscriptionType

def declarations (b : Builder) : Declarations where
  type? := b.types.find?
  directive? := b.directives.find?
  rootName? kind := b.rootOr (b.setRoot? kind) kind.usualRoot

/-! ## Checks -/

variable {b : Builder}

theorem contains_iff_knows {name : String} : b.types.contains name = true ↔ b.declarations.Knows name := by
  rw [← OrderedMap.find?_isSome_iff, Option.isSome_iff_exists]
  rfl

theorem checkType_iff {name context : String} : b.checkType name context = .ok () ↔ b.declarations.Knows name :=
  checkType_eq_ok.trans contains_iff_knows

theorem checkRoot_iff {name : String} :
    b.checkRoot name = .ok () ↔ ∃ t, b.types.find? name = some t ∧ t.kind = .object := by
  unfold checkRoot
  split
  · rename_i hfind
    exact iff_of_true rfl ⟨_, hfind, rfl⟩
  · rename_i t hother hfind
    refine iff_of_false (fun h => by cases h) ?_
    rintro ⟨t', hfind', hkind⟩
    obtain rfl := Option.some.inj (hfind.symm.trans hfind')
    cases t with
    | object name fields interfaces => exact hother name fields interfaces rfl
    | _ => cases hkind
  · rename_i hfind
    refine iff_of_false (fun h => by cases h) ?_
    rintro ⟨t, hfind', -⟩
    exact Option.some_ne_none t (hfind'.symm.trans hfind)

theorem checkInterface_iff {owner name : String} :
    b.checkInterface owner name = .ok () ↔ ∃ t, b.types.find? name = some t ∧ t.kind = .interface := by
  unfold checkInterface
  split
  · rename_i hfind
    exact iff_of_true rfl ⟨_, hfind, rfl⟩
  · rename_i hother
    refine iff_of_false (fun h => by cases h) ?_
    rintro ⟨t, hfind, hkind⟩
    cases t with
    | interface name fields interfaces => exact hother name fields interfaces hfind
    | _ => cases hkind

theorem checkField_iff {owner : String} {field : FieldDef} :
    b.checkField owner field = .ok () ↔ b.declarations.Knows field.type.baseName ∧
      ∀ input ∈ field.arguments.values, b.declarations.Knows input.type.baseName := by
  unfold checkField
  simp only [andThen_eq_ok, forM_eq_ok, checkType_iff]

theorem checkDirective_iff {directive : DirectiveDef} :
    b.checkDirective directive = .ok () ↔
      ∀ input ∈ directive.arguments.values, b.declarations.Knows input.type.baseName := by
  unfold checkDirective
  simp only [forM_eq_ok, checkType_iff]

/-- The check of a type is that of its fields, interfaces, members and input fields. -/
theorem checkTypeDef_iff {t : TypeDef} : b.checkTypeDef t = .ok () ↔
    (∀ fields, t.fields? = some fields → ∀ field ∈ fields.values, b.declarations.Knows field.type.baseName ∧
      ∀ input ∈ field.arguments.values, b.declarations.Knows input.type.baseName) ∧
    (∀ name ∈ t.interfaces, ∃ u, b.types.find? name = some u ∧ u.kind = .interface) ∧
    (∀ union members, t = .union union members → ∀ name ∈ members, b.declarations.Knows name) ∧
    ∀ fields, t.inputFields? = some fields → ∀ input ∈ fields.values, b.declarations.Knows input.type.baseName := by
  unfold checkTypeDef
  cases t <;> simp only [andThen_eq_ok, forM_eq_ok, checkType_iff, checkField_iff, checkInterface_iff] <;>
    simp [TypeDef.fields?, TypeDef.interfaces, TypeDef.inputFields?]

/-! ## Closed declarations -/

/-- The checks of all types and directives pass just if their references have targets. -/
theorem checks_iff : ((∀ t ∈ b.types.values, b.checkTypeDef t = .ok ()) ∧
      ∀ directive ∈ b.directives.values, b.checkDirective directive = .ok ()) ↔
    (∀ name, b.declarations.HasInterface name → ∃ t, b.types.find? name = some t ∧ t.kind = .interface) ∧
    (∀ field, b.declarations.HasField field → b.declarations.Knows field.type.baseName) ∧
    (∀ input, b.declarations.HasInput input → b.declarations.Knows input.type.baseName) ∧
    ∀ name, b.declarations.HasMember name → b.declarations.Knows name := by
  constructor
  · rintro ⟨htypes, hdirectives⟩
    have htype : ∀ {owner t}, b.types.find? owner = some t → _ := fun ht =>
      checkTypeDef_iff.1 (htypes _ (OrderedMap.mem_values_of_find? ht))
    refine ⟨?_, ?_, ?_, ?_⟩
    · rintro name ⟨owner, t, ht, hname⟩
      exact (htype ht).2.1 name hname
    · rintro field ⟨owner, t, fields, ht, hfields, hfield⟩
      exact ((htype ht).1 fields hfields field hfield).1
    · rintro input (⟨⟨owner, t, fields, ht, hfields, hfield⟩, hinput⟩ | ⟨hdirective, hinput⟩ | ⟨ht, hfields, hinput⟩)
      · exact ((htype ht).1 fields hfields _ hfield).2 input hinput
      · exact checkDirective_iff.1 (hdirectives _ (OrderedMap.mem_values_of_find? hdirective)) input hinput
      · exact (htype ht).2.2.2 _ hfields input hinput
    · rintro name ⟨owner, union, members, ht, hname⟩
      exact (htype ht).2.2.1 union members rfl name hname
  · rintro ⟨hinterfaces, hfields, hinputs, hmembers⟩
    constructor
    · intro t ht
      obtain ⟨owner, ht⟩ := OrderedMap.mem_values_iff.1 ht
      refine checkTypeDef_iff.2 ⟨fun fields hfs field hfield => ?_, fun name hname => ?_, ?_,
        fun fields hfs input hinput => ?_⟩
      · have hf : b.declarations.HasField field := ⟨owner, t, fields, ht, hfs, hfield⟩
        exact ⟨hfields field hf, fun input hinput => hinputs input (.fieldArgument hf hinput)⟩
      · exact hinterfaces name ⟨owner, t, ht, hname⟩
      · rintro union members rfl name hname
        exact hmembers name ⟨owner, union, members, ht, hname⟩
      · exact hinputs input (.inputField ht hfs hinput)
    · intro directive hdirective
      obtain ⟨name, hdirective⟩ := OrderedMap.mem_values_iff.1 hdirective
      exact checkDirective_iff.2 fun input hinput => hinputs input (.directiveArgument hdirective hinput)

/-- The schema that a builder stands for, checked or not. -/
def assembled (b : Builder) : Schema where
  queryType := b.declarations.rootName? .query
  mutationType := b.declarations.rootName? .mutation
  subscriptionType := b.declarations.rootName? .subscription
  types := b.types
  directives := b.directives

theorem declarations_assembled (b : Builder) : b.assembled.declarations = b.declarations := by
  refine Declarations.ext rfl rfl (funext fun kind => ?_)
  cases kind <;> rfl

/-- The check of a root, if there is one. -/
def checkRoot? (b : Builder) : Option String → Except SchemaFault Unit
  | some name => b.checkRoot name
  | none => .ok ()

theorem checkRoot?_iff {root : Option String} : b.checkRoot? root = .ok () ↔
    ∀ name, root = some name → ∃ t, b.declarations.type? name = some t ∧ t.kind = .object := by
  cases root with
  | none => exact iff_of_true rfl fun name h => absurd h (Option.some_ne_none name).symm
  | some name =>
    refine checkRoot_iff.trans ⟨?_, fun h => h name rfl⟩
    rintro h name' ⟨⟩
    exact h

theorem build_eq (b : Builder) : b.build = (do
    [b.assembled.queryType, b.assembled.mutationType, b.assembled.subscriptionType].forM b.checkRoot?
    b.types.values.forM b.checkTypeDef
    b.directives.values.forM b.checkDirective
    return b.assembled) := rfl

/-- A builder gives the schema that it stands for, just if its declarations are closed. -/
theorem build_eq_ok_iff {schema : Schema} : b.build = .ok schema ↔ b.declarations.Closed ∧ b.assembled = schema := by
  have hroots : (∀ root ∈ [b.assembled.queryType, b.assembled.mutationType, b.assembled.subscriptionType],
      b.checkRoot? root = .ok ()) ↔ ∀ kind name, b.declarations.rootName? kind = some name →
        ∃ t, b.declarations.type? name = some t ∧ t.kind = .object := by
    simp only [List.forall_mem_cons, checkRoot?_iff]
    constructor
    · rintro ⟨hquery, hmutation, hsubscription, -⟩ kind
      cases kind with
      | query => exact hquery
      | mutation => exact hmutation
      | subscription => exact hsubscription
    · exact fun h => ⟨h .query, h .mutation, h .subscription, List.forall_mem_nil _⟩
  rw [build_eq, andThen_eq_ok, andThen_eq_ok, andThen_eq_ok, forM_eq_ok, forM_eq_ok, forM_eq_ok, hroots]
  constructor
  · rintro ⟨hroots, htypes, hdirectives, hschema⟩
    obtain ⟨hinterfaces, hfields, hinputs, hmembers⟩ := checks_iff.1 ⟨htypes, hdirectives⟩
    exact ⟨⟨hroots, hinterfaces, hfields, hinputs, hmembers⟩, Except.ok.inj hschema⟩
  · rintro ⟨h, rfl⟩
    obtain ⟨htypes, hdirectives⟩ := checks_iff.2 ⟨h.interfaces, h.fields, h.inputs, h.members⟩
    exact ⟨h.roots, htypes, hdirectives, rfl⟩

theorem exists_build_iff : (∃ schema, b.build = .ok schema) ↔ b.declarations.Closed := by
  simp only [build_eq_ok_iff, exists_and_left, exists_eq', and_true]

end Builder

end QueryBatch
