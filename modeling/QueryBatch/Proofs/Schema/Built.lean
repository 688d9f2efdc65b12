import QueryBatch.Schema.Builder

/-!
# Schemas that were built

* `Builder.Made`: the builders that adding parts leads to.
* `Schema.IsBuilt`: the schemas that such a builder gives.
* `Schema.IsBuilt.field_type`: in them the type of every field of a known type is known, the type name included.
-/

namespace QueryBatch

/-! ## Builders -/

/-- A builder that comes of the new one by adding parts. -/
inductive Builder.Made : Builder → Prop
  | start : Made {}
  | root {b : Builder} (kind : OperationKind) (name : String) : Made b → Made (b.setRoot kind name)
  | type {b b' : Builder} {type : TypeDef} : Made b → b.addType type = .ok b' → Made b'
  | directive {b : Builder} (directive : DirectiveDef) : Made b → Made (b.addDirective directive)

/-- A schema that a builder gives. -/
def Schema.IsBuilt (schema : Schema) : Prop := ∃ b : Builder, b.Made ∧ b.build = .ok schema

theorem eq_ok_of_toOption {ε α : Type} {x : Except ε α} {a : α} (h : x.toOption = some a) : x = .ok a := by
  cases x with
  | error e => cases h
  | ok b =>
    cases h
    rfl

/-- A step that uses a result gives one if, and only if, there is a result to use and the step then does so. -/
theorem bind_eq_ok {ε α β : Type} {first : Except ε α} {next : α → Except ε β} {b : β} :
    (first >>= next) = .ok b ↔ ∃ a, first = .ok a ∧ next a = .ok b := by
  cases first with
  | error fault =>
    refine iff_of_false (fun h => by cases h) ?_
    rintro ⟨a, h, -⟩
    cases h
  | ok a =>
    refine ⟨fun h => ⟨a, rfl, h⟩, ?_⟩
    rintro ⟨a', ⟨⟩, h⟩
    exact h

/-- What follows a check gives a result if, and only if, the check passes and it does so. -/
theorem andThen_eq_ok {ε α : Type} {first : Except ε Unit} {next : Unit → Except ε α} {a : α} :
    (first >>= next) = .ok a ↔ first = .ok () ∧ next () = .ok a := by
  cases first with
  | error fault => exact iff_of_false nofun fun h => nomatch h.1
  | ok => exact ⟨fun h => ⟨rfl, h⟩, fun h => h.2⟩

/-- A check of all members of a list passes if, and only if, each of them does. -/
theorem forM_eq_ok {ε α : Type} {check : α → Except ε Unit} {as : List α} :
    as.forM check = .ok () ↔ ∀ a ∈ as, check a = .ok () := by
  induction as with
  | nil => exact iff_of_true rfl fun _ h => absurd h List.not_mem_nil
  | cons a rest ih =>
    rw [List.forM, andThen_eq_ok, List.forall_mem_cons, ih]

namespace Builder

variable {b b' : Builder}

/-- No part that is added takes a type away. -/
theorem find?_addType {type : TypeDef} (h : b.addType type = .ok b') {name : String} {known : TypeDef}
    (hk : b.types.find? name = some known) : b'.types.find? name = some known := by
  unfold addType at h
  split at h
  · rename_i hnew
    cases h
    rw [OrderedMap.find?_insert, if_neg, hk]
    rintro rfl
    rw [hnew] at hk
    cases hk
  · split at h
    · cases h
      exact hk
    · cases h

/-- Every builder has the type of type names. -/
theorem Made.string (h : b.Made) : b.types.find? typenameField.type.baseName = some (.scalar "String") := by
  induction h with
  | start => rfl
  | root kind name _ ih => cases kind <;> exact ih
  | type _ hadd ih => exact find?_addType hadd ih
  | directive _ _ ih => exact ih

theorem checkType_eq_ok {name context : String} : b.checkType name context = .ok () ↔ b.types.contains name = true := by
  unfold checkType
  split
  · rename_i h
    exact iff_of_true rfl h
  · rename_i h
    exact iff_of_false nofun h

/-- What is known of the fields of a type whose check passes: their types are known. -/
theorem contains_of_checkTypeDef {type : TypeDef} (h : b.checkTypeDef type = .ok ()) {fields : OrderedMap FieldDef}
    (hfields : type.fields? = some fields) {d : FieldDef} (hd : d ∈ fields.values) :
    b.types.contains d.type.baseName = true := by
  have hchecked : ∀ owner, fields.values.forM (b.checkField owner) = .ok () → b.types.contains d.type.baseName = true :=
    fun owner hforM => checkType_eq_ok.1 (andThen_eq_ok.1 (forM_eq_ok.1 hforM d hd)).1
  cases type with
  | object owner _ _ =>
    cases hfields
    exact hchecked owner (andThen_eq_ok.1 h).1
  | interface owner _ _ =>
    cases hfields
    exact hchecked owner (andThen_eq_ok.1 h).1
  | _ => cases hfields

/-- A schema has the types of its builder, and the check of each of them passes. -/
theorem types_of_build {schema : Schema} (h : b.build = .ok schema) :
    schema.types = b.types ∧ ∀ type ∈ b.types.values, b.checkTypeDef type = .ok () := by
  unfold build at h
  simp only [bind, Except.bind, pure, Except.pure] at h
  split at h
  · cases h
  · split at h
    · cases h
    · rename_i htypes
      split at h
      · cases h
      · cases h
        exact ⟨rfl, forM_eq_ok.1 htypes⟩

end Builder

/-! ## Schemas -/

namespace Schema.IsBuilt

variable {schema : Schema}

/-- The type of a field of a known type is known. -/
theorem field_type (h : schema.IsBuilt) {name field : String} {parent : TypeDef}
    (hparent : schema.type? name = some parent) {d : FieldDef} (hd : schema.field? parent field = some d) :
    ∃ type, schema.type? d.type.baseName = some type := by
  obtain ⟨b, hmade, hbuild⟩ := h
  obtain ⟨htypes, hchecks⟩ := Builder.types_of_build hbuild
  unfold Schema.type? at hparent ⊢
  rw [htypes] at hparent ⊢
  unfold Schema.field? at hd
  split at hd
  · cases hd
    exact ⟨_, hmade.string⟩
  · obtain ⟨fields, hfields, hfind⟩ := Option.bind_eq_some_iff.1 hd
    have hcheck := hchecks parent (OrderedMap.mem_values_of_find? hparent)
    have hcontains := Builder.contains_of_checkTypeDef hcheck hfields (OrderedMap.mem_values_of_find? hfind)
    exact Option.isSome_iff_exists.1 (OrderedMap.find?_isSome_iff.2 hcontains)

end Schema.IsBuilt

end QueryBatch
