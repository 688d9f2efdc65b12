import QueryBatch.Rules.Values
import QueryBatch.Rules.Variables

/-!
# Subtypes and the values they take

A type stands below another one if it has the same shape and more of its parts are non-null. Whatever literal fits the
first then fits the second.

* `TypeRef.Narrows`: the order, said by its steps. `TypeRef.isSubtypeOf_iff`: it is what the comparison of types
  decides.
* `TypeRef.Narrows.trans`, `TypeRef.Narrows.antisymm`: it is an order.
* `TypeRef.Narrows.valueFaults_eq_nil`: no literal without faults gets one when the type is widened.
* `valueFaults_eq_nil_of_fitsPosition`: so a variable fits a place only if every literal but `null` that fits the
  variable fits the place.
* `Rules.subtypes_sound`: all of this in one statement.
-/

namespace QueryBatch

/-! ## The order of types -/

namespace TypeRef

/-- The first type is the second one with more non-null marks. -/
inductive Narrows : TypeRef → TypeRef → Prop
  | named (name : String) : Narrows (.named name) (.named name)
  | list {a b : TypeRef} : Narrows a b → Narrows (.list a) (.list b)
  | nonNull {a b : TypeRef} : Narrows a b → Narrows (.nonNull a) (.nonNull b)
  | mark {a b : TypeRef} : b.isNonNull = false → Narrows a b → Narrows (.nonNull a) b

/-- The comparison of types decides the order. -/
theorem isSubtypeOf_iff {a b : TypeRef} : a.isSubtypeOf b = true ↔ a.Narrows b := by
  constructor
  · intro h
    fun_induction isSubtypeOf a b with
    | case1 a b ih => exact .nonNull (ih h)
    | case2 a b hb ih =>
      refine .mark ?_ (ih h)
      cases b with
      | nonNull inner => exact absurd rfl (hb inner)
      | named _ | list _ => rfl
    | case3 => cases h
    | case4 a b ih => exact .list (ih h)
    | case5 => cases h
    | case6 => cases h
    | case7 a b =>
      obtain rfl := beq_iff_eq.1 h
      exact .named a
  · intro h
    induction h with
    | named name => exact beq_self_eq_true name
    | list _ ih => exact ih
    | nonNull _ ih => exact ih
    | @mark a b hb _ ih =>
      cases b with
      | nonNull inner => cases hb
      | named _ | list _ => exact ih

namespace Narrows

variable {a b c : TypeRef}

theorem refl (t : TypeRef) : t.Narrows t := by
  induction t with
  | named name => exact .named name
  | list item ih => exact .list ih
  | nonNull inner ih => exact .nonNull ih

/-- Below a non-null type there are non-null types only. -/
theorem isNonNull (h : a.Narrows b) (hb : b.isNonNull = true) : a.isNonNull = true := by
  cases h with
  | named _ | list _ => cases hb
  | nonNull _ | mark _ _ => rfl

theorem trans (h : a.Narrows b) (h' : b.Narrows c) : a.Narrows c := by
  induction h generalizing c with
  | named name => exact h'
  | list _ ih =>
    cases h' with
    | list h' => exact .list (ih h')
  | nonNull _ ih =>
    cases h' with
    | nonNull h' => exact .nonNull (ih h')
    | mark hc h' => exact .mark hc (ih h')
  | mark hb _ ih =>
    -- what stands above a nullable type is nullable
    have hc : c.isNonNull = false := Bool.eq_false_iff.2 fun hc => by
      rw [h'.isNonNull hc] at hb
      cases hb
    exact .mark hc (ih h')

theorem antisymm (h : a.Narrows b) (h' : b.Narrows a) : a = b := by
  induction h with
  | named name => rfl
  | list _ ih =>
    cases h' with
    | list h' => rw [ih h']
  | nonNull _ ih =>
    cases h' with
    | nonNull h' => rw [ih h']
    | mark hb _ => cases hb
  | mark hb _ _ =>
    rw [h'.isNonNull rfl] at hb
    cases hb

/-! ### What the order keeps -/

theorem baseName_eq (h : a.Narrows b) : a.baseName = b.baseName := by
  induction h with
  | named name => rfl
  | list _ ih | nonNull _ ih | mark _ _ ih => exact ih

/-- Both types are of lists, whose items stand in the order, or none is. -/
theorem itemType? (h : a.Narrows b) : (a.itemType? = none ∧ b.itemType? = none) ∨
    ∃ x y, a.itemType? = some x ∧ b.itemType? = some y ∧ x.Narrows y := by
  induction h with
  | named name => exact .inl ⟨rfl, rfl⟩
  | list h _ => exact .inr ⟨_, _, rfl, rfl, h⟩
  | nonNull _ ih | mark _ _ ih => exact ih

end Narrows

end TypeRef

/-! ## Literals -/

namespace Rules

open TypeRef

section Literals

variable {schema : Schema} {s : Subject}

mutual

/-- A value without faults has none against a wider type. -/
theorem valueFaults_eq_nil_of_narrows : ∀ {a b : TypeRef}, a.Narrows b → ∀ value : Value,
    valueFaults schema s a value = [] → valueFaults schema s b value = []
  | _, _, _, .variable _ _, _ => rfl
  | a, b, h, .null span, ha => by
    rw [valueFaults] at ha ⊢
    split at ha
    · exact absurd ha (List.cons_ne_nil _ _)
    · rename_i hnullable
      exact if_neg fun hb => hnullable (h.isNonNull hb)
  | a, b, h, .list items span, ha => by
    rw [valueFaults] at ha ⊢
    rcases h.itemType? with ⟨hx, hy⟩ | ⟨x, y, hx, hy, hxy⟩
    · rw [hx] at ha
      rw [hy, ← h.baseName_eq]
      exact ha
    · rw [hx] at ha
      rw [hy]
      exact itemFaults_eq_nil_of_narrows hxy items ha
  | a, b, h, .object fields span, ha => by
    rw [valueFaults] at ha ⊢
    rw [← h.baseName_eq]
    exact ha
  | a, b, h, .int _ _, ha | a, b, h, .float _ _, ha | a, b, h, .string _ _, ha | a, b, h, .boolean _ _, ha
  | a, b, h, .enum _ _, ha => by
    simp only [valueFaults] at ha ⊢
    rw [← h.baseName_eq]
    exact ha

theorem itemFaults_eq_nil_of_narrows : ∀ {a b : TypeRef}, a.Narrows b → ∀ items : List Value,
    itemFaults schema s a items = [] → itemFaults schema s b items = []
  | _, _, _, [], _ => rfl
  | a, b, h, item :: items, ha => by
    rw [itemFaults, List.append_eq_nil_iff] at ha ⊢
    exact ⟨valueFaults_eq_nil_of_narrows h item ha.1, itemFaults_eq_nil_of_narrows h items ha.2⟩

end

/-- To values other than `null` a non-null mark makes no difference. -/
theorem valueFaults_nonNull (t : TypeRef) {value : Value} (h : value.isNull = false) :
    valueFaults schema s (.nonNull t) value = valueFaults schema s t value := by
  cases value with
  | null span => cases h
  | _ => simp only [valueFaults, baseName, TypeRef.itemType?]

theorem valueFaults_nullable (t : TypeRef) {value : Value} (h : value.isNull = false) :
    valueFaults schema s t.nullable value = valueFaults schema s t value := by
  cases t with
  | nonNull inner => exact (valueFaults_nonNull inner h).symm
  | named _ | list _ => rfl

/-- A variable that may stand in a place has a type below that of the place, or below the nullable type of the place. -/
theorem narrows_of_fitsPosition {v : VariableDefinition} {expected : TypeRef} {hasDefault : Bool}
    (h : fitsPosition v expected hasDefault = true) :
    v.type.Narrows expected ∨ v.type.Narrows expected.nullable := by
  unfold fitsPosition at h
  split at h
  · exact .inr (isSubtypeOf_iff.1 ((Bool.and_eq_true _ _).mp h).2)
  · exact .inl (isSubtypeOf_iff.1 h)

/-- If a variable may stand in a place, every literal but `null` that fits its type fits the place. -/
theorem valueFaults_eq_nil_of_fitsPosition {v : VariableDefinition} {expected : TypeRef} {hasDefault : Bool}
    (h : fitsPosition v expected hasDefault = true) {value : Value} (hvalue : value.isNull = false)
    (hv : valueFaults schema s v.type value = []) : valueFaults schema s expected value = [] := by
  rcases narrows_of_fitsPosition h with h | h
  · exact valueFaults_eq_nil_of_narrows h value hv
  · rw [← valueFaults_nullable expected hvalue]
    exact valueFaults_eq_nil_of_narrows h value hv

end Literals

/-- The comparison of types is an order, and sound for values: a literal that has no fault against a type has none
against a type above it, and a variable may stand in a place only if all literals that fit its type, save `null`, fit
the place. -/
theorem subtypes_sound (schema : Schema) (s : Subject) :
    (∀ t : TypeRef, t.isSubtypeOf t = true) ∧
    (∀ a b c : TypeRef, a.isSubtypeOf b = true → b.isSubtypeOf c = true → a.isSubtypeOf c = true) ∧
    (∀ a b : TypeRef, a.isSubtypeOf b = true → b.isSubtypeOf a = true → a = b) ∧
    (∀ a b : TypeRef, a.isSubtypeOf b = true → ∀ value, valueFaults schema s a value = [] →
      valueFaults schema s b value = []) ∧
    ∀ (v : VariableDefinition) (expected : TypeRef) (hasDefault : Bool), fitsPosition v expected hasDefault = true →
      ∀ value, value.isNull = false → valueFaults schema s v.type value = [] →
        valueFaults schema s expected value = [] := by
  simp only [isSubtypeOf_iff]
  refine ⟨.refl, fun _ _ _ h h' => h.trans h', fun _ _ h h' => h.antisymm h', ?_, ?_⟩
  · exact fun _ _ h value hvalue => valueFaults_eq_nil_of_narrows h value hvalue
  · exact fun _ _ _ h _ hvalue hv => valueFaults_eq_nil_of_fitsPosition h hvalue hv

/-- Marks may be dropped at every depth, but not put on. -/
example : (nonNull (.list (.nonNull (.named "Int")))).isSubtypeOf (.list (.named "Int")) = true ∧
    (list (.named "Int")).isSubtypeOf (.list (.nonNull (.named "Int"))) = false := by
  decide

end Rules

end QueryBatch
