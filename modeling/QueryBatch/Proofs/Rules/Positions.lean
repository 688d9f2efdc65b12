import QueryBatch.Proofs.Rules.Usages
import QueryBatch.Rules.Values

/-!
# Variables inside values

Two recursions give types to the parts of a value: the check of literals, which passes over variables, and the walk that
collects variables with the types their places expect. A part is addressed by the levels around it, and what the two
recursions make of it is compared level by level.

* `Value.Frame`, `Value.Hole`: a level around a part, and all levels. `Value.exists_hole`: every variable in a value has
  such an address.
* `Value.Hole.checked?`: the type with which the check comes to a part. `valueFaults_fill`, `valueFaults_fill_of_none`:
  what it finds there is part of what it finds in the value, and if it does not come there the part is ignored.
* `Value.Hole.expectation`: the type that the walk expects of a part. `usagesIn_fill`: what it collects there.
* `Value.Hole.Straight`: on the way to the part no object stands where a list is expected.
* `position_of_occurrence`: the walk expects what the check comes with, if the way is straight, and else nothing.
  `coerced_position_unchecked`: so a variable in an object that stands for a list of itself is not looked at.
-/

namespace QueryBatch

/-! ## Parts of values -/

namespace Value

/-- A level of a value around one of its parts: the items beside it in a list, or the fields beside it in an object. -/
inductive Frame where
  | item (before after : List Value) (span : Span)
  | field (before : List (Name × Value)) (name : Name) (after : List (Name × Value)) (span : Span)

namespace Frame

/-- The value whose part is put back. -/
def fill : Frame → Value → Value
  | item before after span, part => .list (before ++ part :: after) span
  | field before name after span, part => .object (before ++ (name, part) :: after) span

/-- How many variables stand before the part. -/
def index : Frame → Nat
  | item before _ _ => (variableUsesInList before).length
  | field before _ _ _ => (variableUsesInFields before).length

end Frame

/-- The levels of a value around a part of it, the outermost first. -/
abbrev Hole := List Frame

namespace Hole

def fill : Hole → Value → Value
  | [], part => part
  | frame :: inner, part => frame.fill (fill inner part)

/-- How many variables stand before the part. -/
def index : Hole → Nat
  | [] => 0
  | frame :: inner => frame.index + index inner

end Hole

mutual

/-- Each variable that the recursion collects from a value is a part of it. -/
theorem exists_hole_of_value {name : String} {span : Span} : ∀ (value : Value) {i : Nat},
    value.variableUsesIn[i]? = some (name, span) →
      ∃ hole : Hole, hole.index = i ∧ hole.fill (.variable name span) = value
  | .variable other place, i, h => by
    obtain ⟨hi, he⟩ := List.getElem?_eq_some_iff.1 h
    cases i with
    | zero =>
      cases he
      exact ⟨[], rfl, rfl⟩
    | succ i => exact absurd hi (by simp [variableUsesIn])
  | .list items place, i, h => by
    obtain ⟨before, after, inner, rfl, hindex⟩ := exists_hole_of_items items h
    exact ⟨.item before after place :: inner, hindex, rfl⟩
  | .object fields place, i, h => by
    obtain ⟨before, key, after, inner, rfl, hindex⟩ := exists_hole_of_fields fields h
    exact ⟨.field before key after place :: inner, hindex, rfl⟩
  | .int _ _, _, h | .float _ _, _, h | .string _ _, _, h | .boolean _ _, _, h | .null _, _, h | .enum _ _, _, h => by
    cases h

theorem exists_hole_of_items {name : String} {span : Span} : ∀ (items : List Value) {i : Nat},
    (variableUsesInList items)[i]? = some (name, span) → ∃ before after, ∃ inner : Hole,
      before ++ inner.fill (.variable name span) :: after = items ∧ (variableUsesInList before).length + inner.index = i
  | [], _, h => by cases h
  | item :: items, i, h => by
    rw [variableUsesInList] at h
    by_cases hi : i < item.variableUsesIn.length
    · rw [List.getElem?_append_left hi] at h
      obtain ⟨inner, hindex, hfill⟩ := exists_hole_of_value item h
      exact ⟨[], items, inner, by rw [hfill]; rfl, by rw [hindex]; exact Nat.zero_add i⟩
    · rw [List.getElem?_append_right (Nat.le_of_not_lt hi)] at h
      obtain ⟨before, after, inner, rfl, hindex⟩ := exists_hole_of_items items h
      refine ⟨item :: before, after, inner, rfl, ?_⟩
      rw [variableUsesInList, List.length_append]
      omega

theorem exists_hole_of_fields {name : String} {span : Span} : ∀ (fields : List (Name × Value)) {i : Nat},
    (variableUsesInFields fields)[i]? = some (name, span) → ∃ before key after, ∃ inner : Hole,
      before ++ (key, inner.fill (.variable name span)) :: after = fields ∧
        (variableUsesInFields before).length + inner.index = i
  | [], _, h => by cases h
  | (key, value) :: fields, i, h => by
    rw [variableUsesInFields] at h
    by_cases hi : i < value.variableUsesIn.length
    · rw [List.getElem?_append_left hi] at h
      obtain ⟨inner, hindex, hfill⟩ := exists_hole_of_value value h
      exact ⟨[], key, fields, inner, by rw [hfill]; rfl, by rw [hindex]; exact Nat.zero_add i⟩
    · rw [List.getElem?_append_right (Nat.le_of_not_lt hi)] at h
      obtain ⟨before, other, after, inner, rfl, hindex⟩ := exists_hole_of_fields fields h
      refine ⟨(key, value) :: before, other, after, inner, rfl, ?_⟩
      rw [variableUsesInFields, List.length_append]
      omega

end

/-- Each variable of a value is a part of it. -/
theorem exists_hole {name : String} {span : Span} (value : Value) {i : Nat}
    (h : value.variableUses[i]? = some (name, span)) :
    ∃ hole : Hole, hole.index = i ∧ hole.fill (.variable name span) = value := by
  rw [variableUses_eq] at h
  exact exists_hole_of_value value h

/-! ## The types of parts -/

/-- The type with which the check of a value against a type goes on to a part. -/
def Frame.checked? (schema : Schema) (type : TypeRef) : Frame → Option TypeRef
  | .item _ _ _ => type.itemType?
  | .field _ name _ _ => ((schema.type? type.baseName).bind TypeDef.inputFields?).bind fun inputs =>
      (inputs.find? name.text).map InputDef.type

/-- The type with which the check of a value against a type comes to a part of it. -/
def Hole.checked? (schema : Schema) (type : TypeRef) : Hole → Option TypeRef
  | [] => some type
  | frame :: inner => (frame.checked? schema type).bind fun type => checked? schema type inner

/-- What the walk expects of a part, and whether there is a default for it. -/
def Frame.expectation (schema : Schema) (expected : Option TypeRef) : Frame → Option TypeRef × Bool
  | .item _ _ _ => (expected.bind TypeRef.listItem?, false)
  | .field _ name _ _ =>
    let declared := (Rules.inputFieldsOf? schema expected).bind fun inputs => inputs.find? name.text
    (declared.map InputDef.type, declared.any fun d => d.defaultText.isSome)

def Hole.expectation (schema : Schema) (expected : Option TypeRef) (hasDefault : Bool) : Hole → Option TypeRef × Bool
  | [] => (expected, hasDefault)
  | frame :: inner =>
    expectation schema (frame.expectation schema expected).1 (frame.expectation schema expected).2 inner

/-- Items are not expected of a type with more than one non-null mark, nor fields of a list. -/
def Frame.Straight (type : TypeRef) : Frame → Prop
  | .item _ _ _ => type.listItem? = type.itemType?
  | .field _ _ _ _ => type.isList = false

/-- No object stands where the check expects a list, as far as it comes. -/
def Hole.Straight (schema : Schema) (type : TypeRef) : Hole → Prop
  | [] => True
  | frame :: inner => frame.Straight type ∧ ∀ part, frame.checked? schema type = some part → Straight schema part inner

end Value

namespace Rules

open Value

section Parts

variable {schema : Schema} {s : Subject}

/-! ## The check -/

theorem itemFaults_append (type : TypeRef) (before after : List Value) :
    itemFaults schema s type (before ++ after) = itemFaults schema s type before ++ itemFaults schema s type after := by
  induction before with
  | nil => rfl
  | cons item rest ih => rw [List.cons_append, itemFaults, itemFaults, ih, List.append_assoc]

theorem fieldFaults_append (object : String) (inputs : Inputs) (before after : List (Name × Value)) :
    fieldFaults schema s object inputs (before ++ after) =
      fieldFaults schema s object inputs before ++ fieldFaults schema s object inputs after := by
  induction before with
  | nil => rfl
  | cons field rest ih => rw [List.cons_append, fieldFaults, fieldFaults, ih, List.append_assoc]

/-- Which inputs are missing depends on the names of fields alone. -/
theorem missingInputs_congr {inputs : Inputs} {fields others : List (Name × Value)}
    (h : fields.map Prod.fst = others.map Prod.fst) : missingInputs inputs fields = missingInputs inputs others := by
  unfold missingInputs
  refine List.filter_congr fun d _ => congrArg (d.isRequired && ·) ?_
  change fields.all ((fun name : Name => name.text != d.name) ∘ Prod.fst) =
    others.all ((fun name : Name => name.text != d.name) ∘ Prod.fst)
  rw [← List.all_map, ← List.all_map, h]

/-- An object is checked field by field where an input object is expected. -/
theorem valueFaults_object {type : TypeRef} {inputs : Inputs}
    (h : (schema.type? type.baseName).bind TypeDef.inputFields? = some inputs) :
    ∃ (object : String) (missing : Span → List InputDef → List Diagnostic), ∀ fields span,
      valueFaults schema s type (.object fields span) =
        fieldFaults schema s object inputs fields ++ missing span (missingInputs inputs fields) := by
  obtain ⟨declared, hdeclared, hinputs⟩ := Option.bind_eq_some_iff.1 h
  cases declared with
  | inputObject object fields =>
    cases hinputs
    refine ⟨object, fun span => List.map fun d => (s.diagnostic .invalidValue span).withDetail
      ("field `" ++ object ++ "." ++ d.name ++ "` of required type `" ++ d.type.text ++ "` was not provided"),
      fun fields span => ?_⟩
    rw [valueFaults, hdeclared]
  | scalar _ | object _ _ _ | interface _ _ _ | union _ _ | enum _ _ => cases hinputs

theorem valueFaults_object_of_none {type : TypeRef} (h : (schema.type? type.baseName).bind TypeDef.inputFields? = none)
    (fields : List (Name × Value)) (span : Span) :
    valueFaults schema s type (.object fields span) = namedFaults schema s type.baseName (.object fields span) := by
  rw [valueFaults]
  split
  · rename_i object inputs hdeclared
    rw [hdeclared] at h
    cases h
  · rfl

/-- A list or object, where no list or input object is expected, is refused or accepted as a whole. -/
theorem exists_mismatches (schema : Schema) (s : Subject) (name : String) : ∃ types : List String,
    (∀ items span, namedFaults schema s name (.list items span) = types.map (mismatch s (.list items span))) ∧
    ∀ fields span, namedFaults schema s name (.object fields span) = types.map (mismatch s (.object fields span)) := by
  unfold namedFaults
  cases schema.type? name with
  | none => exact ⟨[], fun _ _ => rfl, fun _ _ => rfl⟩
  | some declared =>
    cases declared with
    | scalar scalar =>
      simp only [scalarFaults, scalarAccepts]
      cases builtinScalars.contains scalar with
      | true => exact ⟨[scalar], fun _ _ => rfl, fun _ _ => rfl⟩
      | false => exact ⟨[], fun _ _ => rfl, fun _ _ => rfl⟩
    | enum _ _ | inputObject _ _ => exact ⟨[name], fun _ _ => rfl, fun _ _ => rfl⟩
    | object _ _ _ | interface _ _ _ | union _ _ => exact ⟨[], fun _ _ => rfl, fun _ _ => rfl⟩

/-- What the check finds in a part of a value stands among what it finds in the value. -/
theorem valueFaults_frame {frame : Frame} {type part : TypeRef} (h : frame.checked? schema type = some part) :
    ∃ before after, ∀ value, valueFaults schema s type (frame.fill value) =
      before ++ valueFaults schema s part value ++ after := by
  cases frame with
  | item before after span =>
    refine ⟨itemFaults schema s part before, itemFaults schema s part after, fun value => ?_⟩
    rw [Frame.fill, valueFaults, show type.itemType? = some part from h]
    dsimp only
    rw [itemFaults_append, itemFaults, List.append_assoc]
  | field before name after span =>
    obtain ⟨inputs, hinputs, hpart⟩ := Option.bind_eq_some_iff.1 h
    obtain ⟨d, hd, rfl⟩ := Option.map_eq_some_iff.1 hpart
    obtain ⟨object, missing, hobject⟩ := valueFaults_object (s := s) hinputs
    refine ⟨fieldFaults schema s object inputs before, fieldFaults schema s object inputs after ++
      missing span (missingInputs inputs (before ++ (name, .null span) :: after)), fun value => ?_⟩
    have hnames : (before ++ (name, value) :: after).map Prod.fst =
        (before ++ (name, .null span) :: after).map Prod.fst := by
      rw [List.map_append, List.map_append, List.map_cons, List.map_cons]
    rw [Frame.fill, hobject, missingInputs_congr hnames, fieldFaults_append, fieldFaults, hd]
    simp only [List.append_assoc]

/-- A part that the check does not come to makes no difference but for the printed text. -/
theorem valueFaults_frame_of_none {frame : Frame} {type : TypeRef} (h : frame.checked? schema type = none)
    (value other : Value) :
    (valueFaults schema s type (frame.fill value)).map (fun d => (d.kind, d.span)) =
      (valueFaults schema s type (frame.fill other)).map fun d => (d.kind, d.span) := by
  obtain ⟨types, hlist, hobject⟩ := exists_mismatches schema s type.baseName
  cases frame with
  | item before after span =>
    rw [Frame.fill, Frame.fill, valueFaults, valueFaults, show type.itemType? = none from h]
    dsimp only
    rw [hlist, hlist, List.map_map, List.map_map]
    rfl
  | field before name after span =>
    rw [Frame.fill, Frame.fill]
    cases hinputs : (schema.type? type.baseName).bind TypeDef.inputFields? with
    | none =>
      rw [valueFaults_object_of_none hinputs, valueFaults_object_of_none hinputs, hobject, hobject, List.map_map,
        List.map_map]
      rfl
    | some inputs =>
      have hnone : inputs.find? name.text = none := by
        rw [Frame.checked?, hinputs] at h
        exact Option.map_eq_none_iff.1 h
      obtain ⟨object, missing, hfaults⟩ := valueFaults_object (s := s) hinputs
      have hnames : (before ++ (name, value) :: after).map Prod.fst =
          (before ++ (name, other) :: after).map Prod.fst := by
        rw [List.map_append, List.map_append, List.map_cons, List.map_cons]
      rw [hfaults, hfaults, missingInputs_congr hnames, fieldFaults_append, fieldFaults_append, fieldFaults,
        fieldFaults, hnone]

/-- What the check finds in a part that it comes to stands among what it finds in the value. -/
theorem valueFaults_fill {hole : Hole} {type part : TypeRef} (h : hole.checked? schema type = some part) :
    ∃ before after, ∀ value, valueFaults schema s type (hole.fill value) =
      before ++ valueFaults schema s part value ++ after := by
  induction hole generalizing type with
  | nil =>
    cases h
    exact ⟨[], [], fun value => (List.append_nil _).symm⟩
  | cons frame inner ih =>
    obtain ⟨middle, hframe, hinner⟩ := Option.bind_eq_some_iff.1 h
    obtain ⟨before, after, houter⟩ := valueFaults_frame (s := s) hframe
    obtain ⟨before', after', hfill⟩ := ih hinner
    refine ⟨before ++ before', after' ++ after, fun value => ?_⟩
    rw [Hole.fill, houter, hfill]
    simp only [List.append_assoc]

theorem valueFaults_fill_of_none {hole : Hole} {type : TypeRef} (h : hole.checked? schema type = none)
    (value other : Value) :
    (valueFaults schema s type (hole.fill value)).map (fun d => (d.kind, d.span)) =
      (valueFaults schema s type (hole.fill other)).map fun d => (d.kind, d.span) := by
  induction hole generalizing type with
  | nil => cases h
  | cons frame inner ih =>
    rw [Hole.fill, Hole.fill]
    cases hframe : frame.checked? schema type with
    | none => exact valueFaults_frame_of_none hframe _ _
    | some middle =>
      have hinner : Hole.checked? schema middle inner = none := by
        rwa [Hole.checked?, hframe] at h
      obtain ⟨before, after, houter⟩ := valueFaults_frame (s := s) hframe
      rw [houter, houter]
      simp only [List.map_append]
      rw [ih hinner]

/-! ## The walk -/

theorem usagesInItems_append (expected : Option TypeRef) (before after : List Value) :
    usagesInItems schema s expected (before ++ after) =
      usagesInItems schema s expected before ++ usagesInItems schema s expected after := by
  induction before with
  | nil => rfl
  | cons item rest ih => rw [List.cons_append, usagesInItems, usagesInItems, ih, List.append_assoc]

theorem usagesInFields_append (inputs : Option Inputs) (before after : List (Name × Value)) :
    usagesInFields schema s inputs (before ++ after) =
      usagesInFields schema s inputs before ++ usagesInFields schema s inputs after := by
  induction before with
  | nil => rfl
  | cons field rest ih => rw [List.cons_append, usagesInFields, usagesInFields, ih, List.append_assoc]

/-- What the walk collects in a part of a value stands among what it collects in the value, after as many uses as there
are variables before the part. -/
theorem usagesIn_frame (schema : Schema) (s : Subject) (frame : Frame) (expected : Option TypeRef) (hasDefault : Bool) :
    ∃ before after, before.length = frame.index ∧ ∀ value, usagesIn schema s expected hasDefault (frame.fill value) =
      before ++ usagesIn schema s (frame.expectation schema expected).1 (frame.expectation schema expected).2 value ++
        after := by
  cases frame with
  | item before after span =>
    refine ⟨usagesInItems schema s (expected.bind TypeRef.listItem?) before,
      usagesInItems schema s (expected.bind TypeRef.listItem?) after, ?_, fun value => ?_⟩
    · have hplaces := congrArg List.length (usagesInItems_places schema s (expected.bind TypeRef.listItem?) before)
      rwa [List.length_map, List.length_map] at hplaces
    · rw [Frame.fill, usagesIn, usagesInItems_append, usagesInItems, List.append_assoc]
      rfl
  | field before name after span =>
    refine ⟨usagesInFields schema s (inputFieldsOf? schema expected) before,
      usagesInFields schema s (inputFieldsOf? schema expected) after, ?_, fun value => ?_⟩
    · have hplaces := congrArg List.length (usagesInFields_places schema s (inputFieldsOf? schema expected) before)
      rwa [List.length_map, List.length_map] at hplaces
    · rw [Frame.fill, usagesIn, usagesInFields_append, usagesInFields, List.append_assoc]
      rfl

theorem usagesIn_fill (schema : Schema) (s : Subject) (hole : Hole) (expected : Option TypeRef) (hasDefault : Bool) :
    ∃ before after, before.length = hole.index ∧ ∀ value, usagesIn schema s expected hasDefault (hole.fill value) =
      before ++ usagesIn schema s (hole.expectation schema expected hasDefault).1
        (hole.expectation schema expected hasDefault).2 value ++ after := by
  induction hole generalizing expected hasDefault with
  | nil => exact ⟨[], [], rfl, fun value => (List.append_nil _).symm⟩
  | cons frame inner ih =>
    obtain ⟨before, after, hlength, houter⟩ := usagesIn_frame schema s frame expected hasDefault
    obtain ⟨before', after', hlength', hfill⟩ := ih (frame.expectation schema expected).1
      (frame.expectation schema expected).2
    refine ⟨before ++ before', after' ++ after, ?_, fun value => ?_⟩
    · rw [List.length_append, hlength, hlength', Hole.index]
    · rw [Hole.fill, houter, hfill, Hole.expectation]
      simp only [List.append_assoc]

end Parts

/-! ## The two compared -/

section Compared

variable {schema : Schema}

theorem itemType?_of_listItem? {type item : TypeRef} (h : type.listItem? = some item) : type.itemType? = some item := by
  cases type with
  | named name => cases h
  | list inner => exact h
  | nonNull inner =>
    cases inner with
    | list inner => exact h
    | named _ | nonNull _ => cases h

/-- On a straight level the walk expects what the check goes on with. -/
theorem expectation_frame {frame : Frame} {type : TypeRef} (h : frame.Straight type) :
    (frame.expectation schema (some type)).1 = frame.checked? schema type := by
  cases frame with
  | item before after span => exact h
  | field before name after span =>
    have hlist : type.isList = false := h
    simp only [Frame.expectation, Frame.checked?, inputFieldsOf?, hlist, Bool.false_eq_true, if_false]
    exact Option.map_bind

theorem expectation_frame_of_not {frame : Frame} {type : TypeRef} (h : ¬ frame.Straight type) :
    (frame.expectation schema (some type)).1 = none := by
  cases frame with
  | item before after span =>
    refine Option.eq_none_iff_forall_not_mem.2 fun item hitem => h ?_
    exact Eq.trans hitem (itemType?_of_listItem? hitem).symm
  | field before name after span =>
    have hlist : type.isList = true := eq_true_of_ne_false h
    simp only [Frame.expectation, inputFieldsOf?, hlist, if_true]
    rfl

/-- Nothing is expected inside of what is not expected. -/
theorem expectation_none (hole : Hole) (hasDefault : Bool) : (hole.expectation schema none hasDefault).1 = none := by
  induction hole generalizing hasDefault with
  | nil => rfl
  | cons frame inner ih =>
    have hframe : (frame.expectation schema none).1 = none := by
      cases frame with
      | item _ _ _ | field _ _ _ _ => rfl
    rw [Hole.expectation, hframe]
    exact ih _

/-- On a straight way the walk expects what the check comes with. -/
theorem expectation_of_straight {hole : Hole} {type : TypeRef} (hasDefault : Bool) (h : hole.Straight schema type) :
    (hole.expectation schema (some type) hasDefault).1 = hole.checked? schema type := by
  induction hole generalizing type hasDefault with
  | nil => rfl
  | cons frame inner ih =>
    obtain ⟨hframe, hinner⟩ := h
    rw [Hole.expectation, Hole.checked?, expectation_frame hframe]
    cases hchecked : frame.checked? schema type with
    | none => exact expectation_none inner _
    | some middle => exact ih _ (hinner middle hchecked)

/-- Where the way is not straight the walk expects nothing from there on. -/
theorem expectation_of_not_straight {hole : Hole} {type : TypeRef} (hasDefault : Bool)
    (h : ¬ hole.Straight schema type) : (hole.expectation schema (some type) hasDefault).1 = none := by
  induction hole generalizing type hasDefault with
  | nil => exact absurd trivial h
  | cons frame inner ih =>
    rw [Hole.expectation]
    by_cases hframe : frame.Straight type
    · rw [expectation_frame hframe]
      cases hchecked : frame.checked? schema type with
      | none => exact expectation_none inner _
      | some middle =>
        refine ih _ fun hinner => h ⟨hframe, fun part hpart => ?_⟩
        rw [hchecked] at hpart
        cases hpart
        exact hinner
    · rw [expectation_frame_of_not hframe]
      exact expectation_none inner _

end Compared

/-! ## The rule -/

/-- The finding for a variable that does not fit the place it is used in. -/
def misplacedFinding (s : Subject) (v : VariableDefinition) (u : Usage) (expected : TypeRef) : Finding :=
  s.rejectedFor (((u.subject.diagnostic .variableInWrongPosition u.span).withDetail
    ("variable `$" ++ u.name ++ "` of type `" ++ v.type.text ++ "` used in position expecting type `" ++
      expected.text ++ "`")).relatedTo s.source v.span "variable defined here")

section Context

variable {cx : Context} {s t : Subject} {op : Operation}

/-- The rule tests a variable against what is expected where it is used. -/
theorem misplaced_mem_variablePositions (hop : (s, op) ∈ cx.operations) {u : Usage} (hu : u ∈ usagesOf cx s op)
    {v : VariableDefinition} (hv : declarationOf? op u = some v) {expected : TypeRef} (he : u.expected = some expected)
    (hfits : fitsPosition v expected u.hasDefault = false) :
    misplacedFinding s v u expected ∈ variablePositions cx := by
  refine List.mem_flatMap.2 ⟨(s, op), hop, List.mem_filterMap.2 ⟨u, hu, ?_⟩⟩
  rw [hv, he]
  exact if_neg (Bool.eq_false_iff.1 hfits)

theorem usagesWithin_subset_usagesOf (ht : t ∈ cx.answersFor s op) :
    usagesWithin cx.schema t ⊆ usagesOf cx s op := by
  intro u hu
  rcases List.mem_cons.1 ht with rfl | ht
  · exact List.mem_append_left _ hu
  · obtain ⟨x, hx, rfl⟩ := List.mem_map.1 ht
    exact List.mem_append_right _ (List.mem_flatMap.2 ⟨x, hx, hu⟩)

/-- Every variable in a declared argument is collected with what is expected of its place. The check of the argument's
value comes to that place with a type, or not at all, which shows in what it would find there. If no object on the way
stands where a list is expected, the walk expects the same type, and the rule tests the variable against it for every
operation that answers for it; else the walk expects nothing. -/
theorem position_of_occurrence (cx : Context) {site : ArgumentSite} {a : Argument} {declared : InputDef}
    (ha : .argument site a (some declared) ∈ t.visits cx.schema) {i : Nat} {name : String} {span : Span}
    (hi : a.value.variableUses[i]? = some (name, span)) :
    ∃ hole : Hole, hole.index = i ∧ hole.fill (.variable name span) = a.value ∧
      (∀ part, hole.checked? cx.schema declared.type = some part → ∃ before after, ∀ value,
        valueFaults cx.schema t declared.type (hole.fill value) =
          before ++ valueFaults cx.schema t part value ++ after) ∧
      (hole.checked? cx.schema declared.type = none → ∀ value other,
        (valueFaults cx.schema t declared.type (hole.fill value)).map (fun d => (d.kind, d.span)) =
          (valueFaults cx.schema t declared.type (hole.fill other)).map fun d => (d.kind, d.span)) ∧
      ∃ u ∈ usagesWithin cx.schema t,
        (usagesIn cx.schema t (some declared.type) declared.defaultText.isSome a.value)[i]? = some u ∧
        u.place = (name, t.source, span) ∧
        (hole.Straight cx.schema declared.type → u.expected = hole.checked? cx.schema declared.type) ∧
        (¬ hole.Straight cx.schema declared.type → u.expected = none) ∧
        ∀ s op, (s, op) ∈ cx.operations → t ∈ cx.answersFor s op → u ∈ usagesOf cx s op ∧
          ∀ part, u.expected = some part → ∀ v, declarationOf? op u = some v →
            fitsPosition v part u.hasDefault = false → misplacedFinding s v u part ∈ variablePositions cx := by
  obtain ⟨hole, hindex, hfill⟩ := exists_hole a.value hi
  refine ⟨hole, hindex, hfill, fun part h => valueFaults_fill h, fun h => valueFaults_fill_of_none h, ?_⟩
  obtain ⟨before, after, hlength, huses⟩ := usagesIn_fill cx.schema t hole (some declared.type)
    declared.defaultText.isSome
  have hu : (usagesIn cx.schema t (some declared.type) declared.defaultText.isSome a.value)[i]? =
      some ⟨name, span, t, (hole.expectation cx.schema (some declared.type) declared.defaultText.isSome).1,
        (hole.expectation cx.schema (some declared.type) declared.defaultText.isSome).2⟩ := by
    rw [← hfill, huses, ← hindex, ← hlength, List.append_assoc, List.getElem?_append_right (Nat.le_refl _),
      Nat.sub_self]
    rfl
  refine ⟨_, List.mem_flatMap.2 ⟨_, ha, List.mem_of_getElem? hu⟩, hu, rfl, expectation_of_straight _,
    expectation_of_not_straight _, fun s op hop ht => ?_⟩
  have hmem := usagesWithin_subset_usagesOf ht (List.mem_flatMap.2 ⟨_, ha, List.mem_of_getElem? hu⟩)
  exact ⟨hmem, fun part hpart v hv hfits => misplaced_mem_variablePositions hop hmem hv hpart hfits⟩

end Context

/-! ## An object, and an object that stands for a list -/

/-- A schema of a field whose argument takes a type. -/
def inputSchema (type : TypeRef) : Schema where
  queryType := some "Query"
  mutationType := none
  subscriptionType := none
  types := .ofList [("String", .scalar "String"), ("Int", .scalar "Int"),
    ("In", .inputObject "In" (.ofList [("a", ⟨"a", .named "Int", none⟩)])),
    ("Query", .object "Query" (.ofList [("f", ⟨"f", .ofList [("x", ⟨"x", type, none⟩)], .named "Int"⟩)]) [])]
  directives := .empty

/-- A text in an object where an integer is expected. -/
def inputContext (type : TypeRef) : Context :=
  .ofDocument (inputSchema type) 0
    ((Document.ofText "query Q($v: String) \x7b f(x: \x7ba: $v\x7d) \x7d").toOption.getD ⟨[]⟩)

/-- Whether the argument that is met has a declaration and passes a test with it. -/
def Visit.passes (test : Argument → InputDef → Bool) : Visit → Bool
  | .argument _ a (some declared) => test a declared
  | _ => false

theorem exists_argument {test : Argument → InputDef → Bool} {visits : List Visit}
    (h : visits.any (Visit.passes test) = true) :
    ∃ site a declared, .argument site a (some declared) ∈ visits ∧ test a declared = true := by
  obtain ⟨v, hv, hpasses⟩ := List.any_eq_true.1 h
  unfold Visit.passes at hpasses
  split at hpasses
  · exact ⟨_, _, _, hv, hpasses⟩
  · cases hpasses

/-- Where the input object is expected, the variable in it is tested. -/
theorem position_of_occurrence_sample : ∃ s v u, u.place = ("v", 0, ⟨31, 33⟩) ∧
    misplacedFinding s v u (.named "Int") ∈ variablePositions (inputContext (.named "In")) := by
  have hchecks : ((inputContext (.named "In")).operations.any fun x =>
      x.1.source == 0 && (x.1.visits (inputSchema (.named "In"))).any (Visit.passes fun a declared =>
        a.value.variableUses[0]? == some ("v", ⟨31, 33⟩) &&
        ((usagesIn (inputSchema (.named "In")) x.1 (some declared.type) declared.defaultText.isSome
          a.value)[0]?.bind Usage.expected) == some (.named "Int")) &&
      (x.2.variableDefinitions.reverse.find? fun v => v.name.text == "v").any fun v =>
        !fitsPosition v (.named "Int") false) = true := by
    decide +kernel
  obtain ⟨⟨s, op⟩, hop, hx⟩ := List.any_eq_true.1 hchecks
  simp only [Bool.and_eq_true, beq_iff_eq] at hx
  obtain ⟨⟨hsource, hvisits⟩, hdeclared⟩ := hx
  obtain ⟨site, a, declared, ha, htest⟩ := exists_argument hvisits
  simp only [Bool.and_eq_true, beq_iff_eq] at htest
  cases hv : op.variableDefinitions.reverse.find? fun v => v.name.text == "v" with
  | none =>
    rw [hv] at hdeclared
    cases hdeclared
  | some v =>
    rw [hv] at hdeclared
    obtain ⟨u, hu, hexpected⟩ := Option.bind_eq_some_iff.1 htest.2
    obtain ⟨-, -, -, -, -, u', -, hu', hplace, -, -, hrule⟩ :=
      position_of_occurrence (inputContext (.named "In")) ha htest.1
    obtain rfl : u = u' := Option.some.inj (hu.symm.trans hu')
    have hname : u.name = "v" := congrArg Prod.fst hplace
    have hdeclaration : declarationOf? op u = some v := by
      unfold declarationOf?
      rw [hname]
      exact hv
    have hfits : fitsPosition v (.named "Int") u.hasDefault = false := by
      rw [Option.any_some, Bool.not_eq_true'] at hdeclared
      exact hdeclared
    have htested := (hrule s op hop List.mem_cons_self).2 _ hexpected v hdeclaration hfits
    exact ⟨s, v, u, by rw [hplace, hsource], htested⟩

/-- A variable that is the only field of an object, with the levels around it. -/
def onlyField? : Value → Option (Hole × String × Span)
  | .object [(key, .variable name span)] outer => some ([.field [] key [] outer], name, span)
  | _ => none

theorem fill_onlyField? {value : Value} {hole : Hole} {name : String} {span : Span}
    (h : onlyField? value = some (hole, name, span)) : hole.fill (.variable name span) = value := by
  unfold onlyField? at h
  split at h
  · cases h
    rfl
  · cases h

/-- Where a list of them is expected, the check comes to the variable in the object all the same, and the walk expects
nothing of it. -/
theorem coerced_position_unchecked : ¬ ∀ (cx : Context) (s : Subject) (op : Operation) (t : Subject),
    (s, op) ∈ cx.operations → t ∈ cx.answersFor s op → ∀ (site : ArgumentSite) (a : Argument) (declared : InputDef),
    .argument site a (some declared) ∈ t.visits cx.schema → ∀ (hole : Hole) (name : String) (span : Span),
    hole.fill (.variable name span) = a.value → ∀ part, hole.checked? cx.schema declared.type = some part →
    ∃ u ∈ usagesOf cx s op, u.place = (name, t.source, span) ∧ u.expected = some part := by
  intro hall
  have hchecks : ((inputContext (.list (.named "In"))).operations.any fun x =>
      (x.1.visits (inputSchema (.list (.named "In")))).any (Visit.passes fun a declared =>
        (onlyField? a.value).any fun x =>
          x.1.checked? (inputSchema (.list (.named "In"))) declared.type == some (.named "Int")) &&
      (usagesOf (inputContext (.list (.named "In"))) x.1 x.2).all fun u => u.expected.isNone) = true := by
    decide +kernel
  obtain ⟨⟨s, op⟩, hop, hx⟩ := List.any_eq_true.1 hchecks
  obtain ⟨hvisits, hnone⟩ := (Bool.and_eq_true _ _).mp hx
  obtain ⟨site, a, declared, ha, htest⟩ := exists_argument hvisits
  obtain ⟨⟨hole, name, span⟩, hfield, hchecked⟩ := (Option.any_eq_true _ _).1 htest
  obtain ⟨u, hu, -, hexpected⟩ := hall _ s op s hop List.mem_cons_self site a declared ha hole name span
    (fill_onlyField? hfield) _ (beq_iff_eq.1 hchecked)
  have hnothing := List.all_eq_true.1 hnone u hu
  rw [hexpected] at hnothing
  cases hnothing

end Rules

end QueryBatch
