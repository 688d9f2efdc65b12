import QueryBatch.Proofs.Rules.Subjectwise
import QueryBatch.Proofs.Schema.Built

/-!
# Types on the walk

* `Visit.Typed`: a selection set stands for a known type, and a field is declared by its parent and has a selection set
  just if its type has fields.
* `Passed`: what the rules leave of a walk. Each of them is silent where a type is missing.
* `typed_setVisits`: below a known type they leave nothing untyped, for the schema knows the type of every field.
-/

namespace QueryBatch.Rules

/-- A parent is known if it is a type of the schema. -/
def Known (schema : Schema) (parent : Option TypeDef) : Prop :=
  ∃ name type, parent = some type ∧ schema.type? name = some type

/-- A selection set has a known parent type. A field has a definition on its parent, whose type is known, and it has a
selection set if, and only if, this type is no scalar or enum. -/
def Visit.Typed (schema : Schema) : Visit → Prop
  | .selectionSet parent _ => Known schema parent
  | .field parent f body declared => Known schema parent ∧ ∃ type d inner, parent = some type ∧
      schema.field? type f.name.text = some d ∧ declared = some d ∧ schema.type? d.type.baseName = some inner ∧
      (body = none ↔ inner.isLeaf = true)
  | _ => True

/-- What the rules on fields and types leave of a walk: no field that a known parent does not declare, a selection set
just at fields whose type is known to have fields, and no condition on an unknown type. -/
structure Passed (schema : Schema) (visits : List Visit) : Prop where
  declared : ∀ type f body, .field (some type) f body none ∉ visits
  leafs : ∀ parent f body d inner, .field parent f body (some d) ∈ visits →
    schema.type? d.type.baseName = some inner → (body = none ↔ inner.isLeaf = true)
  conditions : ∀ parent i name, .inline parent i ∈ visits → i.condition = some name →
    (schema.type? name.text).isSome = true

theorem Passed.mono {schema : Schema} {visits visits' : List Visit} (h : Passed schema visits)
    (hsub : visits' ⊆ visits) : Passed schema visits' :=
  ⟨fun type f body hv => h.declared type f body (hsub hv),
    fun parent f body d inner hv => h.leafs parent f body d inner (hsub hv),
    fun parent i name hv => h.conditions parent i name (hsub hv)⟩

theorem known_type? {schema : Schema} {name : String} (h : (schema.type? name).isSome = true) :
    Known schema (schema.type? name) := by
  obtain ⟨type, htype⟩ := Option.isSome_iff_exists.1 h
  exact ⟨name, type, htype, htype⟩

theorem known_root? {schema : Schema} {kind : OperationKind} (h : schema.root? kind ≠ none) :
    Known schema (schema.root? kind) := by
  obtain ⟨type, htype⟩ := Option.ne_none_iff_exists'.1 h
  obtain ⟨name, -, hname⟩ := Option.bind_eq_some_iff.1 htype
  exact ⟨name, type, htype, hname⟩

/-! ## Visits of other sorts -/

section Typed

variable {schema : Schema} {parent : Option TypeDef} {v : Visit}

theorem typed_argumentVisits {site : ArgumentSite} {arguments : List Argument} (h : v ∈ argumentVisits site arguments) :
    v.Typed schema := by
  rcases List.mem_cons.1 h with rfl | h
  · trivial
  · obtain ⟨a, -, rfl⟩ := List.mem_map.1 h
    trivial

theorem typed_directiveVisits {location : DirectiveLocation} {directives : List Directive}
    (h : v ∈ directiveVisits schema location directives) : v.Typed schema := by
  unfold directiveVisits at h
  split at h
  · exact absurd h List.not_mem_nil
  · rcases List.mem_cons.1 h with rfl | h
    · trivial
    · obtain ⟨d, -, hd⟩ := List.mem_flatMap.1 h
      exact typed_argumentVisits hd

/-! ## Fields -/

theorem field_mem_fieldVisits {f : Field} {body : Option SelectionSet} :
    .field parent f body (fieldDef? schema parent f) ∈ fieldVisits schema parent f body := by
  unfold fieldVisits
  exact List.mem_append_left _ List.mem_cons_self

/-- A field that passes on a known parent is declared, and its type is known. -/
theorem exists_fieldDef (hschema : schema.IsBuilt) (hparent : Known schema parent) {f : Field}
    {body : Option SelectionSet} (hpassed : Passed schema (fieldVisits schema parent f body)) :
    ∃ type d inner, parent = some type ∧ schema.field? type f.name.text = some d ∧
      fieldDef? schema parent f = some d ∧ schema.type? d.type.baseName = some inner := by
  obtain ⟨name, type, rfl, htype⟩ := hparent
  have hfield : fieldDef? schema (some type) f = schema.field? type f.name.text := rfl
  cases hd : schema.field? type f.name.text with
  | none =>
    have hmem := @field_mem_fieldVisits schema (some type) f body
    rw [hfield, hd] at hmem
    exact absurd hmem (hpassed.declared type f body)
  | some d =>
    obtain ⟨inner, hinner⟩ := hschema.field_type htype hd
    exact ⟨type, d, inner, rfl, hd, hfield.trans hd, hinner⟩

theorem typed_fieldVisits (hschema : schema.IsBuilt) (hparent : Known schema parent) {f : Field}
    {body : Option SelectionSet} (hpassed : Passed schema (fieldVisits schema parent f body)) :
    ∀ v ∈ fieldVisits schema parent f body, v.Typed schema := by
  obtain ⟨type, d, inner, htype, hd, hdeclared, hinner⟩ := exists_fieldDef hschema hparent hpassed
  intro v hv
  have hfield := @field_mem_fieldVisits schema parent f body
  unfold fieldVisits at hv
  rcases List.mem_append.1 hv with hv | hv
  · rcases List.mem_cons.1 hv with rfl | hv
    · rw [hdeclared] at hfield ⊢
      exact ⟨hparent, type, d, inner, htype, hd, rfl, hinner, hpassed.leafs _ _ _ _ _ hfield hinner⟩
    · exact typed_argumentVisits hv
  · exact typed_directiveVisits hv

/-- The selection set of a field that passes stands for a known type. -/
theorem known_childType? (hschema : schema.IsBuilt) (hparent : Known schema parent) {f : Field}
    {body : Option SelectionSet} (hpassed : Passed schema (fieldVisits schema parent f body)) :
    Known schema (childType? schema (fieldDef? schema parent f)) := by
  obtain ⟨-, d, inner, -, -, hdeclared, hinner⟩ := exists_fieldDef hschema hparent hpassed
  exact ⟨_, inner, by rw [hdeclared]; exact hinner, hinner⟩

/-! ## Selection sets -/

/-- The selection set of an inline fragment that passes stands for a known type. -/
theorem known_inlineType? (hparent : Known schema parent) {i : Inline}
    (hconditions : ∀ name, i.condition = some name → (schema.type? name.text).isSome = true) :
    Known schema (inlineType? schema parent i) := by
  unfold inlineType?
  cases h : i.condition with
  | none => exact hparent
  | some name => exact known_type? (hconditions name h)

mutual

theorem typed_selectionVisits (hschema : schema.IsBuilt) : ∀ (parent : Option TypeDef) (selection : Selection),
    Known schema parent → Passed schema (selectionVisits schema parent selection) →
    ∀ v ∈ selectionVisits schema parent selection, v.Typed schema
  | _, .field _, hparent, hpassed => typed_fieldVisits hschema hparent hpassed
  | parent, .group f selections span, hparent, hpassed => by
    have hfield : Passed schema (fieldVisits schema parent f (some ⟨selections, span⟩)) :=
      hpassed.mono (List.subset_append_left _ _)
    have hchild := known_childType? hschema hparent hfield
    have hbelow := hpassed.mono (List.Subset.trans (List.subset_cons_self _ _) (List.subset_append_right _ _))
    intro v hv
    rcases List.mem_append.1 hv with hv | hv
    · exact typed_fieldVisits hschema hparent hfield v hv
    · rcases List.mem_cons.1 hv with rfl | hv
      · exact hchild
      · exact typed_selectionsVisits hschema _ selections hchild hbelow v hv
  | _, .spread _, _, _ => by
    intro v hv
    rcases List.mem_cons.1 hv with rfl | hv
    · trivial
    · exact typed_directiveVisits hv
  | parent, .inline i selections span, hparent, hpassed => by
    have hchild : Known schema (inlineType? schema parent i) :=
      known_inlineType? hparent fun name =>
        hpassed.conditions parent i name (List.mem_append_left _ List.mem_cons_self)
    have hbelow := hpassed.mono (List.Subset.trans (List.subset_cons_self _ _) (List.subset_append_right _ _))
    intro v hv
    rcases List.mem_append.1 hv with hv | hv
    · rcases List.mem_cons.1 hv with rfl | hv
      · trivial
      · exact typed_directiveVisits hv
    · rcases List.mem_cons.1 hv with rfl | hv
      · exact hchild
      · exact typed_selectionsVisits hschema _ selections hchild hbelow v hv

theorem typed_selectionsVisits (hschema : schema.IsBuilt) : ∀ (parent : Option TypeDef) (selections : List Selection),
    Known schema parent → Passed schema (selectionsVisits schema parent selections) →
    ∀ v ∈ selectionsVisits schema parent selections, v.Typed schema
  | _, [], _, _ => fun _ hv => absurd hv List.not_mem_nil
  | parent, selection :: rest, hparent, hpassed => by
    have hfirst := hpassed.mono (List.subset_append_left _ _)
    have hrest := hpassed.mono (List.subset_append_right _ _)
    intro v hv
    rcases List.mem_append.1 hv with hv | hv
    · exact typed_selectionVisits hschema parent selection hparent hfirst v hv
    · exact typed_selectionsVisits hschema parent rest hparent hrest v hv

end

/-- Below a known type, whatever passes is typed. -/
theorem typed_setVisits (hschema : schema.IsBuilt) (hparent : Known schema parent) {set : SelectionSet}
    (hpassed : Passed schema (setVisits schema parent set)) : ∀ v ∈ setVisits schema parent set, v.Typed schema := by
  intro v hv
  rcases List.mem_cons.1 hv with rfl | hv
  · exact hparent
  · exact typed_selectionsVisits hschema parent _ hparent (hpassed.mono (List.subset_cons_self _ _)) v hv

/-! ## Definitions -/

theorem typed_operationVisits (hschema : schema.IsBuilt) {op : Operation} (hroot : schema.root? op.kind ≠ none)
    (hpassed : Passed schema (operationVisits schema op)) : ∀ v ∈ operationVisits schema op, v.Typed schema := by
  have hbody : Passed schema (setVisits schema (schema.root? op.kind) op.body) := by
    refine hpassed.mono fun v hv => ?_
    exact List.mem_append_left _ (List.mem_append_right _ hv)
  intro v hv
  simp only [operationVisits, List.mem_append, List.mem_cons, List.mem_flatMap, List.not_mem_nil, or_false] at hv
  rcases hv with (((rfl | ⟨w, -, rfl | hv⟩) | hv) | hv) | rfl
  · trivial
  · trivial
  · exact typed_directiveVisits hv
  · exact typed_directiveVisits hv
  · exact typed_setVisits hschema (known_root? hroot) hbody v hv
  · trivial

theorem typed_fragmentVisits (hschema : schema.IsBuilt) {frag : Fragment}
    (hcondition : (schema.type? frag.condition.text).isSome = true)
    (hpassed : Passed schema (fragmentVisits schema frag)) : ∀ v ∈ fragmentVisits schema frag, v.Typed schema := by
  have hbody : Passed schema (setVisits schema (schema.type? frag.condition.text) frag.body) := by
    refine hpassed.mono fun v hv => ?_
    exact List.mem_append_left _ (List.mem_append_right _ hv)
  intro v hv
  simp only [fragmentVisits, List.mem_append, List.mem_cons, List.not_mem_nil, or_false] at hv
  rcases hv with ((rfl | hv) | hv) | rfl
  · trivial
  · exact typed_directiveVisits hv
  · exact typed_setVisits hschema (known_type? hcondition) hbody v hv
  · trivial

end Typed

/-! ## What the rules leave -/

/-- A rule on visits that finds nothing finds nothing at any visit. -/
theorem look_eq_nil {look : Context → Subject → Visit → List Finding} {cx : Context} (h : eachVisit look cx = [])
    {s : Subject} (hs : s ∈ cx.subjects) {v : Visit} (hv : v ∈ s.visits cx.schema) : look cx s v = [] :=
  List.flatMap_eq_nil_iff.1 h _ (mem_visits.2 ⟨hs, hv⟩)

/-- Known fields come from the rules on a batch, the rest from the rules on the document that a definition stands in. -/
theorem passed_of_rules {batch document : Context} {s s' : Subject} (hs : s ∈ batch.subjects)
    (hs' : s' ∈ document.subjects) (hsame : s'.definition = s.definition) (hschema : document.schema = batch.schema)
    (hfields : knownFields batch = []) (hleafs : scalarLeafs document = []) (htypes : knownTypes document = []) :
    Passed batch.schema (s.visits batch.schema) := by
  have hvisits : s'.visits document.schema = s.visits batch.schema := by
    unfold Subject.visits
    rw [hsame, hschema]
  constructor
  · intro type f body hv
    have hnil := look_eq_nil hfields hs hv
    exact absurd hnil (List.cons_ne_nil _ _)
  · intro parent f body d inner hv hinner
    rw [← hvisits] at hv
    have hnil := look_eq_nil hleafs hs' hv
    dsimp only [Context.type?] at hnil
    rw [hschema, hinner] at hnil
    cases body <;> cases h : inner.isLeaf <;> simp [h] at hnil ⊢
  · intro parent i name hv hcondition
    rw [← hvisits] at hv
    have hnil := List.map_eq_nil_iff.1 (look_eq_nil htypes hs' hv)
    simp only [unknownTypesAt, hcondition, Option.toList_some, List.flatMap_cons, List.flatMap_nil, List.append_nil,
      ofName_eq_nil_iff, Context.type?, hschema] at hnil
    exact hnil

/-- The condition of a fragment that passes the rule on types is known. -/
theorem condition_of_knownTypes {cx : Context} (htypes : knownTypes cx = []) {s : Subject} (hs : s ∈ cx.subjects)
    {frag : Fragment} (hfrag : s.definition = .fragment frag) :
    (cx.schema.type? frag.condition.text).isSome = true := by
  have hmem : .enterFragment frag ∈ s.visits cx.schema := by
    unfold Subject.visits
    rw [hfrag]
    exact List.mem_append_left _ (List.mem_append_left _ List.mem_cons_self)
  have hnil := List.map_eq_nil_iff.1 (look_eq_nil htypes hs hmem)
  exact ofName_eq_nil_iff.1 hnil

end QueryBatch.Rules
