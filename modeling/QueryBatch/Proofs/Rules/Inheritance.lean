import QueryBatch.Proofs.Rules.Cycles
import QueryBatch.Proofs.Rules.Expansion
import QueryBatch.Rules.Validate

/-!
# Rules in larger contexts

A rule that lets the definitions of an embedded context pass finds nothing in that context alone.

* `Spares`: what a rule finds in the larger context rejects no definition of the smaller one.
* `Inherits`: such a rule finds nothing in the smaller one.
* `inherits_flatMap`: rules that look at one thing after the other inherit.
* `inherits_acyclicFragments`: so does the rule on cycles, which does not reject all fragments of a cycle.
-/

namespace QueryBatch.Rules

/-- A rule rejects no definition of a context that is embedded in another one. -/
def Spares (part whole : Context) (rename : Owner → Owner) (rule : Rule) : Prop :=
  ∀ f ∈ rule whole, ∀ s ∈ part.subjects, rename s.owner ∉ f.rejected

/-- A rule finds nothing in an embedded context whose definitions it spares. -/
def Inherits (rule : Rule) : Prop :=
  ∀ part whole rename, part.Embeds whole rename → Spares part whole rename rule → rule part = []

/-! ## Rules that look at one thing after the other -/

/-- A rule that looks at definitions with something of each inherits if it rejects the definition it looks at, and says
the same about it in both contexts. -/
theorem inherits_flatMap {α : Type} {items : Context → List (Subject × α)} {look : Context → Subject × α → List Finding}
    (hitems : ∀ part whole rename, part.Embeds whole rename → ∀ s a, (s, a) ∈ items part →
      s ∈ part.subjects ∧ (s.renamed rename, a) ∈ items whole)
    (hrejects : ∀ cx s a, ∀ f ∈ look cx (s, a), s.owner ∈ f.rejected)
    (hnil : ∀ part whole rename, part.Embeds whole rename → ∀ s a, (s, a) ∈ items part →
      look whole (s.renamed rename, a) = [] → look part (s, a) = []) :
    Inherits fun cx => (items cx).flatMap (look cx) := by
  intro part whole rename h hspares
  refine List.flatMap_eq_nil_iff.2 fun x hx => ?_
  obtain ⟨s, a⟩ := x
  obtain ⟨hs, hwhole⟩ := hitems part whole rename h s a hx
  refine hnil part whole rename h s a hx (List.eq_nil_iff_forall_not_mem.2 fun f hf => ?_)
  exact hspares f (List.mem_flatMap.2 ⟨_, hwhole, hf⟩) s hs (hrejects whole (s.renamed rename) a f hf)

/-- What is reported for the members of a list rejects the definition it is reported for. -/
theorem owner_mem_rejected {α : Type} {s : Subject} {d : α → Diagnostic} {as : List α} {f : Finding}
    (h : f ∈ as.map fun a => s.rejectedFor (d a)) : s.owner ∈ f.rejected := by
  obtain ⟨a, -, rfl⟩ := List.mem_map.1 h
  exact List.mem_singleton_self _

/-- Nothing is reported for the members of a list exactly if it has none. -/
theorem map_nil_of_map_nil {α β γ : Type} {g : α → β} {g' : α → γ} {as : List α} (h : as.map g = []) :
    as.map g' = [] := by
  obtain rfl := List.map_eq_nil_iff.1 h
  rfl

/-! ## Rules on visits -/

theorem mem_visits {cx : Context} {s : Subject} {v : Visit} :
    (s, v) ∈ cx.visits ↔ s ∈ cx.subjects ∧ v ∈ s.visits cx.schema := by
  unfold Context.visits
  simp only [List.mem_flatMap, List.mem_map, Prod.mk.injEq]
  constructor
  · rintro ⟨s', hs', v', hv', rfl, rfl⟩
    exact ⟨hs', hv'⟩
  · rintro ⟨hs, hv⟩
    exact ⟨s, hs, v, hv, rfl, rfl⟩

/-- What is met in a definition is met in every context that has it. -/
theorem Context.Embeds.mem_visits {part whole : Context} {rename : Owner → Owner} (h : part.Embeds whole rename)
    {s : Subject} {v : Visit} (hv : (s, v) ∈ part.visits) :
    s ∈ part.subjects ∧ (s.renamed rename, v) ∈ whole.visits := by
  obtain ⟨hs, hv⟩ := Rules.mem_visits.1 hv
  refine ⟨hs, Rules.mem_visits.2 ⟨h.mem_subjects hs, ?_⟩⟩
  rw [Subject.visits_renamed, ← h.schema]
  exact hv

/-- A rule on visits inherits if all it needs to know of a context is the schema. -/
theorem inherits_eachVisit {look : Context → Subject → Visit → List Finding}
    (hrejects : ∀ cx s v, ∀ f ∈ look cx s v, s.owner ∈ f.rejected)
    (hnil : ∀ cx cx' : Context, cx'.schema = cx.schema → ∀ s v rename, look cx' (s.renamed rename) v = [] →
      look cx s v = []) : Inherits (eachVisit look) :=
  inherits_flatMap (fun _ _ _ h _ _ hx => h.mem_visits hx) hrejects
    fun part whole rename h s v _ => hnil part whole h.schema.symm s v rename

theorem inherits_knownFields : Inherits knownFields := by
  apply inherits_eachVisit
  · intro cx s v f hf
    dsimp only at hf
    split at hf
    · cases List.mem_singleton.1 hf
      exact List.mem_singleton_self _
    · exact absurd hf List.not_mem_nil
  · intro cx cx' _ s v rename h
    dsimp only at h ⊢
    split at h
    · exact absurd h (List.cons_ne_nil _ _)
    · rfl

theorem inherits_knownDirectives : Inherits knownDirectives := by
  apply inherits_eachVisit
  · intro cx s v f hf
    cases v with
    | directives location directives =>
      obtain ⟨d, -, hd⟩ := List.mem_flatMap.1 hf
      dsimp only at hd
      split at hd
      · cases List.mem_singleton.1 hd
        exact List.mem_singleton_self _
      · split at hd
        · exact absurd hd List.not_mem_nil
        · cases List.mem_singleton.1 hd
          exact List.mem_singleton_self _
    | _ => exact absurd hf List.not_mem_nil
  · intro cx cx' hschema s v rename h
    cases v with
    | directives location directives =>
      refine List.flatMap_eq_nil_iff.2 fun d hd => ?_
      have hnone := List.flatMap_eq_nil_iff.1 h d hd
      dsimp only at hnone ⊢
      rw [hschema] at hnone
      split at hnone
      · exact absurd hnone (List.cons_ne_nil _ _)
      · split at hnone
        · rename_i hin
          rw [if_pos hin]
        · exact absurd hnone (List.cons_ne_nil _ _)
    | _ => rfl

theorem inherits_uniqueDirectives : Inherits uniqueDirectives := by
  apply inherits_eachVisit
  · intro cx s v f hf
    cases v with
    | directives location directives => exact owner_mem_rejected hf
    | _ => exact absurd hf List.not_mem_nil
  · intro cx cx' hschema s v rename h
    cases v with
    | directives location directives =>
      dsimp only at h ⊢
      rw [hschema] at h
      exact map_nil_of_map_nil h
    | _ => rfl

/-- The rules that compare arguments with their declarations inherit. -/
theorem inherits_onInputs {α : Type} (faults : Inputs → List Argument → List α)
    (d : Subject → ArgumentSite → Inputs → α → Diagnostic) :
    Inherits (eachVisit fun _ s v =>
      match v with
      | .arguments site arguments =>
        match site.inputs? with
        | some inputs => (faults inputs arguments).map fun a => s.rejectedFor (d s site inputs a)
        | none => []
      | _ => []) := by
  apply inherits_eachVisit
  · intro cx s v f hf
    cases v with
    | arguments site arguments =>
      dsimp only at hf
      split at hf
      · exact owner_mem_rejected hf
      · exact absurd hf List.not_mem_nil
    | _ => exact absurd hf List.not_mem_nil
  · intro cx cx' _ s v rename h
    cases v with
    | arguments site arguments =>
      dsimp only at h ⊢
      cases hinputs : site.inputs? with
      | none => rfl
      | some inputs =>
        rw [hinputs] at h
        exact map_nil_of_map_nil h
    | _ => rfl

theorem inherits_knownArguments : Inherits knownArguments :=
  inherits_onInputs (fun inputs arguments => arguments.filter fun a => !inputs.contains a.name.text)
    fun s site inputs a => suggest ((s.diagnostic .unknownArgument a.name.span).withDetail
      ("`" ++ a.name.text ++ "` on " ++ site.describe)) a.name.text inputs.keys

theorem inherits_requiredArguments : Inherits requiredArguments :=
  inherits_onInputs (fun inputs arguments =>
      inputs.values.filter fun d => d.isRequired && arguments.all fun a => a.name.text != d.name)
    fun s site _ d => (s.diagnostic .missingRequiredArgument site.span).withDetail
      (site.shortName ++ " argument `" ++ d.name ++ "` of type `" ++ d.type.text ++
        "` is required, but it was not provided")

theorem inherits_uniqueArguments : Inherits uniqueArguments := by
  apply inherits_eachVisit
  · intro cx s v f hf
    cases v with
    | arguments site arguments => exact owner_mem_rejected hf
    | _ => exact absurd hf List.not_mem_nil
  · intro cx cx' _ s v rename h
    cases v with
    | arguments site arguments => exact map_nil_of_map_nil h
    | _ => rfl

mutual

theorem repeatedFieldsIn_renamed (rename : Owner → Owner) (s : Subject) :
    ∀ value : Value, repeatedFieldsIn (s.renamed rename) value = repeatedFieldsIn s value
  | .variable _ _ | .int _ _ | .float _ _ | .string _ _ | .boolean _ _ | .null _ | .enum _ _ => rfl
  | .list items _ => repeatedFieldsInItems_renamed rename s items
  | .object fields _ => by
    rw [repeatedFieldsIn, repeatedFieldsIn, repeatedFieldsInFields_renamed rename s fields]
    rfl

theorem repeatedFieldsInItems_renamed (rename : Owner → Owner) (s : Subject) :
    ∀ items : List Value, repeatedFieldsInItems (s.renamed rename) items = repeatedFieldsInItems s items
  | [] => rfl
  | item :: items => by
    rw [repeatedFieldsInItems, repeatedFieldsInItems, repeatedFieldsIn_renamed rename s item,
      repeatedFieldsInItems_renamed rename s items]

theorem repeatedFieldsInFields_renamed (rename : Owner → Owner) (s : Subject) :
    ∀ fields : List (Name × Value), repeatedFieldsInFields (s.renamed rename) fields = repeatedFieldsInFields s fields
  | [] => rfl
  | (_, value) :: fields => by
    rw [repeatedFieldsInFields, repeatedFieldsInFields, repeatedFieldsIn_renamed rename s value,
      repeatedFieldsInFields_renamed rename s fields]

end

theorem inherits_uniqueInputFields : Inherits uniqueInputFields := by
  apply inherits_eachVisit
  · intro cx s v f hf
    cases v with
    | variableDefinition v => exact owner_mem_rejected (d := id) hf
    | argument site a declared => exact owner_mem_rejected (d := id) hf
    | _ => exact absurd hf List.not_mem_nil
  · intro cx cx' _ s v rename h
    have hsame := funext (repeatedFieldsIn_renamed rename s)
    cases v with
    | variableDefinition v =>
      dsimp only at h ⊢
      rw [hsame] at h
      exact map_nil_of_map_nil h
    | argument site a declared =>
      dsimp only at h ⊢
      rw [hsame] at h
      exact map_nil_of_map_nil h
    | _ => rfl

/-- Spreads that are possible in the larger context are possible in the smaller one. -/
theorem Context.Embeds.possibleSpreads_eq_nil {part whole : Context} {rename : Owner → Owner}
    (h : part.Embeds whole rename) (hnil : possibleSpreads whole = []) : possibleSpreads part = [] := by
  refine List.flatMap_eq_nil_iff.2 fun ⟨s, v⟩ hv => ?_
  have hwhole := List.flatMap_eq_nil_iff.1 hnil _ (h.mem_visits hv).2
  have hsame : ∀ parent condition : TypeDef, canApply whole parent condition = canApply part parent condition := by
    intro parent condition
    unfold canApply
    rw [h.schema]
  have htype : ∀ name, whole.type? name = part.type? name := by
    intro name
    unfold Context.type?
    rw [h.schema]
  cases v with
  | inline parent i =>
    cases parent with
    | none => rfl
    | some parent =>
      dsimp only at hwhole ⊢
      simp only [htype] at hwhole
      cases hcondition : i.condition.bind fun name => part.type? name.text with
      | none => rfl
      | some condition =>
        rw [hcondition] at hwhole
        dsimp only at hwhole ⊢
        rw [hsame] at hwhole
        split at hwhole
        · rename_i happly
          rw [if_pos happly]
        · exact absurd hwhole (List.cons_ne_nil _ _)
  | spread parent spread =>
    cases parent with
    | none => rfl
    | some parent =>
      dsimp only at hwhole ⊢
      cases hfound : part.fragment? spread.name.text with
      | none => rfl
      | some x =>
        obtain ⟨s', frag⟩ := x
        obtain ⟨s', frag, hpart, hfragment, -⟩ := h.fragment? (Context.mem_names_of_fragment? hfound)
        rw [hfound] at hpart
        cases hpart
        rw [hfragment] at hwhole
        dsimp only [Option.bind_some] at hwhole ⊢
        rw [htype] at hwhole
        cases hcondition : part.type? frag.condition.text with
        | none => rfl
        | some condition =>
          rw [hcondition] at hwhole
          dsimp only at hwhole ⊢
          rw [hsame] at hwhole
          split at hwhole
          · rename_i happly
            rw [if_pos happly]
          · exact absurd hwhole (List.cons_ne_nil _ _)
  | _ => rfl

/-! ## Rules on operations -/

theorem Context.Embeds.covers_operation {part whole : Context} {rename : Owner → Owner} (h : part.Embeds whole rename)
    {s : Subject} {op : Operation} (hop : (s, op) ∈ part.operations) : part.Covers op.body.spreads := by
  obtain ⟨hs, hdefinition⟩ := Context.mem_operations.1 hop
  have hcovers := h.closed hs
  rwa [Definition.body_of_operation? hdefinition] at hcovers

/-- A rule on operations inherits if it says the same about an operation in both contexts. -/
theorem inherits_onOperations {look : Context → Subject × Operation → List Finding}
    (hrejects : ∀ cx s op, ∀ f ∈ look cx (s, op), s.owner ∈ f.rejected)
    (hnil : ∀ part whole rename, part.Embeds whole rename → ∀ s op, (s, op) ∈ part.operations →
      look whole (s.renamed rename, op) = [] → look part (s, op) = []) :
    Inherits fun cx => cx.operations.flatMap (look cx) :=
  inherits_flatMap (fun _ _ _ h _ _ hx => ⟨(Context.mem_operations.1 hx).1, h.mem_operations hx⟩) hrejects hnil

theorem singleRootField_eq : singleRootField = fun cx => cx.operations.flatMap fun x =>
    (match x.2.kind, extraRootFields cx x.1 x.2 with
    | .subscription, extra :: more =>
      some (x.1.rejectedFor ((x.1.diagnostic .subscriptionMultipleRootFields
        (more.foldl (fun span f => span.cover f.span) extra.span)).withDetail
          (describeSubscription x.2 ++ " must select only one top-level field")))
    | _, _ => none : Option Finding).toList := by
  funext cx
  exact List.filterMap_eq_flatMap_toList _ _

theorem inherits_singleRootField : Inherits singleRootField := by
  rw [singleRootField_eq]
  apply inherits_onOperations
  · intro cx s op f hf
    dsimp only at hf
    split at hf
    · cases List.mem_singleton.1 hf
      exact List.mem_singleton_self _
    · exact absurd hf List.not_mem_nil
  · intro part whole rename h s op hop hwhole
    have hsame : extraRootFields whole (s.renamed rename) op = extraRootFields part s op := by
      unfold extraRootFields
      rw [(h.expand s none (h.covers_operation hop) []).fields, List.map_map]
      rfl
    dsimp only at hwhole ⊢
    rw [hsame] at hwhole
    split at hwhole
    · exact absurd hwhole (List.cons_ne_nil _ _)
    · rfl

/-! ## The rule on cycles -/

section Cycles

variable {part whole : Context} {rename : Owner → Owner}

/-- A name of the small context stands for one selection set in both. -/
theorem Context.Embeds.bodyOf (h : part.Embeds whole rename) {name : String} {body : SelectionSet}
    (hbody : part.bodyOf name = some body) : whole.bodyOf name = some body := by
  obtain ⟨s, frag, hfound, rfl⟩ := Context.exists_of_bodyOf hbody
  obtain ⟨s', frag', hpart, hwhole, -⟩ := h.fragment? (Context.mem_names_of_fragment? hfound)
  rw [hfound] at hpart
  cases hpart
  exact Context.bodyOf_eq hwhole

/-- What is reached in the small context is reached in the larger one. -/
theorem Context.Embeds.reaches (h : part.Embeds whole rename) {set : SelectionSet} {name : String}
    (hr : Reaches part.bodyOf set name) : Reaches whole.bodyOf set name :=
  hr.transport (List.Subset.refl _) fun _ body _ hbody => ⟨body, h.bodyOf hbody, List.Subset.refl _⟩

/-- What the larger context reaches from spreads of the small one is in the small one. -/
theorem Context.Embeds.mem_names_of_reaches (h : part.Embeds whole rename) {set : SelectionSet} {name : String}
    (hset : part.Covers set.spreads) (hr : Reaches whole.bodyOf set name) : name ∈ part.names := by
  induction hr with
  | spread hs _ => exact hset _ hs
  | through hs hbody _ ih =>
    obtain ⟨s, frag, -, hwhole, hcovers⟩ := h.fragment? (hset _ hs)
    rw [Context.bodyOf_eq hwhole] at hbody
    cases hbody
    exact ih hcovers

/-- If all fragments of the small context are spared, none of them reaches itself. -/
theorem not_reaches_of_spares (h : part.Embeds whole rename) (hspares : Spares part whole rename acyclicFragments)
    {name : String} (hname : name ∈ part.names) {body : SelectionSet} (hbody : whole.bodyOf name = some body) :
    ¬ Reaches whole.bodyOf body name := by
  intro hreach
  obtain ⟨_, _, -, hwhole, hcovers⟩ := h.fragment? hname
  rw [Context.bodyOf_eq hwhole] at hbody
  cases hbody
  -- of the fragments that lead to `name` and back one is rejected, and all of them are in the small context
  obtain ⟨other, s, frag, ⟨_, hbody', hthere⟩, -, hfound, f, hf, hrejects⟩ :=
    exists_rejected_of_leadsTo ⟨_, Context.bodyOf_eq hwhole, hreach⟩
  rw [Context.bodyOf_eq hwhole] at hbody'
  cases hbody'
  obtain ⟨s', _, hpart, hwhole', -⟩ := h.fragment? (h.mem_names_of_reaches hcovers hthere)
  rw [hfound] at hwhole'
  cases hwhole'
  exact hspares f hf s' (Context.mem_fragments.1 (Context.mem_of_fragment? hpart)).1 hrejects

theorem inherits_acyclicFragments : Inherits acyclicFragments := by
  intro part whole rename h hspares
  refine acyclicFragments_eq_nil_iff.2 fun name body hbody hreach => ?_
  obtain ⟨s, frag, hfound, -⟩ := Context.exists_of_bodyOf hbody
  have hname := Context.mem_names_of_fragment? hfound
  exact not_reaches_of_spares h hspares hname (h.bodyOf hbody) (h.reaches hreach)

end Cycles

end QueryBatch.Rules
