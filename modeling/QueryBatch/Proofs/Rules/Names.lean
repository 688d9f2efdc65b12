import QueryBatch.Proofs.Document.Names
import QueryBatch.Rules.Walk

/-!
# Where visits stem from

* `Visit.names`: the names in one thing that is met on the walk through a definition.
* `Visit.Declared`: what is met comes with what the schema declares of it.
* `stems_visits`: the names in what is met are names of the definition, and it comes with its declarations.
-/

namespace QueryBatch.Rules

/-- The names in what is met. -/
def Visit.names : Visit → List Name
  | .enterOperation op | .leaveOperation op => op.names
  | .enterFragment frag | .leaveFragment frag => frag.names
  | .variableDefinition v => v.names
  | .selectionSet _ set => set.names
  | .field _ f body _ => f.names ++ body.toList.flatMap SelectionSet.names
  | .inline _ i => i.names
  | .spread _ s => s.names
  | .directives _ ds => ds.flatMap Directive.names
  | .arguments _ as => as.flatMap Argument.names
  | .argument _ a _ => a.names

/-- Arguments are declared by what the schema knows of the field or directive. -/
def ArgumentSite.Declared (schema : Schema) : ArgumentSite → Prop
  | .field parent f declared _ => declared = fieldDef? schema parent f
  | .directive d declared => declared = schema.directive? d.name.text

/-- What is met comes with what the schema declares of it. -/
def Visit.Declared (schema : Schema) : Visit → Prop
  | .field parent f _ declared => declared = fieldDef? schema parent f
  | .arguments site _ => site.Declared schema
  | .argument site a declared => site.Declared schema ∧ declared = site.input? a.name.text
  | _ => True

/-- What is met has names among some, and comes with what the schema declares of it. -/
structure Visit.Stems (schema : Schema) (names : List Name) (v : Visit) : Prop where
  names_subset : v.names ⊆ names
  declared : v.Declared schema

section Walks

variable {schema : Schema} {v : Visit} {names more : List Name}

theorem Visit.Stems.mono (h : v.Stems schema names) (hsub : names ⊆ more) : v.Stems schema more :=
  ⟨List.Subset.trans h.names_subset hsub, h.declared⟩

theorem stems_argumentVisits {site : ArgumentSite} {arguments : List Argument} (hsite : site.Declared schema)
    (h : v ∈ argumentVisits site arguments) : v.Stems schema (arguments.flatMap Argument.names) := by
  rcases List.mem_cons.1 h with rfl | h
  · exact ⟨List.Subset.refl _, hsite⟩
  · obtain ⟨a, ha, rfl⟩ := List.mem_map.1 h
    exact ⟨fun n hn => List.mem_flatMap.2 ⟨a, ha, hn⟩, hsite, rfl⟩

theorem stems_directiveVisits {location : DirectiveLocation} {directives : List Directive}
    (h : v ∈ directiveVisits schema location directives) : v.Stems schema (directives.flatMap Directive.names) := by
  unfold directiveVisits at h
  split at h
  · exact absurd h List.not_mem_nil
  · rcases List.mem_cons.1 h with rfl | h
    · exact ⟨List.Subset.refl _, trivial⟩
    · obtain ⟨d, hd, h⟩ := List.mem_flatMap.1 h
      refine (stems_argumentVisits (by rfl) h).mono fun n hn => List.mem_flatMap.2 ⟨d, hd, ?_⟩
      exact List.mem_cons_of_mem _ hn

theorem stems_fieldVisits {parent : Option TypeDef} {f : Field} {body : Option SelectionSet}
    (h : v ∈ fieldVisits schema parent f body) :
    v.Stems schema (f.names ++ body.toList.flatMap SelectionSet.names) := by
  unfold fieldVisits at h
  simp only [List.mem_append, List.mem_cons] at h
  rcases h with (rfl | h) | h
  · exact ⟨List.Subset.refl _, rfl⟩
  · refine (stems_argumentVisits (by rfl) h).mono fun n hn => ?_
    simp only [Field.names, List.mem_append, List.mem_cons, hn, true_or, or_true]
  · exact (stems_directiveVisits h).mono fun n hn => List.mem_append_left _ (List.mem_append_right _ hn)

mutual

theorem stems_selectionVisits : ∀ (parent : Option TypeDef) (x : Selection), v ∈ selectionVisits schema parent x →
    v.Stems schema x.names
  | _, .field f, h => by
    refine (stems_fieldVisits h).mono ?_
    rw [Option.toList_none, List.flatMap_nil, List.append_nil]
    exact List.Subset.refl _
  | _, .group f selections setSpan, h => by
    rw [selectionVisits, List.mem_append, List.mem_cons] at h
    rcases h with h | rfl | h
    · refine (stems_fieldVisits h).mono ?_
      rw [Option.toList_some, List.flatMap_singleton]
      exact List.Subset.refl _
    · exact ⟨List.subset_append_right _ _, trivial⟩
    · exact (stems_selectionsVisits _ selections h).mono (List.subset_append_right _ _)
  | _, .spread s, h => by
    rw [selectionVisits, List.mem_cons] at h
    rcases h with rfl | h
    · exact ⟨List.Subset.refl _, trivial⟩
    · exact (stems_directiveVisits h).mono (List.subset_cons_self _ _)
  | _, .inline i selections setSpan, h => by
    rw [selectionVisits] at h
    simp only [List.mem_append, List.mem_cons] at h
    rcases h with (rfl | h) | rfl | h
    · exact ⟨List.subset_append_left _ _, trivial⟩
    · exact (stems_directiveVisits h).mono fun n hn => List.mem_append_left _ (List.mem_append_right _ hn)
    · exact ⟨List.subset_append_right _ _, trivial⟩
    · exact (stems_selectionsVisits _ selections h).mono (List.subset_append_right _ _)

theorem stems_selectionsVisits : ∀ (parent : Option TypeDef) (selections : List Selection),
    v ∈ selectionsVisits schema parent selections → v.Stems schema (Selection.namesIn selections)
  | _, [], h => absurd h List.not_mem_nil
  | parent, x :: rest, h => (List.mem_append.1 h).elim
      (fun h => (stems_selectionVisits parent x h).mono (List.subset_append_left _ _))
      (fun h => (stems_selectionsVisits parent rest h).mono (List.subset_append_right _ _))

end

theorem stems_setVisits {parent : Option TypeDef} {set : SelectionSet} (h : v ∈ setVisits schema parent set) :
    v.Stems schema set.names := by
  rcases List.mem_cons.1 h with rfl | h
  · exact ⟨List.Subset.refl _, trivial⟩
  · exact stems_selectionsVisits _ _ h

theorem stems_operationVisits {op : Operation} (h : v ∈ operationVisits schema op) : v.Stems schema op.names := by
  have hdeclared : ∀ {x : VariableDefinition}, x ∈ op.variableDefinitions → x.names ⊆ op.names := fun hx n hn => by
    simp only [Operation.names, List.mem_append, List.mem_flatMap]
    exact .inl (.inl (.inr ⟨_, hx, hn⟩))
  unfold operationVisits at h
  simp only [List.mem_append, List.mem_cons, List.mem_flatMap, List.not_mem_nil, or_false] at h
  rcases h with (((rfl | ⟨x, hx, rfl | h⟩) | h) | h) | rfl
  · exact ⟨List.Subset.refl _, trivial⟩
  · exact ⟨hdeclared hx, trivial⟩
  · exact (stems_directiveVisits h).mono (List.Subset.trans (List.subset_append_right _ _) (hdeclared hx))
  · exact (stems_directiveVisits h).mono fun n hn => List.mem_append_left _ (List.mem_append_right _ hn)
  · exact (stems_setVisits h).mono (List.subset_append_right _ _)
  · exact ⟨List.Subset.refl _, trivial⟩

theorem stems_fragmentVisits {frag : Fragment} (h : v ∈ fragmentVisits schema frag) : v.Stems schema frag.names := by
  unfold fragmentVisits at h
  simp only [List.mem_append, List.mem_cons, List.not_mem_nil, or_false] at h
  rcases h with ((rfl | h) | h) | rfl
  · exact ⟨List.Subset.refl _, trivial⟩
  · refine (stems_directiveVisits h).mono fun n hn => ?_
    simp only [Fragment.names, List.cons_append, List.mem_append, List.mem_cons, hn, true_or, or_true]
  · exact (stems_setVisits h).mono (List.subset_append_right _ _)
  · exact ⟨List.Subset.refl _, trivial⟩

/-- What is met in a definition has names of it, and comes with what the schema declares of it. -/
theorem stems_visits {s : Subject} (h : v ∈ s.visits schema) : v.Stems schema s.definition.names := by
  unfold Subject.visits at h
  cases hd : s.definition with
  | operation op =>
    rw [hd] at h
    exact stems_operationVisits h
  | fragment frag =>
    rw [hd] at h
    exact stems_fragmentVisits h

end Walks

end QueryBatch.Rules
