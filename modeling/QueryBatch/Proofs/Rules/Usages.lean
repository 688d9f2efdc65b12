import Mathlib.Data.List.Flatten
import Mathlib.Data.List.Perm.Subperm
import QueryBatch.Parse.Document
import QueryBatch.Proofs.Document.Traversal
import QueryBatch.Proofs.Rules.Reachable
import QueryBatch.Rules.Variables

/-!
# Which variables are used, and where

The rules on variables see the uses that a typed walk collects, definition by definition. Here the same uses are read
off the trees, with no schema and no types, and the rules are said in terms of them.

* `Definition.arguments`: the arguments in a definition. `usagesWithin_places`: the walk collects the variables in their
  values, each occurrence once and in this order.
* `Context.answersFor`, `Context.occurrences`: the definitions whose variables an operation answers for, and those
  variables. `usagesOf_places`: they are what the rules look at.
* `definedVariables_eq`, `usedVariables_eq`: the findings of the two rules, one for each occurrence or declaration.
* `UsageTable`: a table of the uses in each definition, filled on the way. `UsageTable.Sound.overOperations_eq`: a rule
  that looks them up finds the same.
* `variables_exact`: all of this in one statement.
-/

namespace QueryBatch

/-! ## The arguments of a definition -/

/-- The arguments of directives. -/
def directiveArguments (directives : List Directive) : List Argument := directives.flatMap Directive.arguments

namespace Selection

mutual

/-- The arguments of the fields and directives in a selection, in the order of the text. -/
def arguments : Selection → List Argument
  | .field f => f.arguments ++ directiveArguments f.directives
  | .group f selections _ => f.arguments ++ directiveArguments f.directives ++ argumentsIn selections
  | .spread s => directiveArguments s.directives
  | .inline i selections _ => directiveArguments i.directives ++ argumentsIn selections

def argumentsIn : List Selection → List Argument
  | [] => []
  | selection :: rest => selection.arguments ++ argumentsIn rest

end

end Selection

/-- The arguments of the fields and directives in a definition, in the order of the text. -/
def Definition.arguments : Definition → List Argument
  | .operation op => op.variableDefinitions.flatMap (fun v => directiveArguments v.directives) ++
      directiveArguments op.directives ++ Selection.argumentsIn op.body.selections
  | .fragment frag => directiveArguments frag.directives ++ Selection.argumentsIn frag.body.selections

/-- Whether an operation declares a variable. -/
def Operation.declares (op : Operation) (name : String) : Bool :=
  op.variableDefinitions.any fun v => v.name.text == name

namespace Rules

/-! ## The walk meets every argument -/

/-- The argument that is met. -/
def Visit.argument? : Visit → Option Argument
  | .argument _ a _ => some a
  | _ => none

section Walk

variable (schema : Schema)

theorem arguments_argumentVisits (site : ArgumentSite) (arguments : List Argument) :
    (argumentVisits site arguments).filterMap Visit.argument? = arguments := by
  unfold argumentVisits
  rw [List.filterMap_cons_none rfl, List.filterMap_map]
  exact List.filterMap_some

theorem arguments_directiveVisits (location : DirectiveLocation) (directives : List Directive) :
    (directiveVisits schema location directives).filterMap Visit.argument? = directiveArguments directives := by
  unfold directiveVisits directiveArguments
  split
  · rename_i hnone
    rw [List.isEmpty_iff.1 hnone]
    rfl
  · rw [List.filterMap_cons_none rfl, List.filterMap_flatMap]
    exact List.flatMap_congr fun d _ => arguments_argumentVisits _ _

theorem arguments_fieldVisits (parent : Option TypeDef) (f : Field) (body : Option SelectionSet) :
    (fieldVisits schema parent f body).filterMap Visit.argument? = f.arguments ++ directiveArguments f.directives := by
  unfold fieldVisits
  rw [List.filterMap_append, List.filterMap_cons_none rfl, arguments_argumentVisits, arguments_directiveVisits]

mutual

theorem arguments_selectionVisits : ∀ (parent : Option TypeDef) (selection : Selection),
    (selectionVisits schema parent selection).filterMap Visit.argument? = selection.arguments
  | parent, .field f => arguments_fieldVisits schema parent f none
  | parent, .group f selections span => by
    rw [selectionVisits, List.filterMap_append, arguments_fieldVisits, List.filterMap_cons_none rfl,
      arguments_selectionsVisits, Selection.arguments]
  | parent, .spread s => by
    rw [selectionVisits, List.filterMap_cons_none rfl, arguments_directiveVisits, Selection.arguments]
  | parent, .inline i selections span => by
    rw [selectionVisits, List.filterMap_append, List.filterMap_cons_none rfl, arguments_directiveVisits,
      List.filterMap_cons_none rfl, arguments_selectionsVisits, Selection.arguments]

theorem arguments_selectionsVisits : ∀ (parent : Option TypeDef) (selections : List Selection),
    (selectionsVisits schema parent selections).filterMap Visit.argument? = Selection.argumentsIn selections
  | _, [] => rfl
  | parent, selection :: rest => by
    rw [selectionsVisits, List.filterMap_append, arguments_selectionVisits, arguments_selectionsVisits,
      Selection.argumentsIn]

end

theorem arguments_setVisits (parent : Option TypeDef) (set : SelectionSet) :
    (setVisits schema parent set).filterMap Visit.argument? = Selection.argumentsIn set.selections := by
  unfold setVisits
  rw [List.filterMap_cons_none rfl, arguments_selectionsVisits]

/-- Each argument of a definition is met, once and in its turn, and no other. -/
theorem arguments_visits (s : Subject) : (s.visits schema).filterMap Visit.argument? = s.definition.arguments := by
  unfold Subject.visits
  cases s.definition with
  | operation op =>
    have hdefinitions : (op.variableDefinitions.flatMap fun v => .variableDefinition v ::
        directiveVisits schema .variableDefinition v.directives).filterMap Visit.argument? =
          op.variableDefinitions.flatMap fun v => directiveArguments v.directives := by
      rw [List.filterMap_flatMap]
      refine List.flatMap_congr fun v _ => ?_
      rw [List.filterMap_cons_none rfl, arguments_directiveVisits]
    dsimp only
    unfold operationVisits Definition.arguments
    rw [List.filterMap_append, List.filterMap_append, List.filterMap_append, List.filterMap_cons_none rfl, hdefinitions,
      arguments_directiveVisits, arguments_setVisits]
    exact List.append_nil _
  | fragment frag =>
    dsimp only
    unfold fragmentVisits Definition.arguments
    rw [List.filterMap_append, List.filterMap_append, List.filterMap_cons_none rfl, arguments_directiveVisits,
      arguments_setVisits]
    exact List.append_nil _

end Walk

/-! ## The uses that the walk collects -/

/-- What tells a use from others: the name of its variable, its source and its span. -/
abbrev VariablePlace := String × Nat × Span

def Usage.place (u : Usage) : VariablePlace := (u.name, u.subject.source, u.span)

/-- The variables in a value of a source. -/
def placesIn (source : Nat) (value : Value) : List VariablePlace :=
  value.variableUses.map fun (name, span) => (name, source, span)

/-- The variables in the arguments of a definition. -/
def Subject.variablePlaces (s : Subject) : List VariablePlace :=
  s.definition.arguments.flatMap fun a => placesIn s.source a.value

section Collected

variable (schema : Schema) (s : Subject)

mutual

theorem usagesInValue_places : ∀ (expected : Option TypeRef) (hasDefault : Bool) (value : Value),
    (usagesIn schema s expected hasDefault value).map Usage.place =
      value.variableUsesIn.map fun (name, span) => (name, s.source, span)
  | _, _, .variable _ _ | _, _, .int _ _ | _, _, .float _ _ | _, _, .string _ _ | _, _, .boolean _ _ | _, _, .null _
  | _, _, .enum _ _ => rfl
  | expected, _, .list items _ => usagesInItems_places (expected.bind TypeRef.listItem?) items
  | expected, _, .object fields _ => usagesInFields_places (inputFieldsOf? schema expected) fields

theorem usagesInItems_places : ∀ (expected : Option TypeRef) (items : List Value),
    (usagesInItems schema s expected items).map Usage.place =
      (Value.variableUsesInList items).map fun (name, span) => (name, s.source, span)
  | _, [] => rfl
  | expected, item :: items => by
    rw [usagesInItems, Value.variableUsesInList, List.map_append, List.map_append,
      usagesInValue_places expected false item, usagesInItems_places expected items]

theorem usagesInFields_places : ∀ (inputs : Option Inputs) (fields : List (Name × Value)),
    (usagesInFields schema s inputs fields).map Usage.place =
      (Value.variableUsesInFields fields).map fun (name, span) => (name, s.source, span)
  | _, [] => rfl
  | inputs, (name, value) :: fields => by
    rw [usagesInFields, Value.variableUsesInFields, List.map_append, List.map_append, usagesInValue_places,
      usagesInFields_places inputs fields]

end

/-- Whatever is expected of a value, the variables in it are collected. -/
theorem usagesIn_places (expected : Option TypeRef) (hasDefault : Bool) (value : Value) :
    (usagesIn schema s expected hasDefault value).map Usage.place = placesIn s.source value := by
  rw [placesIn, Value.variableUses_eq]
  exact usagesInValue_places schema s expected hasDefault value

/-- The walk collects the variables in the arguments of a definition, and nothing else. -/
theorem usagesWithin_places : (usagesWithin schema s).map Usage.place = s.variablePlaces := by
  unfold Subject.variablePlaces usagesWithin
  rw [← arguments_visits schema s, List.map_flatMap]
  induction s.visits schema with
  | nil => rfl
  | cons v rest ih =>
    rw [List.flatMap_cons, ih]
    cases v with
    | argument site a declared =>
      rw [List.filterMap_cons_some (show Visit.argument? (.argument site a declared) = some a from rfl),
        List.flatMap_cons, usagesIn_places]
    | _ => rfl

end Collected

/-! ## What an operation answers for -/

namespace Context

/-- The definitions whose variables an operation answers for: itself and the fragments it reaches. -/
def answersFor (cx : Context) (s : Subject) (op : Operation) : List Subject :=
  s :: (cx.reachable op.body).map Prod.fst

/-- The variables that an operation answers for. -/
def occurrences (cx : Context) (s : Subject) (op : Operation) : List VariablePlace :=
  (cx.answersFor s op).flatMap Subject.variablePlaces

/-- No two variables of a source have the same span. -/
def VariablesApart (cx : Context) : Prop :=
  (cx.subjects.flatMap fun s => s.variablePlaces.map Prod.snd).Nodup

variable {cx : Context} {s t : Subject} {op : Operation}

/-- A definition is answered for if it is the operation or a fragment reached from it, the first of its name. -/
theorem mem_answersFor : t ∈ cx.answersFor s op ↔
    t = s ∨ ∃ name frag, Reaches cx.bodyOf op.body name ∧ cx.fragment? name = some (t, frag) := by
  unfold answersFor
  rw [List.mem_cons, List.mem_map]
  refine or_congr_right ?_
  constructor
  · rintro ⟨⟨t, frag⟩, hreach, rfl⟩
    obtain ⟨name, hreaches, hfound⟩ := mem_reachable.1 hreach
    exact ⟨name, frag, hreaches, hfound⟩
  · rintro ⟨name, frag, hreaches, hfound⟩
    exact ⟨(t, frag), mem_reachable.2 ⟨name, hreaches, hfound⟩, rfl⟩

theorem answersFor_subset (hop : (s, op) ∈ cx.operations) : cx.answersFor s op ⊆ cx.subjects := by
  intro t ht
  rcases mem_answersFor.1 ht with rfl | ⟨name, frag, -, hfound⟩
  · exact (mem_operations.1 hop).1
  · exact (mem_fragments.1 (mem_of_fragment? hfound)).1

/-- No definition is answered for twice. -/
theorem nodup_answersFor (hop : (s, op) ∈ cx.operations) : (cx.answersFor s op).Nodup := by
  have hfrag : ∀ x ∈ cx.reachable op.body, x.1.definition.fragment? = some x.2 := fun x hx => by
    obtain ⟨name, -, hfound⟩ := mem_reachable.1 hx
    exact (mem_fragments.1 (mem_of_fragment? hfound)).2
  refine List.nodup_cons.2 ⟨fun hmem => ?_, ?_⟩
  · -- an operation is no fragment
    obtain ⟨x, hx, rfl⟩ := List.mem_map.1 hmem
    have hsome := hfrag x hx
    have hoperation := (mem_operations.1 hop).2
    cases hd : x.1.definition with
    | operation _ =>
      rw [hd] at hsome
      cases hsome
    | fragment _ =>
      rw [hd] at hoperation
      cases hoperation
  · -- fragments that are found have different names
    refine List.Nodup.of_map (fun t => t.definition.fragment?.map fun frag => frag.name.text) ?_
    have hnames := (cx.nodup_reachable op.body).map fun _ _ h => Option.some.inj h
    rw [List.map_map] at hnames ⊢
    rwa [List.map_congr_left fun x hx => show _ = (some ∘ fun y : Subject × Fragment => y.2.name.text) x from by
      rw [Function.comp_apply, hfrag x hx]
      rfl]

/-- If the variables of a source are told apart by their spans, an operation answers for each of its variables once. -/
theorem nodup_occurrences (hapart : cx.VariablesApart) (hop : (s, op) ∈ cx.operations) :
    (cx.occurrences s op).Nodup := by
  have hall : (cx.subjects.flatMap Subject.variablePlaces).Nodup := by
    refine List.Nodup.of_map Prod.snd ?_
    rw [List.map_flatMap]
    exact hapart
  obtain ⟨part, hperm, hsub⟩ := (nodup_answersFor hop).subperm (answersFor_subset hop)
  exact (hperm.flatMap_right _).nodup_iff.1 (hall.sublist (hsub.flatMap _))

/-- The rules look at the variables that an operation answers for. -/
theorem usagesOf_places (cx : Context) (s : Subject) (op : Operation) :
    (usagesOf cx s op).map Usage.place = cx.occurrences s op := by
  unfold usagesOf occurrences answersFor
  rw [List.map_append, usagesWithin_places, List.map_flatMap, List.flatMap_cons, List.flatMap_map]
  congr 1
  exact List.flatMap_congr fun x _ => usagesWithin_places cx.schema x.1

end Context

/-! ## The rules -/

section Rules

/-- The finding for a variable that an operation does not declare. -/
def undeclaredFinding (x : Subject × Operation) (place : VariablePlace) : Finding :=
  x.1.rejectedFor (((Diagnostic.of place.2.1 .undefinedVariable place.2.2).withDetail
    ("variable `$" ++ place.1 ++ "` is not defined by " ++ describeOperation x.2)).relatedTo x.1.source x.2.headSpan
      "operation defined here")

/-- The finding for a variable that an operation declares and does not use. -/
def unusedFinding (x : Subject × Operation) (v : VariableDefinition) : Finding :=
  x.1.rejectedFor ((x.1.diagnostic .unusedVariable v.name.span).withDetail
    ("variable `$" ++ v.name.text ++ "` is never used in " ++ describeOperation x.2))

/-- What is found in the uses of an operation: variables that it does not declare. -/
def undeclaredFindings (x : Subject × Operation) (us : List Usage) : List Finding :=
  (distinctUsages [] (us.filter fun u => x.2.variableDefinitions.all fun v => v.name.text != u.name)).map fun u =>
    undeclaredFinding x u.place

/-- What is found in the uses of an operation: variables that it declares and that are not among them. -/
def unusedFindings (x : Subject × Operation) (us : List Usage) : List Finding :=
  (x.2.variableDefinitions.filter fun v => !(us.map Usage.name).contains v.name.text).map (unusedFinding x)

variable {cx : Context}

/-- Nothing is dropped from uses that stand in different places. -/
theorem distinctUsages_eq_self {done : List VariablePlace} {us : List Usage} (hnodup : (us.map Usage.place).Nodup)
    (hnew : ∀ u ∈ us, u.place ∉ done) : distinctUsages done us = us := by
  induction us generalizing done with
  | nil => rfl
  | cons u rest ih =>
    obtain ⟨hu, hrest⟩ := List.nodup_cons.1 hnodup
    refine (if_neg (hnew u List.mem_cons_self)).trans (congrArg (u :: ·) (ih hrest fun other hother => ?_))
    rw [List.mem_cons, not_or]
    refine ⟨fun he => hu ?_, hnew other (List.mem_cons_of_mem _ hother)⟩
    rw [← show other.place = u.place from he]
    exact List.mem_map_of_mem hother

/-- Each undeclared variable that an operation answers for is reported, once. -/
theorem definedVariables_eq (hapart : cx.VariablesApart) : definedVariables cx = cx.operations.flatMap fun x =>
    ((cx.occurrences x.1 x.2).filter fun place => !x.2.declares place.1).map (undeclaredFinding x) := by
  refine List.flatMap_congr fun x hx => ?_
  have hplaces := cx.usagesOf_places x.1 x.2
  have hnodup : ((usagesOf cx x.1 x.2).map Usage.place).Nodup := by
    rw [hplaces]
    exact Context.nodup_occurrences hapart hx
  change undeclaredFindings x (usagesOf cx x.1 x.2) = _
  unfold undeclaredFindings
  rw [distinctUsages_eq_self (hnodup.sublist (List.filter_sublist.map _)) fun _ _ => List.not_mem_nil, ← hplaces,
    List.filter_map, List.map_map]
  congr 1
  refine List.filter_congr fun u _ => ?_
  simp only [Function.comp_apply, Operation.declares, Usage.place, List.not_any_eq_all_not, bne]

/-- Each declaration of which an operation answers for no use is reported. -/
theorem usedVariables_eq (cx : Context) : usedVariables cx = cx.operations.flatMap fun x =>
    (x.2.variableDefinitions.filter fun v => (cx.occurrences x.1 x.2).all fun place => place.1 != v.name.text).map
      (unusedFinding x) := by
  refine List.flatMap_congr fun x _ => ?_
  change unusedFindings x (usagesOf cx x.1 x.2) = _
  unfold unusedFindings
  rw [← cx.usagesOf_places x.1 x.2]
  congr 1
  refine List.filter_congr fun v _ => ?_
  simp only [List.all_map, Function.comp_def, Usage.place, bne, List.contains_eq_any_beq, List.any_map,
    List.not_any_eq_all_not]
  exact List.all_congr rfl fun u => by rw [Bool.beq_comm]

end Rules

/-! ## The table of uses -/

/-- The uses in the definitions looked at so far, by the owner of the definition. -/
abbrev UsageTable := List (Owner × List Usage)

namespace UsageTable

/-- The uses in a definition, collected unless the table has them, and the table that has them. -/
def within (schema : Schema) (table : UsageTable) (s : Subject) : List Usage × UsageTable :=
  match table.lookup s.owner with
  | some us => (us, table)
  | none => (usagesWithin schema s, (s.owner, usagesWithin schema s) :: table)

/-- The uses in definitions, one after the other. -/
def withinAll (schema : Schema) : UsageTable → List Subject → List Usage × UsageTable
  | table, [] => ([], table)
  | table, s :: rest =>
    let first := table.within schema s
    let others := first.2.withinAll schema rest
    (first.1 ++ others.1, others.2)

/-- What is found in the uses of each of some operations, with one table for all of them. -/
def overOperations (cx : Context) (find : Subject × Operation → List Usage → List Finding) :
    UsageTable → List (Subject × Operation) → List Finding
  | _, [] => []
  | table, x :: rest =>
    let state := table.withinAll cx.schema (cx.answersFor x.1 x.2)
    find x state.1 ++ overOperations cx find state.2 rest

/-- What the table has for the definitions of a context are their uses. -/
def Sound (cx : Context) (table : UsageTable) : Prop :=
  ∀ s ∈ cx.subjects, ∀ us, table.lookup s.owner = some us → us = usagesWithin cx.schema s

namespace Sound

variable {cx : Context} {table : UsageTable}

theorem nil (cx : Context) : Sound cx [] := fun _ _ _ h => nomatch h

section Owners

variable (howners : ∀ s ∈ cx.subjects, ∀ t ∈ cx.subjects, s.owner = t.owner → s = t)

include howners

theorem within (h : table.Sound cx) {s : Subject} (hs : s ∈ cx.subjects) :
    (table.within cx.schema s).1 = usagesWithin cx.schema s ∧ (table.within cx.schema s).2.Sound cx := by
  unfold UsageTable.within
  split
  · rename_i us hfound
    exact ⟨h s hs us hfound, h⟩
  · refine ⟨rfl, fun t ht us hfound => ?_⟩
    by_cases he : t.owner = s.owner
    · obtain rfl := howners t ht s hs he
      rw [List.lookup_cons_self] at hfound
      exact (Option.some.inj hfound).symm
    · rw [List.lookup_cons, beq_eq_false_iff_ne.2 he] at hfound
      exact h t ht us hfound

theorem withinAll (h : table.Sound cx) {subjects : List Subject} (hsub : subjects ⊆ cx.subjects) :
    (table.withinAll cx.schema subjects).1 = subjects.flatMap (usagesWithin cx.schema) ∧
      (table.withinAll cx.schema subjects).2.Sound cx := by
  induction subjects generalizing table with
  | nil => exact ⟨rfl, h⟩
  | cons s rest ih =>
    obtain ⟨hs, hrest⟩ := List.cons_subset.1 hsub
    obtain ⟨hfirst, hkept⟩ := h.within howners hs
    obtain ⟨hothers, hend⟩ := ih hkept hrest
    exact ⟨by rw [UsageTable.withinAll, hfirst, hothers, List.flatMap_cons], hend⟩

/-- Looking uses up does not change what is found in them. -/
theorem overOperations_eq (h : table.Sound cx) (find : Subject × Operation → List Usage → List Finding)
    {ops : List (Subject × Operation)} (hsub : ops ⊆ cx.operations) :
    overOperations cx find table ops = ops.flatMap fun x => find x (usagesOf cx x.1 x.2) := by
  induction ops generalizing table with
  | nil => rfl
  | cons x rest ih =>
    obtain ⟨hx, hrest⟩ := List.cons_subset.1 hsub
    obtain ⟨huses, hkept⟩ := h.withinAll howners (Context.answersFor_subset hx)
    have hall : (cx.answersFor x.1 x.2).flatMap (usagesWithin cx.schema) = usagesOf cx x.1 x.2 := by
      unfold Context.answersFor usagesOf
      rw [List.flatMap_cons, List.flatMap_map]
    rw [overOperations, huses, hall, ih hkept hrest, List.flatMap_cons]

end Owners

end Sound

end UsageTable

/-- The rules on variables find what the text of the operations asks for. An operation answers for itself and for the
fragments it reaches. For each variable in an argument of these that it does not declare there is one finding, which
rejects the operation alone; and there is one for each variable that it declares and that is in no argument of these.
A table of the uses in each definition changes neither. -/
theorem variables_exact (schema : Schema) (ops : List (Nat × Operation)) (frags : List (Nat × Fragment))
    (hapart : (Context.of schema ops frags).VariablesApart) :
    let cx := Context.of schema ops frags
    (∀ x ∈ cx.operations, (cx.occurrences x.1 x.2).Nodup ∧ ∀ place, place ∈ cx.occurrences x.1 x.2 ↔
      ∃ t, (t = x.1 ∨ ∃ name frag, Reaches cx.bodyOf x.2.body name ∧ cx.fragment? name = some (t, frag)) ∧
        ∃ a ∈ t.definition.arguments, ∃ use ∈ a.value.variableUses, place = (use.1, t.source, use.2)) ∧
    definedVariables cx = cx.operations.flatMap (fun x =>
      ((cx.occurrences x.1 x.2).filter fun place => !x.2.declares place.1).map (undeclaredFinding x)) ∧
    usedVariables cx = cx.operations.flatMap (fun x =>
      (x.2.variableDefinitions.filter fun v => (cx.occurrences x.1 x.2).all fun place => place.1 != v.name.text).map
        (unusedFinding x)) ∧
    UsageTable.overOperations cx undeclaredFindings [] cx.operations = definedVariables cx ∧
    UsageTable.overOperations cx unusedFindings [] cx.operations = usedVariables cx := by
  intro cx
  have howners : ∀ s ∈ cx.subjects, ∀ t ∈ cx.subjects, s.owner = t.owner → s = t :=
    fun s hs t ht he => Context.eq_of_owner hs ht he
  refine ⟨fun x hx => ⟨Context.nodup_occurrences hapart hx, fun place => ?_⟩, definedVariables_eq hapart,
    usedVariables_eq cx, ?_, ?_⟩
  · unfold Context.occurrences
    rw [List.mem_flatMap]
    refine exists_congr fun t => and_congr Context.mem_answersFor ?_
    simp only [Subject.variablePlaces, placesIn, List.mem_flatMap, List.mem_map, eq_comm]
  · exact (UsageTable.Sound.nil cx).overOperations_eq howners undeclaredFindings (List.Subset.refl _)
  · exact (UsageTable.Sound.nil cx).overOperations_eq howners unusedFindings (List.Subset.refl _)

/-- An operation, a fragment that spreads itself, and another fragment of its name. -/
def sharingContext : Context :=
  .ofDocument default 0 ((Document.ofText ("query Q($a: Int, $z: Int) \x7b f(x: $b) ...F \x7d " ++
    "fragment F on Query \x7b f(y: [$a, \x7bk: $c\x7d]) @d(z: $b) ...F \x7d " ++
    "fragment F on Query \x7b f(x: $e) \x7d")).toOption.getD ⟨[]⟩)

/-- Each undeclared variable of the operation and of the first fragment is reported, those of the second are not. -/
theorem variables_exact_sample : sharingContext.VariablesApart ∧
    definedVariables sharingContext = sharingContext.operations.flatMap (fun x =>
      [("b", 0, ⟨33, 35⟩), ("c", 0, ⟨80, 82⟩), ("b", 0, ⟨92, 94⟩)].map (undeclaredFinding x)) := by
  have hchecks : (sharingContext.subjects.flatMap fun s => s.variablePlaces.map Prod.snd).Nodup ∧
      ∀ x ∈ sharingContext.operations,
        ((sharingContext.occurrences x.1 x.2).filter fun place => !x.2.declares place.1) =
          [("b", 0, ⟨33, 35⟩), ("c", 0, ⟨80, 82⟩), ("b", 0, ⟨92, 94⟩)] := by
    decide +kernel
  obtain ⟨hapart, hplaces⟩ := hchecks
  obtain ⟨-, hdefined, -⟩ := variables_exact _ _ _ hapart
  refine ⟨hapart, hdefined.trans (List.flatMap_congr fun x hx => ?_)⟩
  exact congrArg _ (hplaces x hx)

end Rules

end QueryBatch
