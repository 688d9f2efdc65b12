import QueryBatch.Proofs.Schema.Notation
import QueryBatch.Proofs.TypeRef

/-!
# Adding the definitions of a schema

Definitions are added to the parts of a schema one by one, in the order of the text. A description adds its roots, then
its types, then its directives. Both come to the same, since the three kinds do not touch each other.

* `SchemaEntry.add`: what one definition adds.
* `Builder.LeavesTypes`: a change that has nothing to do with the types. It may be made before or after types are added.
* `Builder.foldlM_add`: definitions may be added kind by kind.
* `SchemaDescription.Comprises.foldlM_add_build`: the schema of the definitions is the schema of the description.
-/

namespace QueryBatch

/-! ## One definition -/

/-- Sets root types from left to right. -/
def Builder.setRoots (b : Builder) (roots : List (OperationKind × String)) : Builder :=
  roots.foldl (fun b root => b.setRoot root.1 root.2) b

namespace SchemaEntry

/-- The parts with one more definition. -/
def add (b : Builder) : SchemaEntry → Except SchemaFault Builder
  | roots listed => .ok (b.setRoots listed)
  | type t => do b.addType (← t.resolve)
  | directive d => do return b.addDirective (← d.resolve)

def WellFormed (n : Nat) : SchemaEntry → Prop
  | roots _ => True
  | type t => t.WellFormed n
  | directive d => d.WellFormed n

end SchemaEntry

/-! ## Changes apart from the types -/

namespace Builder

/-- A change of the parts of a schema that neither reads nor writes the types. -/
structure LeavesTypes (g : Builder → Builder) : Prop where
  types : ∀ b, (g b).types = b.types
  withTypes : ∀ b types, { g b with types } = g { b with types }

theorem leavesTypes_setRoot (kind : OperationKind) (name : String) : LeavesTypes (·.setRoot kind name) :=
  ⟨fun _ => by cases kind <;> rfl, fun _ _ => by cases kind <;> rfl⟩

theorem leavesTypes_setRoots (roots : List (OperationKind × String)) : LeavesTypes (·.setRoots roots) := by
  induction roots with
  | nil => exact ⟨fun _ => rfl, fun _ _ => rfl⟩
  | cons root roots ih =>
    have hroot := leavesTypes_setRoot root.1 root.2
    exact ⟨fun b => (ih.types _).trans (hroot.types b),
      fun b types => (ih.withTypes _ types).trans (congrArg (·.setRoots roots) (hroot.withTypes b types))⟩

theorem leavesTypes_addDirective (x : DirectiveDef) : LeavesTypes (·.addDirective x) :=
  ⟨fun _ => rfl, fun _ _ => rfl⟩

theorem addDirective_setRoots (roots : List (OperationKind × String)) (b : Builder) (x : DirectiveDef) :
    (b.setRoots roots).addDirective x = (b.addDirective x).setRoots roots := by
  induction roots generalizing b with
  | nil => rfl
  | cons root roots ih =>
    have hroot : (b.setRoot root.1 root.2).addDirective x = (b.addDirective x).setRoot root.1 root.2 := by
      cases root.1 <;> rfl
    exact (ih _).trans (congrArg (·.setRoots roots) hroot)

variable {g : Builder → Builder}

theorem LeavesTypes.addType (h : LeavesTypes g) (b : Builder) (t : TypeDef) :
    (g b).addType t = (b.addType t).map g := by
  unfold Builder.addType
  rw [h.types]
  cases b.types.find? t.name with
  | none => exact congrArg Except.ok (h.withTypes b _)
  | some old =>
    dsimp only
    split <;> rfl

theorem addTypes_cons (b : Builder) (t : TypeDescription) (ts : List TypeDescription) :
    b.addTypes (t :: ts) = (t.resolve.bind b.addType).bind fun b' => b'.addTypes ts := List.foldlM_cons

theorem addDirectives_cons (b : Builder) (x : DirectiveDescription) (xs : List DirectiveDescription) :
    b.addDirectives (x :: xs) = (x.resolve.map b.addDirective).bind fun b' => b'.addDirectives xs := by
  unfold addDirectives
  rw [List.foldlM_cons]
  cases x.resolve <;> rfl

theorem LeavesTypes.addTypes (h : LeavesTypes g) (b : Builder) (ts : List TypeDescription) :
    (g b).addTypes ts = (b.addTypes ts).map g := by
  induction ts generalizing b with
  | nil => rfl
  | cons t ts ih =>
    rw [addTypes_cons, addTypes_cons]
    cases t.resolve with
    | error fault => rfl
    | ok made =>
      simp only [Except.bind, h.addType]
      cases b.addType made with
      | error fault => rfl
      | ok b' => exact ih b'

/-! ## Definitions of several kinds -/

/-- Roots, types and directives may be added kind by kind if the directives name types that can be read. -/
theorem foldlM_add {entries : List SchemaEntry}
    (h : ∀ x ∈ entries.filterMap SchemaEntry.directive?, ∃ made, x.resolve = .ok made) (b : Builder) :
    entries.foldlM SchemaEntry.add b =
      ((b.setRoots (entries.flatMap SchemaEntry.rootList)).addTypes (entries.filterMap SchemaEntry.type?)).bind
        fun b' => b'.addDirectives (entries.filterMap SchemaEntry.directive?) := by
  induction entries generalizing b with
  | nil => rfl
  | cons entry entries ih =>
    rw [List.foldlM_cons]
    cases entry with
    | roots listed =>
      have hroots : b.setRoots ((SchemaEntry.roots listed :: entries).flatMap SchemaEntry.rootList) =
          (b.setRoots listed).setRoots (entries.flatMap SchemaEntry.rootList) := by
        rw [List.flatMap_cons]
        exact List.foldl_append
      rw [hroots]
      exact ih h (b.setRoots listed)
    | type t =>
      change (t.resolve.bind b.addType).bind (fun b' => entries.foldlM SchemaEntry.add b') =
        ((b.setRoots (entries.flatMap SchemaEntry.rootList)).addTypes
          (t :: entries.filterMap SchemaEntry.type?)).bind _
      rw [addTypes_cons]
      cases t.resolve with
      | error fault => rfl
      | ok made =>
        simp only [Except.bind, (leavesTypes_setRoots _).addType]
        cases b.addType made with
        | error fault => rfl
        | ok b' => exact ih h b'
    | directive x =>
      obtain ⟨made, hx⟩ := h x List.mem_cons_self
      have hothers := ih (fun y hy => h y (List.mem_cons_of_mem _ hy)) (b.addDirective made)
      change (x.resolve.map b.addDirective).bind (fun b' => entries.foldlM SchemaEntry.add b') =
        ((b.setRoots (entries.flatMap SchemaEntry.rootList)).addTypes (entries.filterMap SchemaEntry.type?)).bind
          fun b' => b'.addDirectives (x :: entries.filterMap SchemaEntry.directive?)
      rw [← addDirective_setRoots, (leavesTypes_addDirective made).addTypes] at hothers
      rw [hx]
      refine hothers.trans ?_
      cases (b.setRoots (entries.flatMap SchemaEntry.rootList)).addTypes (entries.filterMap SchemaEntry.type?) with
      | error fault => rfl
      | ok b' =>
        simp only [Except.map, Except.bind, addDirectives_cons, hx]

end Builder

/-! ## Descriptions -/

section WellFormed

variable {n : Nat}

theorem IsTypeText.parse {text : String} (h : IsTypeText n text) : ∃ t, TypeRef.parse text = .ok t := by
  obtain ⟨t, ht, -, rfl⟩ := h
  exact ⟨t, by rw [TypeRef.parse, ht.ofText?_text]⟩

theorem DirectiveDescription.WellFormed.resolve {d : DirectiveDescription} (h : d.WellFormed n) :
    ∃ made, d.resolve = .ok made := by
  have hinputs : ∀ inputs : List InputDescription, (∀ i ∈ inputs, i.WellFormed n) →
      ∃ made, inputs.mapM InputDescription.resolve = .ok made := by
    intro inputs hinputs
    induction inputs with
    | nil => exact ⟨[], rfl⟩
    | cons i inputs ih =>
      obtain ⟨t, ht⟩ := (hinputs i List.mem_cons_self).type.parse
      obtain ⟨made, hmade⟩ := ih fun j hj => hinputs j (List.mem_cons_of_mem _ hj)
      exact ⟨_, by rw [List.mapM_cons, InputDescription.resolve, ht, hmade]; rfl⟩
  obtain ⟨made, hmade⟩ := hinputs d.arguments h.arguments
  exact ⟨_, by rw [DirectiveDescription.resolve, resolveInputs, hmade]; rfl⟩

end WellFormed

namespace SchemaDescription

variable {n : Nat} {d : SchemaDescription} {entries : List SchemaEntry}

theorem WellFormed.entry (h : d.WellFormed n) (hd : d.Comprises entries) {entry : SchemaEntry}
    (hentry : entry ∈ entries) : entry.WellFormed n := by
  cases entry with
  | roots listed => trivial
  | type t => exact h.types t (hd.types ▸ List.mem_filterMap.2 ⟨_, hentry, rfl⟩)
  | directive x => exact h.directives x (hd.directives ▸ List.mem_filterMap.2 ⟨_, hentry, rfl⟩)

theorem setRoots_roots (d : SchemaDescription) : ({} : Builder).setRoots d.roots =
    { queryType := d.queryType, mutationType := d.mutationType, subscriptionType := d.subscriptionType } := by
  unfold roots
  cases d.queryType <;> cases d.mutationType <;> cases d.subscriptionType <;> rfl

/-- The schema of the definitions that make up a description is the schema of the description. -/
theorem Comprises.foldlM_add_build (hd : d.Comprises entries) (h : d.WellFormed n) :
    (entries.foldlM SchemaEntry.add {}).bind Builder.build = d.build := by
  have hdirectives : ∀ x ∈ entries.filterMap SchemaEntry.directive?, ∃ made, x.resolve = .ok made :=
    fun x hx => (h.directives x (hd.directives ▸ hx)).resolve
  rw [Builder.foldlM_add hdirectives, hd.roots, hd.types, hd.directives, setRoots_roots, SchemaDescription.build]
  cases Builder.addTypes _ d.types <;> rfl

end SchemaDescription

end QueryBatch
