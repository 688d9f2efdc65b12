import Mathlib.Data.List.Induction
import QueryBatch.Proofs.Schema.Declarations

/-!
# Sequences of additions to a builder

Roots, types and directives are added to a new builder in any order, and an addition that is refused leaves the builder
as it was. What is declared in the end is told by the sequence alone.

* `Addition`: something to add. `Builder.attemptAll`: the builder after a sequence, refusals passed over.
* `Builder.successes`: the additions that are not refused. `Builder.foldlM_successes`: they alone make the same builder.
* `declarationsOf`: what a sequence declares. The first type of a name counts, built-in scalars in front; the last
  directive of a name counts, built-in ones at the end; the root that is set last counts.
* `Builder.declarations_attemptAll`: this is what the builder has.
* `Builder.build_attemptAll`: the schema that a sequence leads to.
-/

namespace QueryBatch

/-! ## Additions -/

/-- Something to add to a builder. -/
inductive Addition where
  | root (kind : OperationKind) (name : String)
  | type (type : TypeDef)
  | directive (directive : DirectiveDef)

namespace Addition

/-- The name that is set for the root of an operation. -/
def root? (kind : OperationKind) : Addition → Option String
  | root kind' name => if kind' = kind then some name else none
  | _ => none

def type? : Addition → Option TypeDef
  | type t => some t
  | _ => none

def directive? : Addition → Option DirectiveDef
  | directive d => some d
  | _ => none

end Addition

/-- The types that every schema has. -/
def builtinTypes : List TypeDef := builtinScalars.map .scalar

/-- The first type of a name, among those that every schema has and those of a sequence. -/
def declaredType? (xs : List Addition) (name : String) : Option TypeDef :=
  (builtinTypes ++ xs.filterMap Addition.type?).find? fun t => t.name == name

/-- The last directive of a name in a sequence, or else the one that every schema has. -/
def declaredDirective? (xs : List Addition) (name : String) : Option DirectiveDef :=
  ((xs.filterMap Addition.directive?).reverse ++ builtinDirectives).find? fun d => d.name == name

/-- The root that is set last in a sequence, or else the usual one if there is a type of its name. -/
def declaredRootName? (xs : List Addition) (kind : OperationKind) : Option String :=
  (xs.filterMap (Addition.root? kind)).getLast?.or
    (if (declaredType? xs kind.usualRoot).isSome then some kind.usualRoot else none)

/-- What a sequence of additions to a new builder declares. -/
def declarationsOf (xs : List Addition) : Declarations :=
  ⟨declaredType? xs, declaredDirective? xs, declaredRootName? xs⟩

namespace Builder

/-- The builder with an addition, unless it is refused. -/
def add (b : Builder) : Addition → Except SchemaFault Builder
  | .root kind name => .ok (b.setRoot kind name)
  | .type t => b.addType t
  | .directive d => .ok (b.addDirective d)

/-- The builder after an addition that may be refused. -/
def attempt (b : Builder) (x : Addition) : Builder := (b.add x).toOption.getD b

def attemptAll (b : Builder) (xs : List Addition) : Builder := xs.foldl attempt b

/-- The additions that are not refused when all are made one after the other. -/
def successes (b : Builder) : List Addition → List Addition
  | [] => []
  | x :: rest =>
    match b.add x with
    | .ok b' => x :: b'.successes rest
    | .error _ => b.successes rest

/-! ## Additions that succeed -/

variable {b b' : Builder} {x : Addition} {xs : List Addition}

theorem attempt_of_ok (h : b.add x = .ok b') : b.attempt x = b' := by
  rw [attempt, h]
  rfl

theorem attempt_of_error {fault : SchemaFault} (h : b.add x = .error fault) : b.attempt x = b := by
  rw [attempt, h]
  rfl

/-- The additions that succeed do so without the others, and make the same builder. -/
theorem foldlM_successes (b : Builder) (xs : List Addition) :
    (b.successes xs).foldlM add b = .ok (b.attemptAll xs) := by
  induction xs generalizing b with
  | nil => rfl
  | cons x rest ih =>
    rw [successes, attemptAll, List.foldl_cons]
    cases hadd : b.add x with
    | ok b' =>
      dsimp only
      rw [List.foldlM_cons, hadd, attempt_of_ok hadd]
      exact ih b'
    | error fault =>
      rw [attempt_of_error hadd]
      exact ih b

theorem attemptAll_concat (b : Builder) (xs : List Addition) (x : Addition) :
    b.attemptAll (xs ++ [x]) = (b.attemptAll xs).attempt x := List.foldl_append

theorem Made.attempt (h : b.Made) (x : Addition) : (b.attempt x).Made := by
  cases hadd : b.add x with
  | error fault => exact (attempt_of_error hadd).symm ▸ h
  | ok b' =>
    rw [attempt_of_ok hadd]
    cases x with
    | root kind name =>
      cases hadd
      exact .root kind name h
    | type t => exact .type h hadd
    | directive d =>
      cases hadd
      exact .directive d h

/-- The builders that adding parts leads to are those that sequences of additions lead to. -/
theorem made_iff : b.Made ↔ ∃ xs, b = ({} : Builder).attemptAll xs := by
  have hnext : ∀ {b b' : Builder} (x : Addition), b.add x = .ok b' → (∃ xs, b = ({} : Builder).attemptAll xs) →
      ∃ xs, b' = ({} : Builder).attemptAll xs := by
    rintro b b' x hadd ⟨xs, rfl⟩
    exact ⟨xs ++ [x], by rw [attemptAll_concat, attempt_of_ok hadd]⟩
  constructor
  · intro h
    induction h with
    | start => exact ⟨[], rfl⟩
    | root kind name _ ih => exact hnext (.root kind name) rfl ih
    | type _ hadd ih => exact hnext (.type _) hadd ih
    | directive d _ ih => exact hnext (.directive d) rfl ih
  · rintro ⟨xs, rfl⟩
    induction xs using List.reverseRecOn with
    | nil => exact .start
    | append_singleton xs x ih => exact attemptAll_concat .. ▸ ih.attempt x

/-! ## What is declared -/

/-- A type is added unless its name stands for one. -/
theorem attempt_type (b : Builder) (t : TypeDef) :
    b.attempt (.type t) = { b with types := b.types.insertNew t.name t } := by
  unfold OrderedMap.insertNew
  cases hfind : b.types.find? t.name with
  | none =>
    rw [if_neg (OrderedMap.findIn_eq_none_iff.1 hfind)]
    refine attempt_of_ok ?_
    rw [add, addType, hfind]
  | some old =>
    have hknown : t.name ∈ b.types.entries.map Prod.fst :=
      OrderedMap.contains_iff.1 (OrderedMap.find?_isSome_iff.1 (hfind ▸ Option.isSome_some))
    rw [if_pos hknown, attempt, add, addType, hfind]
    dsimp only
    split <;> rfl

theorem find?_attempt (b : Builder) (x : Addition) (name : String) : (b.attempt x).types.find? name =
    (b.types.find? name).or (x.type?.toList.find? fun t => t.name == name) := by
  cases x with
  | root kind root => cases kind <;> exact Option.or_none.symm
  | type t =>
    rw [attempt_type, OrderedMap.find?_insertNew, Addition.type?, Option.toList_some, List.find?_singleton]
    simp only [beq_iff_eq]
  | directive d => exact Option.or_none.symm

theorem find?_directives_attempt (b : Builder) (x : Addition) (name : String) :
    (b.attempt x).directives.find? name =
      (x.directive?.toList.find? fun d => d.name == name).or (b.directives.find? name) := by
  cases x with
  | root kind root => cases kind <;> rfl
  | type t =>
    rw [attempt_type]
    rfl
  | directive d =>
    rw [Addition.directive?, Option.toList_some, List.find?_singleton]
    refine (OrderedMap.find?_insert b.directives d.name d name).trans ?_
    simp only [beq_iff_eq]
    split <;> rfl

theorem setRoot?_attempt (b : Builder) (x : Addition) (kind : OperationKind) :
    (b.attempt x).setRoot? kind = (x.root? kind).or (b.setRoot? kind) := by
  cases x with
  | root kind' name => cases kind' <;> cases kind <;> rfl
  | type t =>
    rw [attempt_type]
    cases kind <;> rfl
  | directive d => cases kind <;> rfl

theorem findIn_start {β : Type} (nameOf : β → String) (values : List β) (name : String) :
    OrderedMap.findIn name (values.map fun v => (nameOf v, v)) = values.find? fun v => nameOf v == name := by
  induction values with
  | nil => rfl
  | cons v rest ih =>
    rw [List.map_cons, OrderedMap.findIn, List.find?_cons, ih]
    by_cases h : nameOf v = name
    · rw [if_pos h, beq_iff_eq.2 h]
    · rw [if_neg h, beq_eq_false_iff_ne.2 h]

theorem filterMap_concat {α β : Type} (f : α → Option β) (as : List α) (a : α) :
    (as ++ [a]).filterMap f = as.filterMap f ++ (f a).toList := by
  rw [List.filterMap_append, List.filterMap_cons, List.filterMap_nil]
  cases f a <;> rfl

theorem declaredType?_concat (xs : List Addition) (x : Addition) (name : String) :
    declaredType? (xs ++ [x]) name =
      (declaredType? xs name).or (x.type?.toList.find? fun t => t.name == name) := by
  rw [declaredType?, filterMap_concat, ← List.append_assoc]
  exact List.find?_append

/-- Of the types of a name, the first one counts. -/
theorem find?_attemptAll (xs : List Addition) (name : String) :
    (({} : Builder).attemptAll xs).types.find? name = declaredType? xs name := by
  induction xs using List.reverseRecOn with
  | nil =>
    rw [declaredType?, List.filterMap_nil, List.append_nil]
    exact findIn_start TypeDef.name builtinTypes name
  | append_singleton xs x ih => rw [attemptAll_concat, find?_attempt, ih, declaredType?_concat]

/-- Of the directives of a name, the last one counts. -/
theorem find?_directives_attemptAll (xs : List Addition) (name : String) :
    (({} : Builder).attemptAll xs).directives.find? name = declaredDirective? xs name := by
  unfold declaredDirective?
  induction xs using List.reverseRecOn with
  | nil => exact findIn_start DirectiveDef.name builtinDirectives name
  | append_singleton xs x ih =>
    have hlast : x.directive?.toList.reverse = x.directive?.toList := by
      cases x.directive? <;> rfl
    rw [attemptAll_concat, find?_directives_attempt, ih, filterMap_concat, List.reverse_append, hlast,
      List.append_assoc]
    exact List.find?_append.symm

theorem setRoot?_attemptAll (xs : List Addition) (kind : OperationKind) :
    (({} : Builder).attemptAll xs).setRoot? kind = (xs.filterMap (Addition.root? kind)).getLast? := by
  induction xs using List.reverseRecOn with
  | nil => cases kind <;> rfl
  | append_singleton xs x ih =>
    rw [attemptAll_concat, setRoot?_attempt, ih, filterMap_concat, List.getLast?_append]
    cases x.root? kind <;> rfl

/-- A sequence of additions leads to a builder with what it declares. -/
theorem declarations_attemptAll (xs : List Addition) :
    (({} : Builder).attemptAll xs).declarations = declarationsOf xs := by
  refine Declarations.ext (funext fun name => find?_attemptAll xs name)
    (funext fun name => find?_directives_attemptAll xs name) (funext fun kind => ?_)
  have husual : (({} : Builder).attemptAll xs).types.contains kind.usualRoot =
      (declaredType? xs kind.usualRoot).isSome := by
    rw [Bool.eq_iff_iff, ← OrderedMap.find?_isSome_iff, find?_attemptAll]
  simp only [declarations, declarationsOf, declaredRootName?, rootOr, setRoot?_attemptAll, husual]

/-! ## Types whose addition succeeds -/

theorem successes_concat (b : Builder) (xs : List Addition) (x : Addition) :
    b.successes (xs ++ [x]) = b.successes xs ++ if ((b.attemptAll xs).add x).isOk then [x] else [] := by
  induction xs generalizing b with
  | nil =>
    rw [attemptAll, List.foldl_nil]
    cases hadd : b.add x <;> simp only [List.nil_append, successes, hadd] <;> rfl
  | cons y rest ih =>
    rw [List.cons_append, successes, successes, attemptAll, List.foldl_cons]
    cases hadd : b.add y with
    | ok b' =>
      rw [attempt_of_ok hadd]
      exact congrArg (y :: ·) (ih b')
    | error fault =>
      rw [attempt_of_error hadd]
      exact ih b

/-- The name of a built-in scalar stands for it, whatever is added. -/
theorem declaredType?_builtin {name : String} (h : name ∈ builtinScalars) (xs : List Addition) :
    declaredType? xs name = some (.scalar name) := by
  have hfirst : (builtinTypes.find? fun t => t.name == name) = some (.scalar name) := by
    simp only [builtinScalars, List.mem_cons, List.not_mem_nil, or_false] at h
    rcases h with rfl | rfl | rfl | rfl | rfl <;> rfl
  rw [declaredType?, List.find?_append, hfirst, Option.some_or]

/-- A type can be added just if its name is new, or if it is a built-in scalar. -/
theorem isOk_add_type {xs : List Addition} {t : TypeDef} :
    ((({} : Builder).attemptAll xs).add (.type t)).isOk = true ↔
      declaredType? xs t.name = none ∨ t ∈ builtinTypes := by
  rw [add, addType, find?_attemptAll]
  cases hfind : declaredType? xs t.name with
  | none => exact iff_of_true rfl (.inl rfl)
  | some old =>
    have hagain : isScalarAgain old t = true ↔ t ∈ builtinTypes := by
      simp only [isScalarAgain, builtinTypes, Bool.and_eq_true, List.contains_iff_mem, beq_iff_eq, List.mem_map]
      constructor
      · rintro ⟨⟨hname, -⟩, hkind⟩
        cases t with
        | scalar name => exact ⟨name, hname, rfl⟩
        | _ => cases hkind
      · rintro ⟨name, hname, rfl⟩
        obtain rfl := Option.some.inj (hfind.symm.trans (declaredType?_builtin hname xs))
        exact ⟨⟨hname, rfl⟩, rfl⟩
    rw [← hagain]
    dsimp only
    split
    · rename_i h
      exact iff_of_true rfl (.inr h)
    · rename_i h
      exact iff_of_false Bool.false_ne_true fun hor => hor.elim (Option.some_ne_none old) h

/-- The types that are declared are the built-in scalars and those whose addition succeeds. -/
theorem declaredType?_iff (xs : List Addition) (t : TypeDef) :
    declaredType? xs t.name = some t ↔ t ∈ builtinTypes ∨ .type t ∈ ({} : Builder).successes xs := by
  have hbuiltin : t ∈ builtinTypes → ∀ xs, declaredType? xs t.name = some t := by
    intro ht xs
    obtain ⟨name, hname, rfl⟩ := List.mem_map.1 ht
    exact declaredType?_builtin hname xs
  induction xs using List.reverseRecOn with
  | nil =>
    exact ⟨fun h => .inl (List.mem_of_find?_eq_some h), fun h => hbuiltin (h.resolve_right List.not_mem_nil) []⟩
  | append_singleton xs x ih =>
    rw [successes_concat, List.mem_append, ← or_assoc, declaredType?_concat]
    refine Iff.trans ?_ (or_congr_left ih)
    constructor
    · intro h
      rcases Option.or_eq_some_iff.1 h with hknown | ⟨hnew, hlast⟩
      · exact .inl hknown
      · cases x with
        | type t' =>
          obtain rfl := List.mem_singleton.1 (List.mem_of_find?_eq_some hlast)
          rw [if_pos (isOk_add_type.2 (.inl hnew))]
          exact .inr (List.mem_singleton_self _)
        | _ => cases hlast
    · rintro (hknown | hlast)
      · rw [hknown, Option.some_or]
      · split at hlast
        · rename_i hok
          obtain rfl := List.mem_singleton.1 hlast
          rcases isOk_add_type.1 hok with hnew | ht
          · rw [hnew, Option.none_or]
            exact (List.find?_singleton ..).trans (if_pos (beq_self_eq_true _))
          · rw [hbuiltin ht xs, Option.some_or]
        · exact absurd hlast List.not_mem_nil

/-! ## The schema of a sequence -/

/-- A sequence of additions to a new builder, in which any may be refused, leads to a schema just if what it declares is
closed: every root is an object type, every listed interface an interface type, and every other reference names a type
that is built in or whose addition succeeded. The additions that succeed alone lead to the same builder, none of them
refused, and the schema has what the sequence declares. -/
theorem build_attemptAll (xs : List Addition) :
    ((∃ schema, (({} : Builder).attemptAll xs).build = .ok schema) ↔ (declarationsOf xs).Closed) ∧
    (∀ t, declaredType? xs t.name = some t ↔ t ∈ builtinTypes ∨ .type t ∈ ({} : Builder).successes xs) ∧
    (({} : Builder).successes xs).foldlM add {} = .ok (({} : Builder).attemptAll xs) ∧
    ∀ schema, (({} : Builder).attemptAll xs).build = .ok schema → schema.declarations = declarationsOf xs := by
  refine ⟨?_, declaredType?_iff xs, foldlM_successes {} xs, fun schema h => ?_⟩
  · rw [exists_build_iff, declarations_attemptAll]
  · obtain ⟨-, rfl⟩ := build_eq_ok_iff.1 h
    rw [declarations_assembled, declarations_attemptAll]

/-- Additions of which two are refused, with a directive that is replaced and a root that is set again. -/
def sampleAdditions : List Addition :=
  [.type (.object "Query" (.ofList
      [("a", ⟨"a", .ofList [⟨"n", .named "ID", none⟩], .list (.named "Node")⟩)]) ["Node"]),
    .type (.union "Query" ["Missing"]), .type (.scalar "ID"), .type (.enum "ID" []),
    .directive ⟨"tag", .ofList [⟨"n", .named "Missing", none⟩], [.field], false⟩,
    .directive ⟨"tag", .ofList [⟨"n", .named "ID", none⟩], [.field], true⟩,
    .root .mutation "Missing", .root .mutation "Query", .type (.interface "Node" .empty [])]

theorem build_attemptAll_sample : (({} : Builder).successes sampleAdditions).length = 7 ∧
    ∃ schema, (({} : Builder).attemptAll sampleAdditions).build = .ok schema ∧
      schema.declarations = declarationsOf sampleAdditions := by
  have hok : (({} : Builder).attemptAll sampleAdditions).build.toOption.isSome = true := by decide +kernel
  obtain ⟨schema, hschema⟩ := Option.isSome_iff_exists.1 hok
  have hbuild := eq_ok_of_toOption hschema
  exact ⟨by decide +kernel, schema, hbuild, (build_attemptAll sampleAdditions).2.2.2 schema hbuild⟩

end Builder

end QueryBatch
