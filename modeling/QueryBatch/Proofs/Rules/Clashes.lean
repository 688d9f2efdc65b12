import QueryBatch.Proofs.Rules.Grounded
import QueryBatch.Proofs.Rules.Mergeable

/-!
# Fields that clash

Whatever the rule on fields that share a response key reports, two fields of the full expansion do not merge.

* `Clashes`: two fields that do not merge by themselves. `clashes_iff`: they are not `Mergeable`.
* `Context.Below`: two fields at a response path that goes on from the one of two others.
* `exists_clash`: below two fields that a comparison refuses, or there, two fields clash.
* `overlappingFields_eq_nil_of_mergeable`: so the rule finds nothing where all fields of one response path merge.
* `conflicts_clash`: what a reported conflict relates.
-/

namespace QueryBatch.Rules

/-! ## Fields that do not merge by themselves -/

theorem Compatible.typesConflict_eq_false {schema : Schema} {a b : TypeRef} (h : Compatible schema a b) :
    typesConflict schema a b = false := by
  induction h with
  | same name => simp [typesConflict]
  | composite ha hb => simp [typesConflict, typesConflict.isLeaf, ha, hb]
  | list _ ih => exact ih
  | nonNull _ ih => exact ih

/-- Arguments that give the same in another order are the same. -/
theorem sameArguments_of_perm {as bs : List Argument} (h : (as.map Given).Perm (bs.map Given)) :
    sameArguments as bs = true := by
  have hlength := h.length_eq
  rw [List.length_map, List.length_map] at hlength
  unfold sameArguments
  rw [Bool.and_eq_true, beq_iff_eq, List.all_eq_true]
  refine ⟨hlength, fun a ha => List.any_eq_true.2 ?_⟩
  obtain ⟨b, hb, hsame⟩ := List.mem_map.1 (h.mem_iff.1 (List.mem_map_of_mem ha))
  obtain ⟨hname, hvalue⟩ := Prod.mk.inj hsame
  exact ⟨b, hb, by rw [Bool.and_eq_true, beq_iff_eq, beq_iff_eq]; exact ⟨hname, hvalue⟩⟩

/-- Two fields do not merge: no value is of both their types, or they are not the same field with the same arguments,
although it is not `exclusive` which of them is asked. -/
inductive Clashes (schema : Schema) (exclusive : Bool) (p q : Placed) : Prop
  | types {x y : FieldDef} : p.declared = some x → q.declared = some y → ¬ Compatible schema x.type y.type →
      Clashes schema exclusive p q
  | name : exclusive = false → p.field.name.text ≠ q.field.name.text → Clashes schema exclusive p q
  | arguments : exclusive = false → ¬ (p.field.arguments.map Given).Perm (q.field.arguments.map Given) →
      Clashes schema exclusive p q

section Clashes

variable {schema : Schema} {exclusive : Bool} {p q : Placed}

theorem clashes_iff : Clashes schema exclusive p q ↔ ¬ Mergeable schema exclusive p q := by
  constructor
  · rintro (⟨hx, hy, htypes⟩ | ⟨he, hname⟩ | ⟨he, harguments⟩) hmerge
    · exact htypes (hmerge.types _ _ hx hy)
    · exact hname (hmerge.name he)
    · exact harguments (hmerge.arguments he)
  · intro hmerge
    by_contra hnone
    refine hmerge ⟨fun x y hx hy => ?_, fun he => ?_, fun he => ?_⟩
    · by_contra htypes
      exact hnone (.types hx hy htypes)
    · by_contra hname
      exact hnone (.name he hname)
    · by_contra harguments
      exact hnone (.arguments he harguments)

/-- Fields that conflict by themselves clash. -/
theorem clashes_of_headConflict (h : (headConflict schema exclusive p q).isSome = true) :
    Clashes schema exclusive p q := by
  unfold headConflict at h
  dsimp only at h
  split at h
  · rename_i hname
    rw [Bool.and_eq_true, Bool.not_eq_true', bne_iff_ne] at hname
    exact .name hname.1 hname.2
  split at h
  · rename_i harguments
    rw [Bool.and_eq_true, Bool.not_eq_true', Bool.not_eq_true'] at harguments
    refine .arguments harguments.1 fun hperm => ?_
    rw [sameArguments_of_perm hperm] at harguments
    cases harguments.2
  split at h
  · rename_i x y hx hy
    split at h
    · rename_i htypes
      refine .types hx hy fun hcompatible => ?_
      rw [hcompatible.typesConflict_eq_false] at htypes
      cases htypes
    · cases h
  · cases h

end Clashes

/-! ## Response paths below two fields -/

/-- Two fields stand at one response path that goes on from `p` and `q` by some keys. They are exclusive if there, or
somewhere on the way from `p` and `q` on, their parents are different object types. -/
inductive Context.Below (cx : Context) (p q : Placed) : List String → Bool → Placed → Placed → Prop
  | here : Below cx p q [] (exclusiveParents p.parent q.parent) p q
  | deeper {path : List String} {exclusive : Bool} {a b a' b' : Placed} : Below cx p q path exclusive a b →
      cx.PlacesBelow a a' → cx.PlacesBelow b b' → a'.responseKey = b'.responseKey →
      Below cx p q (path ++ [a'.responseKey]) (exclusive || exclusiveParents a'.parent b'.parent) a' b'

section Below

variable {cx : Context} {p q p' q' a b : Placed} {path : List String} {exclusive : Bool}

/-- What stands below two fields stands below those that they stand below. -/
theorem Context.Below.cons (hp : cx.PlacesBelow p p') (hq : cx.PlacesBelow q q')
    (hkey : p'.responseKey = q'.responseKey) (h : cx.Below p' q' path exclusive a b) :
    cx.Below p q (p'.responseKey :: path) (exclusiveParents p.parent q.parent || exclusive) a b := by
  induction h with
  | here => exact .deeper .here hp hq hkey
  | deeper _ ha hb hkey' ih =>
    rw [← Bool.or_assoc]
    exact .deeper ih ha hb hkey'

/-- What stands below two fields of an expansion that share a response key is placed there at one response path. -/
theorem Context.Below.beside {s : Subject} {parent : Option TypeDef} {selections : List Selection}
    (hp : cx.Places s parent selections p) (hq : cx.Places s parent selections q)
    (hkey : p.responseKey = q.responseKey) (h : cx.Below p q path exclusive a b) :
    cx.Beside s parent selections (p.responseKey :: path) exclusive a b := by
  induction h with
  | here => exact .top hp hq hkey
  | deeper _ ha hb hkey' ih => exact .deeper ih ha hb hkey'

/-- The two fields of a pair that is compared share a response key. -/
theorem responseKey_of_mem_grouped {fields : List Placed} {key : String} {group : List Placed}
    (h : (key, group) ∈ grouped fields) (hp : p ∈ group) : p.responseKey = key := by
  obtain ⟨key', -, he⟩ := List.mem_map.1 h
  cases he
  exact beq_iff_eq.1 (List.mem_filter.1 hp).2

/-- A refused comparison comes from two fields that clash, the two that are compared or two below them. -/
theorem exists_clash {room : Nat} {seen : List String} {above : Bool}
    (h : (conflictBetween cx room above seen p q).isSome = true) :
    ∃ path exclusive a b, cx.Below p q path exclusive a b ∧ Clashes cx.schema (above || exclusive) a b := by
  induction room generalizing above seen p q with
  | zero => cases h
  | succ room ih =>
    obtain ⟨-, hhead | ⟨s, t, hs, ht, ⟨key, p', q'⟩, hpair, hbelow⟩⟩ := conflictBetween_isSome_iff.1 h
    · exact ⟨[], _, p, q, .here, clashes_of_headConflict hhead⟩
    · obtain ⟨group, hgroup, hp', hq', hkey⟩ := mem_keyedPairs.1 hpair
      obtain ⟨path, exclusive, a, b, hab, hclash⟩ := ih hbelow
      have hp : cx.PlacesBelow p p' := ⟨s, hs, (cx.stays_expand _ _ s seen).fields p' (mem_grouped hgroup hp')⟩
      have hq : cx.PlacesBelow q q' := ⟨t, ht, (cx.stays_expand _ _ t seen).fields q' hq'⟩
      have hsame : p'.responseKey = q'.responseKey := (responseKey_of_mem_grouped hgroup hp').trans hkey.symm
      rw [Bool.or_assoc] at hclash
      exact ⟨_, _, a, b, hab.cons hp hq hsame, hclash⟩

end Below

/-! ## Reports -/

section Reports

variable {cx : Context}

/-- A conflict is one between two fields in different places that the full expansion of a selection set places under
one response key, and there, or at a response path below them, two fields clash. -/
theorem exists_clash_of_mem_conflicts {s : Subject} {c : Conflict} (h : (s, c) ∈ conflicts cx) :
    ∃ parent set, (s, .selectionSet parent set) ∈ cx.visits ∧ cx.Places s parent set.selections c.first ∧
      cx.Places s parent set.selections c.second ∧ c.first.responseKey = c.second.responseKey ∧
      c.first.place ≠ c.second.place ∧
      ∃ path exclusive a b, cx.Below c.first c.second path exclusive a b ∧ Clashes cx.schema exclusive a b := by
  obtain ⟨parent, set, group, hv, hgroup, hab, hreason⟩ := mem_conflicts.1 h
  obtain ⟨hfirst, hsecond⟩ := mem_orderedPairs hab
  have hkey : c.first.responseKey = c.second.responseKey :=
    (responseKey_of_mem_grouped hgroup hfirst).trans (responseKey_of_mem_grouped hgroup hsecond).symm
  have hsome : (conflictBetween cx (comparisonRoom cx) false [] c.first c.second).isSome = true := by
    rw [hreason]
    rfl
  obtain ⟨path, exclusive, a, b, hbelow, hclash⟩ := exists_clash hsome
  rw [Bool.false_or] at hclash
  exact ⟨parent, set, hv, Context.mem_expand_iff.1 (mem_grouped hgroup hfirst),
    Context.mem_expand_iff.1 (mem_grouped hgroup hsecond), hkey, (conflictBetween_isSome_iff.1 hsome).1, path,
    exclusive, a, b, hbelow, hclash⟩

/-- If all fields that stand at one response path of a selection set merge, the rule finds nothing. -/
theorem overlappingFields_eq_nil_of_mergeable
    (h : ∀ s parent set, (s, .selectionSet parent set) ∈ cx.visits → ∀ path exclusive a b,
      cx.Beside s parent set.selections path exclusive a b → Mergeable cx.schema exclusive a b) :
    overlappingFields cx = [] := by
  have hnone : conflicts cx = [] := by
    refine List.eq_nil_iff_forall_not_mem.2 fun ⟨s, c⟩ hc => ?_
    obtain ⟨parent, set, hv, hp, hq, hkey, -, path, exclusive, a, b, hbelow, hclash⟩ := exists_clash_of_mem_conflicts hc
    exact clashes_iff.1 hclash (h s parent set hv _ _ a b (hbelow.beside hp hq hkey))
  unfold overlappingFields
  rw [hnone, conflictFindings]

/-- Every conflict that is reported relates two fields in different places that the full expansion of a selection set
places under one response key. And they do not merge there: at their response path or at one that goes on from it, two
fields have incompatible types, or they are not the same field with the same arguments, although no two parents on the
way are different object types. -/
theorem conflicts_clash (cx : Context) {f : Finding} (hf : f ∈ overlappingFields cx) {d : Diagnostic}
    (hd : f.diagnostic = some d) :
    d.kind = .fieldsConflict ∧ ∃ s parent set p q, (s, .selectionSet parent set) ∈ cx.visits ∧
      cx.Places s parent set.selections p ∧ cx.Places s parent set.selections q ∧
      p.responseKey = q.responseKey ∧ p.place ≠ q.place ∧
      d.source = q.subject.source ∧ d.span = q.field.span ∧
      d.related = [⟨p.subject.source, p.field.span, "conflicts with this field"⟩] ∧
      ∃ path exclusive a b, cx.Below p q path exclusive a b ∧ Clashes cx.schema exclusive a b := by
  obtain ⟨⟨s, c⟩, hc, rfl⟩ := exists_of_diagnostic hf hd
  obtain ⟨parent, set, hv, hp, hq, hkey, hplace, hclash⟩ := exists_clash_of_mem_conflicts hc
  exact ⟨rfl, s, parent, set, c.first, c.second, hv, hp, hq, hkey, hplace, rfl, rfl, rfl, hclash⟩

end Reports

/-- Two fields that merge by themselves, above two that do not. -/
def clashingDocument : Document :=
  (Batch.sampleFile "a.js" "query Q \x7b b \x7b a(n: 1) \x7d b \x7b a(n: 2) \x7d \x7d").document

theorem conflicts_clash_sample : ∃ (d : Diagnostic) (p q : Placed), d.kind = .fieldsConflict ∧
    d.span = q.field.span ∧ p.place ≠ q.place ∧
    ∃ path exclusive a b, (firstContext clashingDocument).Below p q path exclusive a b ∧
      Clashes Batch.sampleSchema exclusive a b := by
  have hreports : (overlappingFields (firstContext clashingDocument)).any (fun f => f.diagnostic.isSome) = true := by
    decide +kernel
  obtain ⟨f, hf, hsome⟩ := List.any_eq_true.1 hreports
  obtain ⟨d, hd⟩ := Option.isSome_iff_exists.1 hsome
  obtain ⟨hkind, -, -, -, p, q, -, -, -, -, hplace, -, hspan, -, hclash⟩ := conflicts_clash _ hf hd
  exact ⟨d, p, q, hkind, hspan, hplace, hclash⟩

end QueryBatch.Rules
