import Mathlib.Data.List.Induction
import Mathlib.Data.List.Nodup
import QueryBatch.Proofs.Reachability
import QueryBatch.Rules.Context

/-!
# Views of a context

* `Context.mem_fragments`, `Context.mem_operations`: the definitions of a context by sort.
* `Context.bodyOf`: the selection set that a name stands for.
* `Context.fragment?_of`: in the context of two lists, a name stands for its first fragment in the second list.
* `repeats_eq_nil_iff`: nothing is repeated if, and only if, all keys differ.
-/

namespace QueryBatch

/-- The keys of the first members are listed in order of first appearance. -/
theorem OrderedMap.keys_firstOf {α : Type} (key : α → String) (as : List α) :
    (firstOf key as).keys = (OrderedSet.ofList (as.map key)).toList := by
  induction as using List.reverseRecOn with
  | nil => rfl
  | append_singleton as a ih =>
    rw [firstOf, List.foldl_append, List.foldl_cons, List.foldl_nil, keys_insertNew, ← firstOf, ih, List.map_append,
      List.map_singleton, OrderedSet.ofList_concat, OrderedSet.toList_insert]

theorem Definition.body_of_operation? {d : Definition} {op : Operation} (h : d.operation? = some op) :
    d.body = op.body := by
  cases d with
  | operation _ =>
    cases h
    rfl
  | fragment _ => cases h

theorem Definition.body_of_fragment? {d : Definition} {frag : Fragment} (h : d.fragment? = some frag) :
    d.body = frag.body := by
  cases d with
  | operation _ => cases h
  | fragment _ =>
    cases h
    rfl

namespace Rules

/-- A rule rejects the definition of an owner. -/
def Rejects (rule : Rule) (cx : Context) (owner : Owner) : Prop := ∃ f ∈ rule cx, owner ∈ f.rejected

namespace Context

variable {cx : Context} {s : Subject} {frag : Fragment} {name : String}

/-- The names of the fragments, one for each fragment. -/
def names (cx : Context) : List String := cx.fragments.map fun (_, frag) => frag.name.text

/-- The selection set of the fragment that a name stands for. -/
def bodyOf (cx : Context) (name : String) : Option SelectionSet := (cx.fragment? name).map fun (_, frag) => frag.body

/-- The definitions of one sort are those that a view of definitions shows. -/
theorem mem_view {α : Type} {view : Definition → Option α} {a : α} {subjects : List Subject} :
    (s, a) ∈ subjects.filterMap (fun s => (view s.definition).map fun a => (s, a)) ↔
      s ∈ subjects ∧ view s.definition = some a := by
  rw [List.mem_filterMap]
  constructor
  · rintro ⟨s', hs', h⟩
    obtain ⟨a', ha', he⟩ := Option.map_eq_some_iff.1 h
    cases he
    exact ⟨hs', ha'⟩
  · rintro ⟨hs, ha⟩
    exact ⟨s, hs, by rw [ha, Option.map_some]⟩

theorem mem_operations {op : Operation} :
    (s, op) ∈ cx.operations ↔ s ∈ cx.subjects ∧ s.definition.operation? = some op := mem_view

theorem mem_fragments : (s, frag) ∈ cx.fragments ↔ s ∈ cx.subjects ∧ s.definition.fragment? = some frag := mem_view

/-- The definitions of the fragments of a context. -/
theorem map_fst_fragments (cx : Context) :
    cx.fragments.map Prod.fst = cx.subjects.filter fun s => s.definition.fragment?.isSome := by
  unfold fragments
  rw [List.map_filterMap, ← List.filterMap_eq_filter]
  refine List.filterMap_congr fun s _ => ?_
  cases hfrag : s.definition.fragment? <;> simp [Option.guard, hfrag]

theorem fragmentNames_eq (cx : Context) : cx.fragmentNames = (OrderedSet.ofList cx.names).toList :=
  OrderedMap.keys_firstOf _ _

theorem mem_of_fragment? (h : cx.fragment? name = some (s, frag)) : (s, frag) ∈ cx.fragments :=
  List.mem_of_find?_eq_some (cx.fragment?_eq name ▸ h)

theorem name_of_fragment? (h : cx.fragment? name = some (s, frag)) : frag.name.text = name := by
  have hname := List.find?_some (cx.fragment?_eq name ▸ h)
  simpa using hname

theorem exists_of_mem_names (h : name ∈ cx.names) : ∃ s frag, cx.fragment? name = some (s, frag) := by
  obtain ⟨x, hx, hname⟩ := List.mem_map.1 h
  have hsome : (cx.fragment? name).isSome = true := by
    rw [fragment?_eq]
    exact List.find?_isSome.2 ⟨x, hx, beq_iff_eq.2 hname⟩
  obtain ⟨⟨s, frag⟩, hfound⟩ := Option.isSome_iff_exists.1 hsome
  exact ⟨s, frag, hfound⟩

theorem mem_names_of_fragment? (h : cx.fragment? name = some (s, frag)) : name ∈ cx.names := by
  rw [← name_of_fragment? h]
  exact List.mem_map_of_mem (mem_of_fragment? h)

/-- No more names are left to meet than there are fragments. -/
theorem unseen_names_le (cx : Context) (seen : List String) : unseen cx.names seen ≤ cx.fragments.length := by
  have hle := unseen_le_length cx.names seen
  unfold names at hle ⊢
  rwa [List.length_map] at hle

theorem bodyOf_eq (h : cx.fragment? name = some (s, frag)) : cx.bodyOf name = some frag.body := by
  unfold bodyOf
  rw [h]
  rfl

theorem bodyOf_eq_none (h : cx.fragment? name = none) : cx.bodyOf name = none := by
  unfold bodyOf
  rw [h]
  rfl

theorem exists_of_bodyOf {body : SelectionSet} (h : cx.bodyOf name = some body) :
    ∃ s frag, cx.fragment? name = some (s, frag) ∧ frag.body = body := by
  obtain ⟨⟨s, frag⟩, hfound, hbody⟩ := Option.map_eq_some_iff.1 h
  exact ⟨s, frag, hfound, hbody⟩

/-! ### Contexts of lists -/

section Lists

variable {schema : Schema} {ops : List (Nat × Operation)} {frags : List (Nat × Fragment)}

theorem mem_numbered {α : Type} {owner : Nat → Owner} {definition : α → Definition} {all : List (Nat × α)} :
    s ∈ numbered owner definition all ↔ ∃ i x, all[i]? = some x ∧ s = ⟨owner i, x.1, definition x.2⟩ := by
  unfold numbered
  simp only [List.mem_map, Prod.exists, List.mem_zipIdx_iff_getElem?]
  constructor
  · rintro ⟨source, a, i, h, rfl⟩
    exact ⟨i, source, a, h, rfl⟩
  · rintro ⟨i, source, a, h, rfl⟩
    exact ⟨source, a, i, h, rfl⟩

theorem mem_subjects_of : s ∈ (of schema ops frags).subjects ↔
    (∃ i x, ops[i]? = some x ∧ s = ⟨.operation i, x.1, .operation x.2⟩) ∨
    ∃ i x, frags[i]? = some x ∧ s = ⟨.fragment i, x.1, .fragment x.2⟩ := by
  unfold of
  rw [List.mem_append, mem_numbered, mem_numbered]

theorem owners_numbered {α : Type} (owner : Nat → Owner) (definition : α → Definition) (all : List (Nat × α)) :
    (numbered owner definition all).map Subject.owner = (List.range' 0 all.length).map owner := by
  unfold numbered
  rw [List.map_map, ← List.zipIdx_map_snd 0 all, List.map_map]
  rfl

/-- No definition of a context has the owner of another one. -/
theorem nodup_subjects_of : (of schema ops frags).subjects.Nodup := by
  refine List.Nodup.of_map Subject.owner ?_
  unfold of
  rw [List.map_append, owners_numbered, owners_numbered, List.nodup_append]
  refine ⟨?_, ?_, ?_⟩
  · exact List.Nodup.map (fun _ _ h => Owner.operation.inj h) (List.nodup_range' _)
  · exact List.Nodup.map (fun _ _ h => Owner.fragment.inj h) (List.nodup_range' _)
  · intro a ha b hb he
    obtain ⟨i, -, rfl⟩ := List.mem_map.1 ha
    obtain ⟨j, -, rfl⟩ := List.mem_map.1 hb
    cases he

/-- A definition of a context is told from the others by its owner. -/
theorem eq_of_owner {t : Subject} (hs : s ∈ (of schema ops frags).subjects) (ht : t ∈ (of schema ops frags).subjects)
    (h : s.owner = t.owner) : s = t := by
  rcases mem_subjects_of.1 hs with ⟨i, x, hx, rfl⟩ | ⟨i, x, hx, rfl⟩ <;>
    rcases mem_subjects_of.1 ht with ⟨j, y, hy, rfl⟩ | ⟨j, y, hy, rfl⟩
  · cases h
    rw [hx] at hy
    cases hy
    rfl
  · cases h
  · cases h
  · cases h
    rw [hx] at hy
    cases hy
    rfl

theorem operations_of :
    (of schema ops frags).operations = ops.zipIdx.map fun x => (⟨.operation x.2, x.1.1, .operation x.1.2⟩, x.1.2) := by
  unfold operations of numbered
  rw [List.filterMap_append, List.filterMap_map, List.filterMap_map]
  have hnone : frags.zipIdx.filterMap ((fun s : Subject => s.definition.operation?.map fun op => (s, op)) ∘
      fun x => ⟨.fragment x.2, x.1.1, .fragment x.1.2⟩) = [] := List.filterMap_eq_nil_iff.2 fun _ _ => rfl
  exact (congrArg _ hnone).trans ((List.append_nil _).trans (List.filterMap_eq_map ▸ rfl))

theorem fragments_of :
    (of schema ops frags).fragments = frags.zipIdx.map fun x => (⟨.fragment x.2, x.1.1, .fragment x.1.2⟩, x.1.2) := by
  unfold fragments of numbered
  rw [List.filterMap_append, List.filterMap_map, List.filterMap_map]
  have hnone : ops.zipIdx.filterMap ((fun s : Subject => s.definition.fragment?.map fun frag => (s, frag)) ∘
      fun x => ⟨.operation x.2, x.1.1, .operation x.1.2⟩) = [] := List.filterMap_eq_nil_iff.2 fun _ _ => rfl
  exact (congrArg (· ++ _) hnone).trans (List.filterMap_eq_map ▸ rfl)

theorem names_of : (of schema ops frags).names = frags.map fun x => x.2.name.text := by
  unfold names
  rw [fragments_of, List.map_map]
  have hfst : frags.map (fun x => x.2.name.text) = (frags.zipIdx.map Prod.fst).map fun x => x.2.name.text := by
    rw [List.zipIdx_map_fst]
  rw [hfst, List.map_map]
  rfl

/-- Looking for a member that is numbered is looking for the member. -/
theorem find?_zipIdx {α : Type} (p : α → Bool) (as : List α) (n : Nat) :
    (as.zipIdx n).find? (fun x => p x.1) = (as.find? p).map fun a => (a, n + as.findIdx p) := by
  induction as generalizing n with
  | nil => rfl
  | cons a rest ih =>
    rw [List.zipIdx_cons, List.find?_cons, List.find?_cons, List.findIdx_cons]
    cases hp : p a with
    | true => rfl
    | false =>
      rw [ih]
      simp only [cond_false]
      congr 1
      funext b
      rw [Nat.add_assoc, Nat.add_comm 1]

/-- A name stands for the first fragment of that name. -/
theorem fragment?_of (name : String) :
    (of schema ops frags).fragment? name = (frags.find? fun x => x.2.name.text == name).map fun x =>
      (⟨.fragment (frags.findIdx fun x => x.2.name.text == name), x.1, .fragment x.2⟩, x.2) := by
  rw [fragment?_eq, fragments_of, List.find?_map]
  have hfind := find?_zipIdx (fun x : Nat × Fragment => x.2.name.text == name) frags 0
  rw [show ((fun x : Subject × Fragment => x.2.name.text == name) ∘ fun x : (Nat × Fragment) × Nat =>
    ((⟨.fragment x.2, x.1.1, .fragment x.1.2⟩ : Subject), x.1.2)) = fun x => x.1.2.name.text == name from rfl, hfind,
    Option.map_map]
  simp only [Nat.zero_add]
  rfl

end Lists

end Context

/-! ## Repetitions -/

section Repeats

variable {α : Type} {key : α → String}

theorem repeatsAfter_eq_nil_iff {firsts as : List α} :
    repeatsAfter key firsts as = [] ↔ (as.map key).Nodup ∧ ∀ a ∈ as, key a ∉ firsts.map key := by
  induction as generalizing firsts with
  | nil => simp [repeatsAfter]
  | cons a rest ih =>
    rw [repeatsAfter]
    cases hfound : firsts.find? fun first => key first == key a with
    | some first =>
      have hmem : key a ∈ firsts.map key := by
        have hkey : key first = key a := by simpa using List.find?_some hfound
        rw [← hkey]
        exact List.mem_map_of_mem (List.mem_of_find?_eq_some hfound)
      refine iff_of_false (List.cons_ne_nil _ _) ?_
      rintro ⟨-, hnew⟩
      exact hnew a List.mem_cons_self hmem
    | none =>
      have hnew : key a ∉ firsts.map key := by
        intro hmem
        obtain ⟨first, hfirst, hkey⟩ := List.mem_map.1 hmem
        exact List.find?_eq_none.1 hfound first hfirst (beq_iff_eq.2 hkey)
      simp only [ih, List.map_cons, List.nodup_cons, List.map_append, List.map_nil, List.mem_append,
        List.mem_singleton, not_or, List.forall_mem_cons, List.mem_map]
      constructor
      · rintro ⟨hnodup, hrest⟩
        refine ⟨⟨?_, hnodup⟩, by simpa using hnew, fun b hb => by simpa using (hrest b hb).1⟩
        rintro ⟨b, hb, hkey⟩
        exact (hrest b hb).2 hkey
      · rintro ⟨⟨ha, hnodup⟩, -, hrest⟩
        exact ⟨hnodup, fun b hb => ⟨by simpa using hrest b hb, fun hkey => ha ⟨b, hb, hkey⟩⟩⟩

theorem repeats_eq_nil_iff {as : List α} : repeats key as = [] ↔ (as.map key).Nodup := by
  unfold repeats
  rw [repeatsAfter_eq_nil_iff]
  simp

end Repeats

end Rules

end QueryBatch
