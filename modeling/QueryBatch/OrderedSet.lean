/-!
# Sets in order of insertion

A finite set that lists its members in the order in which they came in.

* `mem_insert`, `mem_union`: what the updates do to membership.
-/

namespace QueryBatch

/-- A set with its members in order of first insertion. -/
structure OrderedSet (α : Type) where
  toList : List α
  nodup : toList.Nodup

namespace OrderedSet

variable {α : Type}

def empty : OrderedSet α := ⟨[], .nil⟩

instance : Inhabited (OrderedSet α) := ⟨empty⟩

instance : Membership α (OrderedSet α) := ⟨fun s a => a ∈ s.toList⟩

instance [DecidableEq α] (a : α) (s : OrderedSet α) : Decidable (a ∈ s) :=
  inferInstanceAs (Decidable (a ∈ s.toList))

def isEmpty (s : OrderedSet α) : Bool := s.toList.isEmpty

theorem mem_iff {a : α} {s : OrderedSet α} : a ∈ s ↔ a ∈ s.toList := Iff.rfl

@[simp] theorem not_mem_empty (a : α) : a ∉ (empty : OrderedSet α) := by simp [mem_iff, empty]

/-! ## Updates -/

variable [DecidableEq α]

/-- Adds a member at the end unless it is there already. -/
def insert (s : OrderedSet α) (a : α) : OrderedSet α :=
  if h : a ∈ s.toList then s
  else ⟨s.toList ++ [a], by
    rw [List.nodup_append]
    refine ⟨s.nodup, by simp, ?_⟩
    rintro x hx y hy rfl
    cases List.mem_singleton.1 hy
    exact h hx⟩

/-- Adds the members of a list in its order. -/
def insertAll (s : OrderedSet α) (as : List α) : OrderedSet α := as.foldl insert s

/-- The members of `s` followed by the new ones of `t`. -/
def union (s t : OrderedSet α) : OrderedSet α := s.insertAll t.toList

def ofList (as : List α) : OrderedSet α := empty.insertAll as

/-! ## Lemmas -/

theorem toList_insert (s : OrderedSet α) (a : α) :
    (s.insert a).toList = if a ∈ s.toList then s.toList else s.toList ++ [a] := by
  unfold insert
  split
  · rfl
  · rfl

theorem ofList_concat (as : List α) (a : α) : ofList (as ++ [a]) = (ofList as).insert a := by
  simp only [ofList, insertAll, List.foldl_append, List.foldl_cons, List.foldl_nil]

@[simp] theorem mem_insert {s : OrderedSet α} {a b : α} : b ∈ s.insert a ↔ b ∈ s ∨ b = a := by
  unfold insert
  split
  · rename_i h
    simp only [mem_iff]
    exact ⟨.inl, fun hb => hb.elim id fun e => e ▸ h⟩
  · simp [mem_iff]

@[simp] theorem mem_insertAll {s : OrderedSet α} {as : List α} {b : α} : b ∈ s.insertAll as ↔ b ∈ s ∨ b ∈ as := by
  induction as generalizing s with
  | nil => simp [insertAll]
  | cons a as ih =>
    have step : s.insertAll (a :: as) = (s.insert a).insertAll as := rfl
    rw [step, ih, mem_insert, List.mem_cons, or_assoc]

@[simp] theorem mem_union {s t : OrderedSet α} {b : α} : b ∈ s.union t ↔ b ∈ s ∨ b ∈ t := mem_insertAll

@[simp] theorem mem_ofList {as : List α} {b : α} : b ∈ ofList as ↔ b ∈ as := by simp [ofList]

end OrderedSet

end QueryBatch
