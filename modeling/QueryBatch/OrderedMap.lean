/-!
# Maps in order of insertion

A finite map from names to values that lists its entries in the order in which their names came in. Writing a name
again replaces its value and keeps its place.

* `find?_insert`, `find?_insertNew`, `keys_insert`: what an insertion does to look-ups and to the order.
* `find?_firstOf`: the first of each key wins.
* `find?_isSome_iff`, `mem_values_iff`: which names have a value, and which values are listed.
-/

namespace QueryBatch

/-- A map from names to values with its entries in order of insertion; no name has two entries. -/
structure OrderedMap (β : Type) where
  entries : List (String × β)
  nodup : (entries.map Prod.fst).Nodup

namespace OrderedMap

variable {β : Type}

/-! ## Views -/

def empty : OrderedMap β := ⟨[], .nil⟩

instance : Inhabited (OrderedMap β) := ⟨empty⟩

/-- The names, in order. -/
def keys (m : OrderedMap β) : List String := m.entries.map Prod.fst

/-- The values, in the order of their names. -/
def values (m : OrderedMap β) : List β := m.entries.map Prod.snd

/-- The value of a name among entries. -/
def findIn (name : String) : List (String × β) → Option β
  | [] => none
  | (key, value) :: rest => if key = name then some value else findIn name rest

/-- The value of a name. -/
def find? (m : OrderedMap β) (name : String) : Option β := findIn name m.entries

def contains (m : OrderedMap β) (name : String) : Bool := m.keys.contains name

def isEmpty (m : OrderedMap β) : Bool := m.entries.isEmpty

def size (m : OrderedMap β) : Nat := m.entries.length

/-! ## Updates -/

/-- The entries with the value of `name` replaced. -/
def replaceIn (name : String) (value : β) (entries : List (String × β)) : List (String × β) :=
  entries.map fun entry => if entry.1 = name then (name, value) else entry

theorem map_fst_replaceIn (name : String) (value : β) (entries : List (String × β)) :
    (replaceIn name value entries).map Prod.fst = entries.map Prod.fst := by
  simp only [replaceIn, List.map_map]
  apply List.map_congr_left
  intro entry _
  simp only [Function.comp]
  split <;> simp_all

/-- Gives `name` the value `value`: in its old place, or at the end if it is new. -/
def insert (m : OrderedMap β) (name : String) (value : β) : OrderedMap β :=
  if h : name ∈ m.entries.map Prod.fst then
    ⟨replaceIn name value m.entries, by rw [map_fst_replaceIn]; exact m.nodup⟩
  else
    ⟨m.entries ++ [(name, value)], by
      rw [List.map_append, List.map_cons, List.map_nil, List.nodup_append]
      refine ⟨m.nodup, by simp, ?_⟩
      rintro a ha b hb rfl
      cases List.mem_singleton.1 hb
      exact h ha⟩

/-- Adds `name` at the end unless it is there already. -/
def insertNew (m : OrderedMap β) (name : String) (value : β) : OrderedMap β :=
  if name ∈ m.entries.map Prod.fst then m else m.insert name value

/-- The first member of each key among `as`, under its key. -/
def firstOf {α : Type} (key : α → String) (as : List α) : OrderedMap α :=
  as.foldl (fun m a => m.insertNew (key a) a) empty

/-- The map that the entries make when inserted from left to right. -/
def ofList (entries : List (String × β)) : OrderedMap β :=
  entries.foldl (fun m entry => m.insert entry.1 entry.2) empty

/-! ## Lemmas -/

theorem contains_iff {m : OrderedMap β} {name : String} : m.contains name ↔ name ∈ m.keys := by
  simp [contains]

theorem keys_insert (m : OrderedMap β) (name : String) (value : β) :
    (m.insert name value).keys = if name ∈ m.keys then m.keys else m.keys ++ [name] := by
  unfold insert keys
  split
  · exact map_fst_replaceIn name value m.entries
  · simp

theorem keys_insertNew (m : OrderedMap β) (name : String) (value : β) :
    (m.insertNew name value).keys = if name ∈ m.keys then m.keys else m.keys ++ [name] := by
  unfold insertNew
  split
  · rename_i h
    exact (if_pos h).symm
  · exact keys_insert m name value

theorem findIn_replaceIn (name : String) (value : β) (entries : List (String × β)) (other : String) :
    findIn other (replaceIn name value entries) =
      if name = other ∧ name ∈ entries.map Prod.fst then some value else findIn other entries := by
  induction entries with
  | nil => simp [replaceIn, findIn]
  | cons entry rest ih =>
    obtain ⟨key, old⟩ := entry
    have step : replaceIn name value ((key, old) :: rest) =
        (if key = name then (name, value) else (key, old)) :: replaceIn name value rest := rfl
    rw [step]
    by_cases hk : key = name
    · subst hk
      by_cases ho : key = other <;> simp [findIn, ho, ih]
    · by_cases ho : key = other
      · subst ho
        simp [findIn, hk, Ne.symm hk]
      · simp only [if_neg hk, findIn, if_neg ho, ih, List.map_cons, List.mem_cons, Ne.symm hk, false_or]

theorem findIn_append_single (entries : List (String × β)) (name : String) (value : β) (other : String)
    (h : name ∉ entries.map Prod.fst) :
    findIn other (entries ++ [(name, value)]) = if name = other then some value else findIn other entries := by
  induction entries with
  | nil => simp [findIn]
  | cons entry rest ih =>
    obtain ⟨key, old⟩ := entry
    simp only [List.map_cons, List.mem_cons, not_or] at h
    by_cases hk : key = other
    · subst hk
      simp [findIn, h.1]
    · simp [findIn, hk, ih h.2]

theorem find?_insert (m : OrderedMap β) (name : String) (value : β) (other : String) :
    (m.insert name value).find? other = if name = other then some value else m.find? other := by
  unfold insert find?
  split
  · rename_i h
    simp [findIn_replaceIn, h]
  · rename_i h
    exact findIn_append_single m.entries name value other h

theorem findIn_eq_none_iff {name : String} {entries : List (String × β)} :
    findIn name entries = none ↔ name ∉ entries.map Prod.fst := by
  induction entries with
  | nil => simp [findIn]
  | cons entry rest ih =>
    obtain ⟨key, value⟩ := entry
    rw [findIn]
    split
    · rename_i h
      simp [h]
    · rename_i h
      simp only [ih, List.map_cons, List.mem_cons, Ne.symm h, false_or]

/-- A map has a value for just the names that it contains. -/
theorem find?_isSome_iff {m : OrderedMap β} {name : String} :
    (m.find? name).isSome = true ↔ m.contains name = true := by
  rw [contains_iff, Option.isSome_iff_ne_none, ne_eq, find?, findIn_eq_none_iff, Classical.not_not, keys]

theorem mem_of_findIn {name : String} {value : β} {entries : List (String × β)} (h : findIn name entries = some value) :
    (name, value) ∈ entries := by
  induction entries with
  | nil => cases h
  | cons entry rest ih =>
    rw [findIn] at h
    split at h
    · rename_i hkey
      cases h
      exact hkey ▸ List.mem_cons_self
    · exact List.mem_cons_of_mem _ (ih h)

theorem mem_values_of_find? {m : OrderedMap β} {name : String} {value : β} (h : m.find? name = some value) :
    value ∈ m.values := List.mem_map_of_mem (mem_of_findIn h)

theorem findIn_of_mem {name : String} {value : β} {entries : List (String × β)}
    (hnodup : (entries.map Prod.fst).Nodup) (h : (name, value) ∈ entries) : findIn name entries = some value := by
  induction entries with
  | nil => cases h
  | cons entry rest ih =>
    obtain ⟨hfresh, hrest⟩ := List.nodup_cons.1 hnodup
    rw [findIn]
    rcases List.mem_cons.1 h with rfl | h
    · rw [if_pos rfl]
    · rw [if_neg, ih hrest h]
      rintro (rfl : entry.1 = name)
      exact hfresh (List.mem_map.2 ⟨_, h, rfl⟩)

/-- The values that are listed are those of the names. -/
theorem mem_values_iff {m : OrderedMap β} {value : β} : value ∈ m.values ↔ ∃ name, m.find? name = some value := by
  constructor
  · intro h
    obtain ⟨entry, hentry, rfl⟩ := List.mem_map.1 h
    exact ⟨entry.1, findIn_of_mem m.nodup hentry⟩
  · rintro ⟨name, h⟩
    exact mem_values_of_find? h

/-- A name keeps its value, if it has one. -/
theorem find?_insertNew (m : OrderedMap β) (name : String) (value : β) (other : String) :
    (m.insertNew name value).find? other = (m.find? other).or (if name = other then some value else none) := by
  unfold insertNew
  split
  · rename_i hknown
    split
    · rename_i hother
      subst hother
      cases hfind : m.find? name with
      | none => exact absurd hknown (findIn_eq_none_iff.1 hfind)
      | some known => rfl
    · exact (Option.or_none).symm
  · rename_i hnew
    rw [find?_insert]
    split
    · rename_i hother
      subst hother
      rw [show m.find? name = none from findIn_eq_none_iff.2 hnew, Option.none_or]
    · exact (Option.or_none).symm

/-- A name has the first member of its key. -/
theorem find?_firstOf {α : Type} (key : α → String) (as : List α) (name : String) :
    (firstOf key as).find? name = as.find? fun a => key a == name := by
  have hfrom : ∀ m : OrderedMap α, (as.foldl (fun m a => m.insertNew (key a) a) m).find? name =
      (m.find? name).or (as.find? fun a => key a == name) := by
    induction as with
    | nil => exact fun m => Option.or_none.symm
    | cons a as ih =>
      intro m
      rw [List.foldl_cons, ih, find?_insertNew, Option.or_assoc]
      by_cases h : key a = name
      · rw [if_pos h, Option.some_or, List.find?_cons, beq_iff_eq.2 h]
      · rw [if_neg h, Option.none_or, List.find?_cons, beq_eq_false_iff_ne.2 h]
  exact (hfrom empty).trans Option.none_or

end OrderedMap

end QueryBatch
