import Mathlib.Order.Bounds.Basic
import QueryBatch.Text.EditDistance

/-!
# The edit distance is the least number of edits

* `Edit`: one character is inserted, deleted or substituted. `Edits n`: a script of `n` edits, one after the other.
* `distance`: the recurrence of edit distances, from the first characters on.
* `isLeast_distance`: it is the length of a shortest script.
* `editDistance_eq`: the last cell of the last row is the distance of the words read backwards, since a row goes from
  prefix to prefix.
* `editDistance_minimal`: the edit distance is the length of a shortest script, and a metric.
-/

namespace QueryBatch.Text

/-! ## Scripts -/

/-- One character more, one less, or one in the place of another. -/
inductive Edit : List Char → List Char → Prop
  | insert (front : List Char) (c : Char) (back : List Char) : Edit (front ++ back) (front ++ c :: back)
  | delete (front : List Char) (c : Char) (back : List Char) : Edit (front ++ c :: back) (front ++ back)
  | substitute (front : List Char) (c d : Char) (back : List Char) : Edit (front ++ c :: back) (front ++ d :: back)

/-- A script: as many edits as it says, each of what the one before has left. -/
inductive Edits : Nat → List Char → List Char → Prop
  | none (a : List Char) : Edits 0 a a
  | first {n : Nat} {a b c : List Char} : Edit a b → Edits n b c → Edits (n + 1) a c

section Scripts

variable {m n : Nat} {a b c : List Char}

theorem Edit.symm (h : Edit a b) : Edit b a := by
  cases h with
  | insert front c back => exact .delete front c back
  | delete front c back => exact .insert front c back
  | substitute front c d back => exact .substitute front d c back

theorem Edit.cons (x : Char) (h : Edit a b) : Edit (x :: a) (x :: b) := by
  cases h with
  | insert front c back => exact .insert (x :: front) c back
  | delete front c back => exact .delete (x :: front) c back
  | substitute front c d back => exact .substitute (x :: front) c d back

theorem Edit.reverse (h : Edit a b) : Edit a.reverse b.reverse := by
  cases h with
  | insert front c back => simpa using Edit.insert back.reverse c front.reverse
  | delete front c back => simpa using Edit.delete back.reverse c front.reverse
  | substitute front c d back => simpa using Edit.substitute back.reverse c d front.reverse

theorem Edits.trans (h : Edits m a b) (h' : Edits n b c) : Edits (m + n) a c := by
  induction h with
  | none a => rwa [Nat.zero_add]
  | @first m a b _ hedit _ ih =>
    rw [Nat.add_right_comm]
    exact .first hedit (ih h')

theorem Edits.symm (h : Edits n a b) : Edits n b a := by
  induction h with
  | none a => exact .none a
  | first hedit _ ih => exact ih.trans (.first hedit.symm (.none _))

theorem Edits.cons (x : Char) (h : Edits n a b) : Edits n (x :: a) (x :: b) := by
  induction h with
  | none a => exact .none _
  | first hedit _ ih => exact .first (hedit.cons x) ih

theorem Edits.reverse (h : Edits n a b) : Edits n a.reverse b.reverse := by
  induction h with
  | none a => exact .none _
  | first hedit _ ih => exact .first hedit.reverse ih

theorem edits_reverse_iff : Edits n a.reverse b.reverse ↔ Edits n a b :=
  ⟨fun h => by simpa using h.reverse, .reverse⟩

/-- Of two scripts the shorter one. -/
theorem Edits.min (h : Edits m a b) (h' : Edits n a b) : Edits (min m n) a b := by
  rcases Nat.le_total m n with hle | hle
  · rwa [Nat.min_eq_left hle]
  · rwa [Nat.min_eq_right hle]

theorem edits_zero_iff : Edits 0 a b ↔ a = b := by
  refine ⟨fun h => ?_, fun h => h ▸ .none a⟩
  cases h
  rfl

end Scripts

/-! ## The recurrence -/

/-- The least of three ways to go on: without the first character of `a`, without that of `b`, or without both, which
costs an edit if they differ. -/
def distance : List Char → List Char → Nat
  | [], b => b.length
  | c :: a, [] => (c :: a).length
  | c :: a, d :: b =>
    min (min (distance a (d :: b) + 1) (distance (c :: a) b + 1)) (distance a b + if c = d then 0 else 1)
termination_by a b => a.length + b.length

section Recurrence

variable {n : Nat} {a b : List Char}

@[simp] theorem distance_nil_left (b : List Char) : distance [] b = b.length := by rw [distance]

@[simp] theorem distance_nil_right (a : List Char) : distance a [] = a.length := by
  cases a <;> rw [distance]

theorem distance_cons_cons (c d : Char) (a b : List Char) : distance (c :: a) (d :: b) =
    min (min (distance a (d :: b) + 1) (distance (c :: a) b + 1)) (distance a b + if c = d then 0 else 1) := by
  rw [distance]

/-- A script as long as the distance. -/
theorem edits_distance (a b : List Char) : Edits (distance a b) a b := by
  induction a generalizing b with
  | nil =>
    induction b with
    | nil => exact distance_nil_left [] ▸ .none []
    | cons d b ih =>
      rw [distance_nil_left] at ih ⊢
      exact .first (.insert [] d []) (ih.cons d)
  | cons c a iha =>
    induction b with
    | nil =>
      have h := iha []
      rw [distance_nil_right] at h ⊢
      exact .first (.delete [] c a) h
    | cons d b ihb =>
      -- each of the three ways to go on makes a script of its own
      have hdelete : Edits (distance a (d :: b) + 1) (c :: a) (d :: b) := .first (.delete [] c a) (iha (d :: b))
      have hinsert : Edits (distance (c :: a) b + 1) (c :: a) (d :: b) := .first (.insert [] d (c :: a)) (ihb.cons d)
      have hboth : Edits (distance a b + if c = d then 0 else 1) (c :: a) (d :: b) := by
        split
        · rename_i heq
          exact heq ▸ (iha b).cons c
        · exact .first (.substitute [] c d a) ((iha b).cons d)
      rw [distance_cons_cons]
      exact (hdelete.min hinsert).min hboth

theorem distance_self (a : List Char) : distance a a = 0 := by
  induction a with
  | nil => rw [distance_nil_left, List.length_nil]
  | cons c a ih => rw [distance_cons_cons, ih, if_pos rfl, Nat.add_zero, Nat.min_zero]

/-- One more character on the right costs an insertion at most. -/
theorem distance_cons_right_le (a : List Char) (d : Char) (b : List Char) :
    distance a (d :: b) ≤ distance a b + 1 := by
  cases a with
  | nil => simp
  | cons c a =>
    rw [distance_cons_cons]
    omega

theorem distance_cons_left_le (c : Char) (a b : List Char) : distance (c :: a) b ≤ distance a b + 1 := by
  cases b with
  | nil => simp
  | cons d b =>
    rw [distance_cons_cons]
    omega

theorem distance_le_cons_left (c : Char) (a b : List Char) : distance a b ≤ distance (c :: a) b + 1 := by
  induction b with
  | nil =>
    rw [distance_nil_right, distance_nil_right, List.length_cons]
    omega
  | cons d b ih =>
    have h := distance_cons_right_le a d b
    rw [distance_cons_cons]
    omega

theorem distance_cons_left_le_cons_left (c d : Char) (a b : List Char) :
    distance (c :: a) b ≤ distance (d :: a) b + 1 := by
  induction b with
  | nil => simp
  | cons e b ih =>
    rw [distance_cons_cons, distance_cons_cons]
    split <;> split <;> omega

/-- A first character that two words have in common takes them no further apart. -/
theorem distance_cons_le_of_le (x : Char) (h : ∀ t, distance a t ≤ distance b t + 1) (t : List Char) :
    distance (x :: a) t ≤ distance (x :: b) t + 1 := by
  induction t with
  | nil => simpa using h []
  | cons d t ih =>
    have hall := h (d :: t)
    have hrest := h t
    rw [distance_cons_cons, distance_cons_cons]
    omega

theorem distance_append_le (front : List Char) (h : ∀ t, distance a t ≤ distance b t + 1) (t : List Char) :
    distance (front ++ a) t ≤ distance (front ++ b) t + 1 := by
  induction front generalizing t with
  | nil => exact h t
  | cons x front ih => exact distance_cons_le_of_le x ih t

/-- An edit brings a word nearer to another one by one at most. -/
theorem Edit.distance_le (h : Edit a b) (t : List Char) : distance a t ≤ distance b t + 1 := by
  cases h with
  | insert front c back => exact distance_append_le front (distance_le_cons_left c back) t
  | delete front c back => exact distance_append_le front (distance_cons_left_le c back) t
  | substitute front c d back => exact distance_append_le front (distance_cons_left_le_cons_left c d back) t

/-- No script is shorter. -/
theorem Edits.distance_le (h : Edits n a b) : distance a b ≤ n := by
  induction h with
  | none a => rw [distance_self]
  | first hedit _ ih => exact (hedit.distance_le _).trans (Nat.add_le_add_right ih 1)

theorem isLeast_distance (a b : List Char) : IsLeast {n | Edits n a b} (distance a b) :=
  ⟨edits_distance a b, fun _ h => Edits.distance_le h⟩

end Recurrence

/-! ## Rows -/

section Rows

variable (p : List Char)

/-- The distances of `p` to the words that go on from `q` by one character after the other; the words are read
backwards, latest character first. -/
def cells : List Char → List Char → List Nat
  | _, [] => []
  | q, t :: ts => distance p (t :: q) :: cells (t :: q) ts

/-- The distances of `p`, read backwards, to all prefixes of a word. -/
def distances (target : List Char) : List Nat := distance p [] :: cells p [] target

/-- Right of the distances of `p` and of `c :: p` to `q`, and below those of `p`, come the distances of `c :: p`. -/
theorem rowTail_cells (c : Char) (q ts : List Char) :
    rowTail c ts (distance p q) (distance (c :: p) q) (cells p q ts) = cells (c :: p) q ts := by
  induction ts generalizing q with
  | nil => rfl
  | cons t ts ih => rw [cells, cells, rowTail, ← distance_cons_cons, ih]

theorem nextRow_distances (target : List Char) (c : Char) :
    nextRow target (distances p target) c = distances (c :: p) target := by
  have hfirst : distance p [] + 1 = distance (c :: p) [] := by simp
  rw [distances, nextRow, hfirst, rowTail_cells, distances]

/-- After some characters the row is that of the prefix they make. -/
theorem foldl_nextRow_distances (target cs : List Char) :
    cs.foldl (nextRow target) (distances p target) = distances (cs.reverse ++ p) target := by
  induction cs generalizing p with
  | nil => rfl
  | cons c cs ih =>
    rw [List.foldl_cons, nextRow_distances, ih, List.reverse_cons, List.append_assoc, List.singleton_append]

theorem cells_nil_left (q ts : List Char) : cells [] q ts = List.range' (q.length + 1) ts.length := by
  induction ts generalizing q with
  | nil => rfl
  | cons t ts ih => rw [cells, ih, distance_nil_left, List.length_cons, List.length_cons, List.range'_succ]

theorem firstRow_eq (target : List Char) : firstRow target = distances [] target := by
  rw [firstRow, distances, cells_nil_left, distance_nil_left, List.range_eq_range', List.range'_succ, List.length_nil]

theorem getLastD_cells (q ts : List Char) : (cells p q ts).getLastD (distance p q) = distance p (ts.reverse ++ q) := by
  induction ts generalizing q with
  | nil => rfl
  | cons t ts ih => rw [cells, List.getLastD_cons, ih, List.reverse_cons, List.append_assoc, List.singleton_append]

end Rows

/-! ## The edit distance -/

/-- The rows end with the distance of the whole words. -/
theorem editDistance_eq (a b : String) : editDistance a b = distance a.toList.reverse b.toList.reverse := by
  rw [editDistance, firstRow_eq, foldl_nextRow_distances, distances, List.getLastD_cons, getLastD_cells,
    List.append_nil, List.append_nil]

theorem isLeast_editDistance (a b : String) : IsLeast {n | Edits n a.toList b.toList} (editDistance a b) := by
  have h := isLeast_distance a.toList.reverse b.toList.reverse
  simp only [edits_reverse_iff] at h
  rwa [editDistance_eq]

theorem editDistance_comm (a b : String) : editDistance a b = editDistance b a :=
  Nat.le_antisymm ((isLeast_editDistance a b).2 (isLeast_editDistance b a).1.symm)
    ((isLeast_editDistance b a).2 (isLeast_editDistance a b).1.symm)

theorem editDistance_eq_zero_iff {a b : String} : editDistance a b = 0 ↔ a = b := by
  rw [← String.toList_inj, ← edits_zero_iff]
  exact ⟨fun h => h ▸ (isLeast_editDistance a b).1, fun h => Nat.le_zero.1 ((isLeast_editDistance a b).2 h)⟩

theorem editDistance_triangle (a b c : String) : editDistance a c ≤ editDistance a b + editDistance b c :=
  (isLeast_editDistance a c).2 ((isLeast_editDistance a b).1.trans (isLeast_editDistance b c).1)

/-- The edit distance is the length of a shortest script from one text to the other: there is a script of this length,
and none is shorter. So it is a metric. -/
theorem editDistance_minimal :
    (∀ a b, IsLeast {n | Edits n a.toList b.toList} (editDistance a b)) ∧
      (∀ a b, editDistance a b = editDistance b a) ∧
      (∀ a b, editDistance a b = 0 ↔ a = b) ∧
      ∀ a b c, editDistance a c ≤ editDistance a b + editDistance b c :=
  ⟨isLeast_editDistance, editDistance_comm, fun _ _ => editDistance_eq_zero_iff, editDistance_triangle⟩

example : editDistance "kitten" "sitting" = 3 := by decide

end QueryBatch.Text
