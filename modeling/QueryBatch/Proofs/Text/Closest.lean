import QueryBatch.Text.EditDistance

/-!
# The closest candidate

* `IsClosest`: a candidate that stands first among those at the least distance from a name. There is one among any
  candidates (`exists_isClosest`), and only one (`IsClosest.unique`).
* `keeps_foldl`: it is what the search keeps.
* `isClosest_of_closestMatch`: `closestMatch` yields such a candidate, below the threshold.
* `closestMatch_iff_isClosest`: it yields the closest candidate just if that is below the threshold, and nothing just if
  no candidate is.
-/

namespace QueryBatch.Text

variable {name : String}

/-- A candidate is the first of those at the least distance from a name. -/
def IsClosest (name : String) (candidates : List String) (candidate : String) : Prop :=
  ∃ before after, candidates = before ++ candidate :: after ∧
    (∀ other ∈ before, editDistance name candidate < editDistance name other) ∧
    ∀ other ∈ after, editDistance name candidate ≤ editDistance name other

theorem IsClosest.mem {candidates : List String} {candidate : String} (h : IsClosest name candidates candidate) :
    candidate ∈ candidates := by
  obtain ⟨before, after, rfl, -, -⟩ := h
  exact List.mem_append_right _ List.mem_cons_self

/-- No candidate is nearer than the closest one. -/
theorem IsClosest.le {candidates : List String} {candidate other : String} (h : IsClosest name candidates candidate)
    (hother : other ∈ candidates) : editDistance name candidate ≤ editDistance name other := by
  obtain ⟨before, after, rfl, hbefore, hafter⟩ := h
  rcases List.mem_append.1 hother with hother | hother
  · exact Nat.le_of_lt (hbefore other hother)
  · rcases List.mem_cons.1 hother with rfl | hother
    · exact Nat.le_refl _
    · exact hafter other hother

theorem IsClosest.unique {candidates : List String} {candidate other : String} (h : IsClosest name candidates candidate)
    (hother : IsClosest name candidates other) : candidate = other := by
  have hle := h.le hother.mem
  have hge := hother.le h.mem
  obtain ⟨before, after, rfl, hbefore, -⟩ := h
  obtain ⟨before', after', heq, hbefore', -⟩ := hother
  -- the one that stands behind the other would be nearer
  rcases List.append_eq_append_iff.1 heq with ⟨between, rfl, htail⟩ | ⟨between, rfl, htail⟩
  · cases between with
    | nil => exact (List.cons.inj htail).1
    | cons first between =>
      have hlt := hbefore' candidate (List.mem_append_right _ ((List.cons.inj htail).1 ▸ List.mem_cons_self))
      omega
  · cases between with
    | nil => exact (List.cons.inj htail).1.symm
    | cons first between =>
      have hlt := hbefore other (List.mem_append_right _ ((List.cons.inj htail).1 ▸ List.mem_cons_self))
      omega

/-- What is kept of the candidates so far: nothing while there are none, else the closest one with its distance. -/
def Keeps (name : String) (candidates : List String) : Option (String × Nat) → Prop
  | none => candidates = []
  | some (best, least) => IsClosest name candidates best ∧ least = editDistance name best

/-- One more candidate is kept if it is nearer. -/
theorem keeps_nearer {candidates : List String} {best : Option (String × Nat)} (h : Keeps name candidates best)
    (candidate : String) : Keeps name (candidates ++ [candidate]) (nearer name best candidate) := by
  cases best with
  | none =>
    cases h
    exact ⟨⟨[], [], rfl, nofun, nofun⟩, rfl⟩
  | some best =>
    obtain ⟨best, least⟩ := best
    obtain ⟨⟨before, after, rfl, hbefore, hafter⟩, rfl⟩ := h
    unfold nearer
    dsimp only
    split
    · rename_i hlt
      refine ⟨⟨before ++ best :: after, [], rfl, fun other hother => ?_, nofun⟩, rfl⟩
      rcases List.mem_append.1 hother with hother | hother
      · exact Nat.lt_trans hlt (hbefore other hother)
      · rcases List.mem_cons.1 hother with rfl | hother
        · exact hlt
        · exact Nat.lt_of_lt_of_le hlt (hafter other hother)
    · rename_i hge
      refine ⟨⟨before, after ++ [candidate], by simp, hbefore, fun other hother => ?_⟩, rfl⟩
      rcases List.mem_append.1 hother with hother | hother
      · exact hafter other hother
      · rw [List.mem_singleton.1 hother]
        exact Nat.le_of_not_lt hge

theorem keeps_foldl {seen : List String} {best : Option (String × Nat)} (h : Keeps name seen best)
    (candidates : List String) : Keeps name (seen ++ candidates) (candidates.foldl (nearer name) best) := by
  induction candidates generalizing seen best with
  | nil => rwa [List.append_nil]
  | cons candidate rest ih =>
    rw [List.append_cons]
    exact ih (keeps_nearer h candidate)

theorem keeps_closest (name : String) (candidates : List String) :
    Keeps name candidates (candidates.foldl (nearer name) none) := by
  have hstart : Keeps name [] none := rfl
  exact keeps_foldl hstart candidates

section Match

variable {candidates : List String} {candidate : String} {threshold : Nat}

theorem exists_isClosest (name : String) (h : candidates ≠ []) : ∃ candidate, IsClosest name candidates candidate := by
  have hkept := keeps_closest name candidates
  cases hbest : candidates.foldl (nearer name) none with
  | none =>
    rw [hbest] at hkept
    exact absurd hkept h
  | some best =>
    rw [hbest] at hkept
    exact ⟨best.1, hkept.1⟩

/-- The closest candidate is compared with the threshold. -/
theorem closestMatch_of_isClosest (h : IsClosest name candidates candidate) (threshold : Nat) :
    closestMatch name candidates threshold =
      if editDistance name candidate < threshold then some candidate else none := by
  have hkept := keeps_closest name candidates
  rw [closestMatch]
  cases hbest : candidates.foldl (nearer name) none with
  | none =>
    rw [hbest] at hkept
    exact absurd hkept (List.ne_nil_of_mem h.mem)
  | some best =>
    rw [hbest] at hkept
    obtain ⟨hclosest, hleast⟩ := hkept
    dsimp only
    rw [hleast, hclosest.unique h]

/-- The match is the closest candidate, and below the threshold. -/
theorem isClosest_of_closestMatch (h : closestMatch name candidates threshold = some candidate) :
    IsClosest name candidates candidate ∧ editDistance name candidate < threshold := by
  have hne : candidates ≠ [] := by
    rintro rfl
    cases h
  obtain ⟨closest, hclosest⟩ := exists_isClosest name hne
  rw [closestMatch_of_isClosest hclosest] at h
  split at h
  · rename_i hlt
    cases h
    exact ⟨hclosest, hlt⟩
  · cases h

theorem closestMatch_eq_some_iff : closestMatch name candidates threshold = some candidate ↔
    IsClosest name candidates candidate ∧ editDistance name candidate < threshold := by
  refine ⟨isClosest_of_closestMatch, ?_⟩
  rintro ⟨hclosest, hlt⟩
  rw [closestMatch_of_isClosest hclosest, if_pos hlt]

theorem closestMatch_eq_none_iff : closestMatch name candidates threshold = none ↔
    ∀ candidate ∈ candidates, threshold ≤ editDistance name candidate := by
  constructor
  · intro h candidate hcandidate
    obtain ⟨closest, hclosest⟩ := exists_isClosest name (List.ne_nil_of_mem hcandidate)
    rw [closestMatch_of_isClosest hclosest] at h
    split at h
    · cases h
    · rename_i hge
      exact Nat.le_trans (Nat.le_of_not_lt hge) (hclosest.le hcandidate)
  · intro h
    cases hmatch : closestMatch name candidates threshold with
    | none => rfl
    | some candidate =>
      obtain ⟨hclosest, hlt⟩ := isClosest_of_closestMatch hmatch
      exact absurd hlt (Nat.not_lt.2 (h candidate hclosest.mem))

/-- A candidate that is found is found under every higher threshold. -/
theorem closestMatch_mono {higher : Nat} (hle : threshold ≤ higher)
    (h : closestMatch name candidates threshold = some candidate) :
    closestMatch name candidates higher = some candidate := by
  obtain ⟨hclosest, hlt⟩ := isClosest_of_closestMatch h
  exact closestMatch_eq_some_iff.2 ⟨hclosest, Nat.lt_of_lt_of_le hlt hle⟩

end Match

/-- The match is the first of the candidates at the least distance, just if that distance is below the threshold. There
is none just if all candidates are as far as the threshold or further. A higher threshold leaves a match as it is. -/
theorem closestMatch_iff_isClosest (name : String) (candidates : List String) (threshold : Nat) :
    (∀ candidate, closestMatch name candidates threshold = some candidate ↔
      IsClosest name candidates candidate ∧ editDistance name candidate < threshold) ∧
    (closestMatch name candidates threshold = none ↔
      ∀ candidate ∈ candidates, threshold ≤ editDistance name candidate) ∧
    ∀ candidate higher, threshold ≤ higher → closestMatch name candidates threshold = some candidate →
      closestMatch name candidates higher = some candidate :=
  ⟨fun _ => closestMatch_eq_some_iff, closestMatch_eq_none_iff, fun _ _ => closestMatch_mono⟩

/-- Of two candidates at one distance the first is found, under both thresholds. -/
theorem closestMatch_tie : 2 ≤ 10 ∧ closestMatch "ab" ["cd", "aa", "bb"] 2 = some "aa" ∧
    closestMatch "ab" ["cd", "aa", "bb"] 10 = some "aa" := by
  have hmatch : closestMatch "ab" ["cd", "aa", "bb"] 2 = some "aa" := by decide
  have hle : 2 ≤ 10 := by decide
  exact ⟨hle, hmatch, (closestMatch_iff_isClosest "ab" ["cd", "aa", "bb"] 2).2.2 "aa" 10 hle hmatch⟩

end QueryBatch.Text
