import QueryBatch.Text.Number

/-!
# A number keeps its length

What is read as one number is read as that number wherever it is written, as long as what follows cannot go on with it.

* `EndsNumber`: what may follow a number.
* `numberLength_append`: the length of a number does not depend on what follows.
-/

namespace QueryBatch.Text

/-- Characters that do not go on with a number. -/
def EndsNumber (rest : List Char) : Prop :=
  ∀ c, rest.head? = some c → c.isDigit = false ∧ c ≠ '.' ∧ c ≠ 'e' ∧ c ≠ 'E'

section Parts

variable {w rest rest' : List Char}

/-- A run that ends inside a word, or with it, does not depend on what follows. -/
theorem run_append {p : Char → Bool} (h : run p (w ++ rest) ≤ w.length)
    (hp : ∀ c, rest'.head? = some c → p c = false) : run p (w ++ rest') = run p (w ++ rest) := by
  induction w with
  | nil =>
    have h0 : run p rest = 0 := Nat.le_zero.1 h
    cases rest' with
    | nil => exact h0.symm
    | cons c rest' =>
      have hc := hp c rfl
      simp only [run, List.nil_append] at h0 ⊢
      simp [hc, h0]
  | cons c w ih =>
    by_cases hc : p c = true
    · simp only [run, List.cons_append, List.takeWhile_cons, hc, if_true, List.length_cons] at h ⊢
      have := ih (by simp only [run]; omega)
      simp only [run] at this
      omega
    · simp [run, hc]

theorem integerLength_append {n : Nat} (h : integerLength (w ++ rest) = some n) (hn : n ≤ w.length)
    (he : EndsNumber rest') : integerLength (w ++ rest') = some n := by
  cases w with
  | nil =>
    cases rest with
    | nil => cases h
    | cons c rest =>
      simp only [List.nil_append, integerLength] at h
      split at h
      · cases h
        cases hn
      · split at h
        · cases h
          simp only [List.length_nil] at hn
          omega
        · cases h
  | cons c w =>
    simp only [List.cons_append, integerLength] at h ⊢
    split at h
    · rename_i hc
      simpa [hc] using h
    · rename_i hc
      split at h
      · rename_i hd
        cases h
        have hlength : run Char.isDigit (w ++ rest) ≤ w.length := by
          simp only [List.length_cons] at hn
          omega
        have hr := run_append hlength fun c hc => (he c hc).1
        simp [hc, hd, hr]
      · cases h

theorem fractionLength_other {c : Char} (hc : c ≠ '.') (cs : List Char) : fractionLength (c :: cs) = 0 := by
  rw [fractionLength]
  intro rest h
  exact hc (List.cons.inj h).1

theorem fractionLength_append (h : fractionLength (w ++ rest) ≤ w.length) (he : EndsNumber rest') :
    fractionLength (w ++ rest') = fractionLength (w ++ rest) := by
  cases w with
  | nil =>
    have h0 : fractionLength rest = 0 := Nat.le_zero.1 h
    rw [List.nil_append, List.nil_append, h0]
    cases rest' with
    | nil => rfl
    | cons c rest' => exact fractionLength_other (he c rfl).2.1 rest'
  | cons c w =>
    by_cases hc : c = '.'
    · subst hc
      simp only [List.cons_append, fractionLength, List.length_cons] at h ⊢
      have hr : run Char.isDigit (w ++ rest') = run Char.isDigit (w ++ rest) := by
        refine run_append ?_ fun c hc => (he c hc).1
        split at h <;> omega
      rw [hr]
    · rw [List.cons_append, List.cons_append, fractionLength_other hc, fractionLength_other hc]

theorem exponentLength_append (h : exponentLength (w ++ rest) = w.length) (he : EndsNumber rest') :
    exponentLength (w ++ rest') = w.length := by
  cases w with
  | nil =>
    cases rest' with
    | nil => rfl
    | cons c rest' =>
      obtain ⟨-, -, h1, h2⟩ := he c rfl
      simp [exponentLength, h1, h2]
  | cons e w =>
    simp only [List.cons_append, exponentLength, List.length_cons] at h ⊢
    split at h
    · rename_i hcond
      rw [if_pos hcond]
      split at h
      · cases h
      · rename_i n hrun
        -- the sign, if there is one, is in the word
        have hne : w ≠ [] := by
          rintro rfl
          simp only [List.length_nil] at h
          omega
        obtain ⟨c, w, rfl⟩ := List.exists_cons_of_ne_nil hne
        have hsign : ∀ cs, signLength (c :: w ++ cs) = signLength [c] := fun cs => rfl
        have hle : signLength [c] ≤ 1 := by simp only [signLength]; split <;> omega
        rw [hsign] at hrun h ⊢
        rw [List.drop_append_of_le_length (by simp only [List.length_cons]; omega)] at hrun ⊢
        have hlength : run Char.isDigit ((c :: w).drop (signLength [c]) ++ rest) ≤
            ((c :: w).drop (signLength [c])).length := by
          rw [hrun]
          simp only [List.length_drop, List.length_cons] at h ⊢
          omega
        have hr := run_append hlength fun c hc => (he c hc).1
        rw [hr, hrun]
        simpa using h
    · cases h

end Parts

/-! ## Bounds -/

theorem run_le_length (p : Char → Bool) (cs : List Char) : run p cs ≤ cs.length := (List.takeWhile_prefix p).length_le

theorem integerLength_bounds {cs : List Char} {n : Nat} (h : integerLength cs = some n) : 1 ≤ n ∧ n ≤ cs.length := by
  cases cs with
  | nil => cases h
  | cons c rest =>
    have hr := run_le_length Char.isDigit rest
    simp only [integerLength] at h
    split at h
    · cases h
      simp
    · split at h
      · cases h
        simp only [List.length_cons]
        omega
      · cases h

theorem fractionLength_le (cs : List Char) : fractionLength cs ≤ cs.length := by
  cases cs with
  | nil => exact Nat.le_refl _
  | cons c rest =>
    by_cases hc : c = '.'
    · subst hc
      have hr := run_le_length Char.isDigit rest
      simp only [fractionLength, List.length_cons]
      split <;> omega
    · rw [fractionLength_other hc]
      exact Nat.zero_le _

theorem exponentLength_le (cs : List Char) : exponentLength cs ≤ cs.length := by
  cases cs with
  | nil => exact Nat.le_refl _
  | cons e rest =>
    have hr := run_le_length Char.isDigit (rest.drop (signLength rest))
    simp only [exponentLength, List.length_cons]
    rw [List.length_drop] at hr
    split
    · split <;> omega
    · exact Nat.zero_le _

/-- A number is not empty and ends within the characters it is read from. -/
theorem numberLength_bounds {cs : List Char} {n : Nat} {isInteger : Bool} (h : numberLength cs = some (n, isInteger)) :
    1 ≤ n ∧ n ≤ cs.length := by
  simp only [numberLength, Option.map_eq_some_iff, Prod.mk.injEq] at h
  obtain ⟨whole, hw, hlen, -⟩ := h
  generalize (if cs.head? = some '-' then 1 else 0) = sign at hw hlen
  have h1 := integerLength_bounds hw
  have h2 := fractionLength_le (cs.drop (sign + whole))
  have h3 := exponentLength_le (cs.drop (sign + whole + fractionLength (cs.drop (sign + whole))))
  rw [List.length_drop] at h1 h2 h3
  omega

/-! ## Numbers in other places -/

/-- The length of a number does not depend on what follows, as long as that does not go on with it. -/
theorem numberLength_append {w rest rest' : List Char} {isInteger : Bool}
    (h : numberLength (w ++ rest) = some (w.length, isInteger)) (he : EndsNumber rest') :
    numberLength (w ++ rest') = some (w.length, isInteger) := by
  have hne : w ≠ [] := by
    rintro rfl
    cases (numberLength_bounds h).1
  simp only [numberLength, Option.map_eq_some_iff, Prod.mk.injEq] at h
  obtain ⟨whole, hw, hlen, hint⟩ := h
  have hhead : ∀ cs, (w ++ cs).head? = w.head? := fun cs => by
    obtain ⟨c, w, rfl⟩ := List.exists_cons_of_ne_nil hne
    rfl
  rw [hhead] at hw hlen hint
  simp only [numberLength, hhead]
  generalize hs : (if w.head? = some '-' then 1 else 0) = sign at hw hlen hint ⊢
  have hsl : sign ≤ w.length := by omega
  rw [List.drop_append_of_le_length hsl] at hw ⊢
  rw [integerLength_append hw (by rw [List.length_drop]; omega) he]
  rw [List.drop_append_of_le_length (i := sign + whole) (by omega)] at hlen hint
  simp only [Option.map_some, Option.some.injEq, Prod.mk.injEq]
  have hfraction : fractionLength (w.drop (sign + whole) ++ rest) ≤ (w.drop (sign + whole)).length := by
    rw [List.length_drop]
    omega
  rw [List.drop_append_of_le_length (i := sign + whole) (by omega), fractionLength_append hfraction he]
  generalize fractionLength (w.drop (sign + whole) ++ rest) = fraction at hlen hint ⊢
  rw [List.drop_append_of_le_length (i := sign + whole + fraction) (by omega)] at hlen hint ⊢
  have hexp : exponentLength (w.drop (sign + whole + fraction) ++ rest) = (w.drop (sign + whole + fraction)).length := by
    rw [List.length_drop]
    omega
  rw [exponentLength_append hexp he]
  rw [hexp] at hlen hint
  exact ⟨hlen, hint⟩

/-- The number that characters start with is read as one number on its own. -/
theorem numberLength_take {cs : List Char} {n : Nat} {isInteger : Bool} (h : numberLength cs = some (n, isInteger)) :
    numberLength (cs.take n) = some ((cs.take n).length, isInteger) := by
  have hn : (cs.take n).length = n := by
    have := (numberLength_bounds h).2
    rw [List.length_take]
    omega
  have hwhole : numberLength (cs.take n ++ cs.drop n) = some ((cs.take n).length, isInteger) := by
    rw [List.take_append_drop, hn]
    exact h
  have hnil : EndsNumber [] := fun c hc => by cases hc
  simpa using numberLength_append hwhole hnil

end QueryBatch.Text
