import Mathlib.Data.List.Forall2
import QueryBatch.Proofs.Text.Words

/-!
# Lower case is settled

What the tables of letters say about the lower case of a character: it is a lower-case letter that has no lower case of
its own.

* `runBits`, `rangeBits`: tables as numbers with a bit for each code point. `settledBits_and_capitalBits` and the two
  facts behind it compare whole tables so.
* `IsSettled`: a lower-case letter that is its own lower case. `isSettled_ofNat`: the table gives such letters only.
* `IsFixedCapital`: a capital without a lower case.
* `Lowers`: what a character becomes. `lowers_lowerFrom`: so do all characters of a text but `İ`, which has a lower
  case of two characters.
-/

namespace QueryBatch.Text

/-! ## Sets of code points -/

/-- The bits that one of the numbers has. -/
def unionBits (masks : List Nat) : Nat := masks.foldr (· ||| ·) 0

theorem testBit_unionBits {masks : List Nat} {n : Nat} :
    (unionBits masks).testBit n = true ↔ ∃ m ∈ masks, m.testBit n = true := by
  induction masks with
  | nil => simp [unionBits]
  | cons m masks ih =>
    show (m ||| unionBits masks).testBit n = true ↔ _
    simp [Nat.testBit_or, ih]

/-- As many bits, each `step` above the one before, from the lowest bit on. -/
def stepBits (step : Nat) : (count : Nat) → Nat
  | 0 => 0
  | count + 1 => (stepBits step count <<< step) ||| 1

theorem testBit_stepBits {step count i : Nat} (h : i < count) : (stepBits step count).testBit (step * i) = true := by
  induction count generalizing i with
  | zero => exact absurd h (Nat.not_lt_zero i)
  | succ count ih =>
    rw [stepBits, Nat.testBit_or, Bool.or_eq_true]
    cases i with
    | zero => exact .inr (by rw [Nat.mul_zero, Nat.testBit_zero]; rfl)
    | succ i =>
      refine .inl ?_
      rw [Nat.mul_succ, Nat.testBit_shiftLeft, Nat.add_sub_cancel, ih (Nat.lt_of_succ_lt_succ h), Bool.and_true]
      exact decide_eq_true (Nat.le_add_left step _)

theorem le_of_inRun {first last step n : Nat} (h : inRun first last step n = true) :
    first ≤ n ∧ n ≤ last ∧ (n - first) % step = 0 := by
  simpa [inRun, and_assoc] using h

/-- The code points of a run as bits, moved so that the first is at `start`. -/
def runBits (first last step start : Nat) : Nat := stepBits step ((last - first) / step + 1) <<< start

theorem testBit_runBits {first last step n : Nat} (h : inRun first last step n = true) (start : Nat) :
    (runBits first last step start).testBit (start + (n - first)) = true := by
  obtain ⟨hfirst, hlast, hstep⟩ := le_of_inRun h
  have hcount : (n - first) / step ≤ (last - first) / step := Nat.div_le_div_right (by omega)
  have hwhole : n - first = step * ((n - first) / step) := by
    have hdivision := Nat.div_add_mod (n - first) step
    omega
  have hbit : (stepBits step ((last - first) / step + 1)).testBit (step * ((n - first) / step)) = true :=
    testBit_stepBits (Nat.lt_succ_of_le hcount)
  rw [← hwhole] at hbit
  rw [runBits, Nat.testBit_shiftLeft, Nat.add_sub_cancel_left, hbit, Bool.and_true]
  exact decide_eq_true (Nat.le_add_right start _)

theorem testBit_runBits_self {first last step n : Nat} (h : inRun first last step n = true) :
    (runBits first last step first).testBit n = true := by
  have hbit := testBit_runBits h first
  rwa [Nat.add_sub_cancel' (le_of_inRun h).1] at hbit

/-- Closed ranges as bits. -/
def rangeBits (ranges : List (Nat × Nat)) : Nat :=
  unionBits (ranges.map fun r => (1 <<< (r.2 + 1 - r.1) - 1) <<< r.1)

theorem exists_of_testBit_rangeBits {ranges : List (Nat × Nat)} {n : Nat} (h : (rangeBits ranges).testBit n = true) :
    ∃ r ∈ ranges, r.1 ≤ n ∧ n ≤ r.2 := by
  obtain ⟨_, hmask, hbit⟩ := testBit_unionBits.1 h
  obtain ⟨r, hr, rfl⟩ := List.mem_map.1 hmask
  rw [Nat.testBit_shiftLeft, Nat.one_shiftLeft, Nat.testBit_two_pow_sub_one, Bool.and_eq_true, decide_eq_true_eq,
    decide_eq_true_eq] at hbit
  exact ⟨r, hr, hbit.1, by omega⟩

/-! ## The tables -/

/-- The code point at a distance from another one. -/
def shiftPoint (distance : Int) (n : Nat) : Nat := (n + distance).toNat

/-- The capitals. -/
def capitalBits : Nat := unionBits (uppercaseRuns.map fun r => runBits r.1 r.2.1 r.2.2 r.1)

/-- The characters whose lower case is another character. -/
def loweredBits : Nat := unionBits (lowercaseRuns.map fun r => runBits r.1 r.2.1 r.2.2.1 r.1)

/-- Their lower case. -/
def settledBits : Nat :=
  unionBits (lowercaseRuns.map fun r => runBits r.1 r.2.1 r.2.2.1 (shiftPoint r.2.2.2 r.1))

/-- A lower case is no capital, has no other lower case, and is a letter. -/
theorem settledBits_and_capitalBits : settledBits &&& capitalBits = 0 := by decide +kernel

theorem settledBits_and_loweredBits : settledBits &&& loweredBits = 0 := by decide +kernel

theorem settledBits_and_rangeBits : settledBits &&& rangeBits alphabeticRanges = settledBits := by decide +kernel

/-- No code point of a letter is that of a digit, and all are those of characters. -/
theorem alphabeticRanges_bounds : ∀ r ∈ alphabeticRanges,
    57 < r.1 ∧ (r.2 < 0xD800 ∨ 0xDFFF < r.1 ∧ r.2 < 0x110000) := by decide +kernel

theorem lowercaseRuns_bounds : ∀ r ∈ lowercaseRuns, 57 < r.1 ∧ 0 ≤ r.1 + r.2.2.2 := by decide +kernel

/-! ## Single characters -/

section Characters

variable {c d : Char} {n : Nat} {r : Nat × Nat × Nat × Int}

theorem le_of_isDigit (h : c.isDigit = true) : c.toNat ≤ 57 := (Char.isDigit_iff_toNat.1 h).2

theorem testBit_capitalBits (h : isUppercase c = true) : capitalBits.testBit c.toNat = true := by
  obtain ⟨r, hr, hrun⟩ := List.any_eq_true.1 h
  exact testBit_unionBits.2 ⟨_, List.mem_map_of_mem hr, testBit_runBits_self hrun⟩

theorem testBit_loweredBits (hr : r ∈ lowercaseRuns) (h : inRun r.1 r.2.1 r.2.2.1 n = true) :
    loweredBits.testBit n = true :=
  testBit_unionBits.2 ⟨_, List.mem_map_of_mem hr, testBit_runBits_self h⟩

theorem testBit_settledBits (hr : r ∈ lowercaseRuns) (h : inRun r.1 r.2.1 r.2.2.1 n = true) :
    settledBits.testBit (shiftPoint r.2.2.2 n) = true := by
  have hfirst := (le_of_inRun h).1
  have hstart : shiftPoint r.2.2.2 n = shiftPoint r.2.2.2 r.1 + (n - r.1) := by
    have hpos := (lowercaseRuns_bounds r hr).2
    unfold shiftPoint
    omega
  rw [hstart]
  exact testBit_unionBits.2 ⟨_, List.mem_map_of_mem hr, testBit_runBits h _⟩

/-- A code point has no bit in common to two numbers that have none in common. -/
theorem testBit_eq_false {a b : Nat} (h : a &&& b = 0) (ha : a.testBit n = true) : b.testBit n = false := by
  have hnone : (a &&& b).testBit n = false := by rw [h, Nat.zero_testBit]
  rwa [Nat.testBit_and, ha, Bool.true_and] at hnone

theorem isUppercase_dotted : isUppercase 'İ' = true := rfl

/-- A lower-case letter that is its own lower case. -/
structure IsSettled (c : Char) : Prop where
  letterClass_eq : letterClass c = .lower
  lowerChar_eq : lowerChar c = [c]

/-- The run that has the lower case of a character, if it is another character. -/
def loweringRun? (c : Char) : Option (Nat × Nat × Nat × Int) :=
  lowercaseRuns.find? fun r => inRun r.1 r.2.1 r.2.2.1 c.toNat

theorem lowerChar_eq_elim (hc : c ≠ 'İ') :
    lowerChar c = (loweringRun? c).elim [c] fun r => [Char.ofNat (shiftPoint r.2.2.2 c.toNat)] := by
  rw [lowerChar, if_neg hc]
  split
  · rename_i hrun
    have hfound : loweringRun? c = some _ := hrun
    rw [hfound]
    rfl
  · rename_i hrun
    have hnone : loweringRun? c = none := hrun
    rw [hnone]
    rfl

theorem lowerChar_of_forall_not_inRun (hc : c ≠ 'İ')
    (h : ∀ r ∈ lowercaseRuns, inRun r.1 r.2.1 r.2.2.1 c.toNat = false) : lowerChar c = [c] := by
  have hnone : loweringRun? c = none := List.find?_eq_none.2 fun r hr => Bool.eq_false_iff.1 (h r hr)
  rw [lowerChar_eq_elim hc, hnone]
  rfl

theorem isSettled_ofNat (h : settledBits.testBit n = true) : IsSettled (Char.ofNat n) := by
  have hletter : (settledBits &&& rangeBits alphabeticRanges).testBit n = true := by rwa [settledBits_and_rangeBits]
  rw [Nat.testBit_and, Bool.and_eq_true] at hletter
  obtain ⟨r, hr, hfirst, hlast⟩ := exists_of_testBit_rangeBits hletter.2
  obtain ⟨hdigits, hvalid⟩ := alphabeticRanges_bounds r hr
  have hn : (Char.ofNat n).toNat = n := by
    rw [Char.ofNat, dif_pos (by unfold Nat.isValidChar; omega)]
    rfl
  have hdigit : ¬(Char.ofNat n).isDigit = true := fun hd => by have := le_of_isDigit hd; omega
  have hupper : ¬isUppercase (Char.ofNat n) = true := fun hu => by
    have hbit := testBit_capitalBits hu
    rw [hn, testBit_eq_false settledBits_and_capitalBits h] at hbit
    exact Bool.false_ne_true hbit
  have halpha : isAlphabetic (Char.ofNat n) = true := by
    refine List.any_eq_true.2 ⟨r, hr, ?_⟩
    rw [hn, Bool.and_eq_true, decide_eq_true_eq, decide_eq_true_eq]
    exact ⟨hfirst, hlast⟩
  have hdotted : Char.ofNat n ≠ 'İ' := fun he => hupper (he ▸ isUppercase_dotted)
  refine ⟨by rw [letterClass, if_neg hdigit, if_neg hupper, if_pos halpha],
    lowerChar_of_forall_not_inRun hdotted fun r' hr' => Bool.eq_false_iff.2 fun hrun => ?_⟩
  have hbit := testBit_loweredBits hr' hrun
  rw [hn, testBit_eq_false settledBits_and_loweredBits h] at hbit
  exact Bool.false_ne_true hbit

/-- Digits have no other lower case. -/
theorem lowerChar_of_isDigit (h : c.isDigit = true) : lowerChar c = [c] := by
  have hle := le_of_isDigit h
  refine lowerChar_of_forall_not_inRun (fun he => absurd (he ▸ h) (by decide)) fun r hr => ?_
  have hlt := (lowercaseRuns_bounds r hr).1
  rw [inRun, decide_eq_false (by omega), Bool.false_and, Bool.false_and]

/-- A capital without a lower case. -/
def IsFixedCapital (c : Char) : Prop := letterClass c = .upper ∧ lowerChar c = [c]

instance : DecidablePred IsFixedCapital := fun _ => inferInstanceAs (Decidable (_ ∧ _))

/-- What a character becomes in lower case: it stays, or a settled letter takes its place. -/
def Lowers (c d : Char) : Prop := lowerChar c = [c] ∧ d = c ∨ lowerChar c ≠ [c] ∧ IsSettled d

/-- On its own every character but `İ` becomes just that. -/
theorem exists_lowers (hc : c ≠ 'İ') : ∃ d, lowerChar c = [d] ∧ Lowers c d := by
  by_cases hstays : lowerChar c = [c]
  · exact ⟨c, hstays, .inl ⟨hstays, rfl⟩⟩
  · rw [lowerChar_eq_elim hc]
    cases hrun : loweringRun? c with
    | none => exact absurd (by rw [lowerChar_eq_elim hc, hrun]; rfl) hstays
    | some r =>
      have hbit := testBit_settledBits (List.mem_of_find?_eq_some hrun) (List.find?_some hrun :)
      exact ⟨_, rfl, .inr ⟨hstays, isSettled_ofNat hbit⟩⟩

theorem IsSettled.isWordChar (h : IsSettled c) : isWordChar c := isWordChar_iff.2 (by rw [h.letterClass_eq]; decide)

theorem Lowers.isWordChar (h : Lowers c d) (hc : isWordChar c) : isWordChar d := by
  rcases h with ⟨-, rfl⟩ | ⟨-, hd⟩
  · exact hc
  · exact hd.isWordChar

theorem Lowers.lowerChar_eq (h : Lowers c d) : lowerChar d = [d] := by
  rcases h with ⟨hc, rfl⟩ | ⟨-, hd⟩
  · exact hc
  · exact hd.lowerChar_eq

/-- Only a capital without a lower case leaves a capital. -/
theorem Lowers.letterClass_eq_upper_iff (h : Lowers c d) : letterClass d = .upper ↔ IsFixedCapital c := by
  rcases h with ⟨hc, rfl⟩ | ⟨hc, hd⟩
  · exact ⟨fun hupper => ⟨hupper, hc⟩, fun hfixed => hfixed.1⟩
  · rw [hd.letterClass_eq]
    exact iff_of_false (by decide) fun hfixed => hc hfixed.2

/-- Letters do not become digits. -/
theorem Lowers.letterClass_eq_digit_iff (h : Lowers c d) : letterClass d = .digit ↔ letterClass c = .digit := by
  rcases h with ⟨-, rfl⟩ | ⟨hc, hd⟩
  · exact Iff.rfl
  · rw [hd.letterClass_eq]
    refine iff_of_false (by decide) fun hdigit => hc (lowerChar_of_isDigit ?_)
    unfold letterClass at hdigit
    split at hdigit
    · assumption
    · split at hdigit
      · cases hdigit
      · split at hdigit <;> cases hdigit

theorem Lowers.isLetter (h : Lowers c d) (hc : (letterClass c).IsLetter) : (letterClass d).IsLetter := by
  have hword : letterClass c ≠ .separator := fun he => by rcases hc with hc | hc <;> cases he.symm.trans hc
  have hsep : letterClass d ≠ .separator := isWordChar_iff.1 (h.isWordChar (isWordChar_iff.2 hword))
  have hdigit : letterClass d ≠ .digit := fun he =>
    LetterClass.not_isLetter_digit (h.letterClass_eq_digit_iff.1 he ▸ hc)
  cases hclass : letterClass d with
  | separator => exact absurd hclass hsep
  | digit => exact absurd hclass hdigit
  | upper => exact .inl rfl
  | lower => exact .inr rfl

end Characters

/-! ## Texts -/

/-- The letters that the lower case of `İ` and `Σ` is made of. -/
def settledLetters : List Char := ['i', 'σ', 'ς']

theorem isSettled_of_mem {c : Char} (h : c ∈ settledLetters) : IsSettled c := by
  have hall : (settledLetters.all fun c => letterClass c = .lower ∧ lowerChar c = [c]) = true := by decide +kernel
  obtain ⟨hclass, hlower⟩ := of_decide_eq_true (List.all_eq_true.1 hall c h)
  exact ⟨hclass, hlower⟩

theorem isSettled_i : IsSettled 'i' := isSettled_of_mem (by decide)

/-- The dot of an `İ`, the hyphen, and the signs between the names in a path. -/
def separators : List Char := ['\u0307', '-', '.', '/', '\\']

theorem not_isWordChar_of_mem {c : Char} (h : c ∈ separators) : ¬isWordChar c := by
  have hall : (separators.all fun c => !isWordChar c) = true := by decide +kernel
  simpa using List.all_eq_true.1 hall c h

theorem lowerChar_sigma : lowerChar 'Σ' ≠ ['Σ'] := by decide +kernel

theorem lowerChar_dot : lowerChar '\u0307' = ['\u0307'] := by decide +kernel

theorem lowerChar_dotted : lowerChar 'İ' = ['i', '\u0307'] := if_pos rfl

theorem isWordChar_dotted : isWordChar 'İ' := by rw [isWordChar, isUppercase_dotted, Bool.or_true]

section Texts

variable {cs before : List Char} {c d : Char}

theorem lowerFrom_dotted (before cs : List Char) :
    lowerFrom before ('İ' :: cs) = 'i' :: '\u0307' :: lowerFrom ('İ' :: before) cs := by
  rw [lowerFrom, if_neg (by decide), lowerChar_dotted]
  rfl

/-- The first character becomes what it becomes on its own, save that a sigma may be a final one. -/
theorem exists_lowerFrom_cons (hc : c ≠ 'İ') (before cs : List Char) :
    ∃ d, Lowers c d ∧ lowerFrom before (c :: cs) = d :: lowerFrom (c :: before) cs := by
  rw [lowerFrom]
  split
  · rename_i hsigma
    rw [hsigma]
    refine ⟨_, .inr ⟨lowerChar_sigma, ?_⟩, rfl⟩
    split
    · exact isSettled_of_mem (by decide)
    · exact isSettled_of_mem (by decide)
  · obtain ⟨d, hd, hlowers⟩ := exists_lowers hc
    rw [hd]
    exact ⟨d, hlowers, rfl⟩

theorem lowers_lowerFrom (h : 'İ' ∉ cs) (before : List Char) : List.Forall₂ Lowers cs (lowerFrom before cs) := by
  induction cs generalizing before with
  | nil => exact .nil
  | cons c cs ih =>
    rw [List.mem_cons, not_or] at h
    obtain ⟨d, hlowers, hrest⟩ := exists_lowerFrom_cons (Ne.symm h.1) before cs
    rw [hrest]
    exact .cons hlowers (ih h.2 _)

/-- The lower case of `İ` leaves its dot. -/
theorem dot_mem_lowerFrom (h : 'İ' ∈ cs) (before : List Char) : '\u0307' ∈ lowerFrom before cs := by
  induction cs generalizing before with
  | nil => cases h
  | cons c cs ih =>
    by_cases hc : c = 'İ'
    · rw [hc, lowerFrom_dotted]
      exact List.mem_cons_of_mem _ List.mem_cons_self
    · obtain ⟨d, -, hrest⟩ := exists_lowerFrom_cons hc before cs
      rw [hrest]
      exact List.mem_cons_of_mem _ (ih ((List.mem_cons.1 h).resolve_left (Ne.symm hc)) _)

/-- What stands in a text in lower case is the dot of an `İ`, a settled letter, or a character of the text that is its
own lower case. -/
theorem cases_of_mem_lowerFrom (h : d ∈ lowerFrom before cs) :
    d = '\u0307' ∨ IsSettled d ∨ d ∈ cs ∧ lowerChar d = [d] := by
  induction cs generalizing before with
  | nil => cases h
  | cons c cs ih =>
    by_cases hc : c = 'İ'
    · rw [hc, lowerFrom_dotted, List.mem_cons, List.mem_cons] at h
      rcases h with rfl | rfl | hrest
      · exact .inr (.inl isSettled_i)
      · exact .inl rfl
      · exact (ih hrest).imp_right (Or.imp_right (And.imp_left (List.mem_cons_of_mem c)))
    · obtain ⟨d', hlowers, hcons⟩ := exists_lowerFrom_cons hc before cs
      rw [hcons, List.mem_cons] at h
      rcases h with rfl | hrest
      · rcases hlowers with ⟨hstays, rfl⟩ | ⟨-, hd⟩
        · exact .inr (.inr ⟨List.mem_cons_self, hstays⟩)
        · exact .inr (.inl hd)
      · exact (ih hrest).imp_right (Or.imp_right (And.imp_left (List.mem_cons_of_mem c)))

theorem lowerChar_of_mem_lowerFrom (h : d ∈ lowerFrom before cs) : lowerChar d = [d] := by
  rcases cases_of_mem_lowerFrom h with rfl | hd | ⟨-, hd⟩
  · exact lowerChar_dot
  · exact hd.lowerChar_eq
  · exact hd

/-- Characters that are their own lower case stay in a text. -/
theorem lowerFrom_eq_self (h : ∀ c ∈ cs, lowerChar c = [c]) (before : List Char) : lowerFrom before cs = cs := by
  induction cs generalizing before with
  | nil => rfl
  | cons c cs ih =>
    obtain ⟨hc, hcs⟩ := List.forall_mem_cons.1 h
    have hsigma : c ≠ 'Σ' := fun he => lowerChar_sigma (he ▸ hc)
    rw [lowerFrom, if_neg hsigma, hc, ih hcs]
    rfl

/-- A word in lower case has no other separators than the dots of its `İ`. -/
theorem isWordChar_of_mem_lowercase (h : ∀ c ∈ cs, isWordChar c) (hd : d ∈ lowercase cs) :
    isWordChar d ∨ d = '\u0307' := by
  rcases cases_of_mem_lowerFrom hd with rfl | hd | ⟨hmem, -⟩
  · exact .inr rfl
  · exact .inl hd.isWordChar
  · exact .inl (h d hmem)

/-- A word in lower case starts with a letter or a digit. -/
theorem exists_lowercase_eq_cons (hc : isWordChar c) (cs : List Char) :
    ∃ d rest, lowercase (c :: cs) = d :: rest ∧ isWordChar d := by
  by_cases hdotted : c = 'İ'
  · exact ⟨_, _, hdotted ▸ lowerFrom_dotted [] cs, isSettled_i.isWordChar⟩
  · obtain ⟨d, hlowers, hcons⟩ := exists_lowerFrom_cons hdotted [] cs
    exact ⟨d, _, hcons, hlowers.isWordChar hc⟩

end Texts

end QueryBatch.Text
