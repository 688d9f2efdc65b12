import QueryBatch.Proofs.Document.WellFormed

/-!
# Reading the text of a type

* `isBlank_of_isNameChar`, `trimBlank_eq`: names hold no white space, and what starts and ends without is not trimmed.
* `TypeRef.WellFormed.ofText?_text`: the text of a type without doubled non-null marks stands for that type.
-/

namespace QueryBatch

open Text Token

/-! ## White space -/

theorem isBlank_of_isNameChar {c : Char} (h : isNameChar c = true) : isBlank c = false := by
  simp only [isNameChar, Bool.or_eq_true, beq_iff_eq] at h
  rcases h with rfl | h
  · decide
  · have hcode : ((65 ≤ c.toNat ∧ c.toNat ≤ 90) ∨ (97 ≤ c.toNat ∧ c.toNat ≤ 122)) ∨
        (48 ≤ c.toNat ∧ c.toNat ≤ 57) := by
      delta Char.isAlphanum Char.isAlpha Char.isUpper Char.isLower Char.isDigit at h
      simp only [Bool.or_eq_true, Bool.and_eq_true, decide_eq_true_eq, ge_iff_le, UInt32.le_iff_toNat_le] at h
      exact h
    simp only [isBlank, blankRanges, List.any_cons, List.any_nil, Bool.or_false, Bool.or_eq_false_iff,
      Bool.and_eq_false_iff, decide_eq_false_iff_not]
    omega

theorem isNameChar_of_isNameStart {c : Char} (h : isNameStart c = true) : isNameChar c = true := by
  simp only [isNameStart, isNameChar, Bool.or_eq_true, beq_iff_eq, Char.isAlphanum] at h ⊢
  rcases h with h | h
  · exact .inl h
  · exact .inr (.inl h)

theorem dropWhile_eq_of_head {p : Char → Bool} {cs : List Char} (h : ∀ c, cs.head? = some c → p c = false) :
    cs.dropWhile p = cs := by
  cases cs with
  | nil => rfl
  | cons c cs => rw [List.dropWhile_cons, h c rfl, if_neg Bool.false_ne_true]

/-- Characters that neither start nor end with white space are not trimmed. -/
theorem trimBlank_eq {cs : List Char} (hhead : ∀ c, cs.head? = some c → isBlank c = false)
    (hlast : ∀ c, cs.getLast? = some c → isBlank c = false) : trimBlank cs = cs := by
  have hback : cs.reverse.dropWhile isBlank = cs.reverse :=
    dropWhile_eq_of_head fun c hc => hlast c (by rwa [List.head?_reverse] at hc)
  rw [trimBlank, trimBoth, dropWhile_eq_of_head hhead, hback, List.reverse_reverse]

/-! ## Types -/

namespace TypeRef

/-- The text of a type starts with a name or a bracket. -/
theorem WellFormed.head?_text {t : TypeRef} (h : t.WellFormed) :
    ∃ c, t.text.toList.head? = some c ∧ (isNameStart c = true ∨ c = '[') := by
  induction h with
  | named hn =>
    obtain ⟨c, rest, hs, hc, -⟩ := hn
    exact ⟨c, by rw [text, hs]; rfl, .inl hc⟩
  | list hi ih => exact ⟨'[', by simp [text], .inr rfl⟩
  | nonNull hn hi ih =>
    obtain ⟨c, hc, hkind⟩ := ih
    exact ⟨c, by rw [text, String.toList_append, List.head?_append, hc]; rfl, hkind⟩

/-- The text of a type ends with a name, a bracket or a mark. -/
theorem WellFormed.getLast?_text {t : TypeRef} (h : t.WellFormed) :
    ∃ c, t.text.toList.getLast? = some c ∧ (isNameChar c = true ∨ c = ']' ∨ c = '!') ∧
      (t.isNonNull = false → c ≠ '!') := by
  cases h with
  | named hn =>
    obtain ⟨c, rest, hs, hc, hrest⟩ := hn
    have hall : ∀ d ∈ c :: rest, isNameChar d = true := by
      simp only [List.forall_mem_cons]
      exact ⟨isNameChar_of_isNameStart hc, List.all_eq_true.1 hrest⟩
    have hlast : isNameChar ((c :: rest).getLast (List.cons_ne_nil _ _)) = true := hall _ (List.getLast_mem _)
    refine ⟨_, by rw [text, hs]; exact List.getLast?_eq_some_getLast _, .inl hlast, fun _ he => ?_⟩
    rw [he] at hlast
    exact absurd hlast (by decide)
  | list hi =>
    refine ⟨']', ?_, .inr (.inl rfl), fun _ => by decide⟩
    rw [text, String.toList_append, List.getLast?_append]
    rfl
  | nonNull hn hi => exact ⟨'!', by simp [text], .inr (.inr rfl), fun h => absurd h (by simp [isNonNull])⟩

theorem WellFormed.trimBlank_text {t : TypeRef} (h : t.WellFormed) : trimBlank t.text.toList = t.text.toList := by
  refine trimBlank_eq (fun c hc => ?_) fun c hc => ?_
  · obtain ⟨d, hd, hkind⟩ := h.head?_text
    obtain rfl : d = c := Option.some.inj (hd.symm.trans hc)
    rcases hkind with hkind | rfl
    · exact isBlank_of_isNameChar (isNameChar_of_isNameStart hkind)
    · decide
  · obtain ⟨d, hd, hkind, -⟩ := h.getLast?_text
    obtain rfl : d = c := Option.some.inj (hd.symm.trans hc)
    rcases hkind with hkind | rfl | rfl
    · exact isBlank_of_isNameChar hkind
    · decide
    · decide

/-- The text of a type without doubled non-null marks stands for that type. -/
theorem WellFormed.ofText?_text {t : TypeRef} (h : t.WellFormed) : ofText? t.text = some t := by
  unfold ofText?
  induction h with
  | @named name hn =>
    have hwf : WellFormed (.named name) := .named hn
    obtain ⟨d, hd, -, hmark⟩ := hwf.getLast?_text
    have htext : (TypeRef.named name).text = name := rfl
    have hunmarked : name.toList.getLast? ≠ some '!' := fun he => hmark rfl (Option.some.inj (hd.symm.trans he))
    obtain ⟨c, rest, hs, hc, hrest⟩ := hn
    have hname : isName name.toList = true := by
      rw [hs, isName, Bool.and_eq_true]
      exact ⟨hc, hrest⟩
    have hunopened : ¬ (name.toList.head? = some '[' ∧ name.toList.tail.getLast? = some ']') := by
      rintro ⟨hopen, -⟩
      rw [hs] at hopen
      cases hopen
      cases hc
    rw [ofChars?, hwf.trimBlank_text, htext, dif_neg hunmarked, dif_neg hunopened, if_pos hname,
      String.ofList_toList]
  | @list item hi ih =>
    have hwf : WellFormed (.list item) := .list hi
    have htext : (TypeRef.list item).text.toList = '[' :: (item.text.toList ++ [']']) := by simp [text]
    have hunmarked : ('[' :: (item.text.toList ++ [']'])).getLast? ≠ some '!' := by
      rw [← List.cons_append, List.getLast?_append]
      exact fun he => absurd (Option.some.inj he) (by decide)
    have hopened : ('[' :: (item.text.toList ++ [']'])).head? = some '[' ∧
        ('[' :: (item.text.toList ++ [']'])).tail.getLast? = some ']' := ⟨rfl, by simp⟩
    rw [ofChars?, hwf.trimBlank_text, htext, dif_neg hunmarked, dif_pos hopened, List.tail_cons,
      List.dropLast_concat, ih]
    rfl
  | @nonNull inner hn hi ih =>
    have hwf : WellFormed (.nonNull inner) := .nonNull hn hi
    have htext : (TypeRef.nonNull inner).text.toList = inner.text.toList ++ ['!'] := by simp [text]
    have hmarked : (inner.text.toList ++ ['!']).getLast? = some '!' := by simp
    rw [ofChars?, hwf.trimBlank_text, htext, dif_pos hmarked, List.dropLast_concat, ih]
    simp only [hn, if_neg Bool.false_ne_true]

end TypeRef

end QueryBatch
