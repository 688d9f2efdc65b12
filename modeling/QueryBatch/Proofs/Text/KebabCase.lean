import QueryBatch.Proofs.Text.LetterCase

/-!
# Kebab case

* `words_intercalate`: the words of texts that are joined by hyphens are those of the texts.
* `Unparted`: a text in which no neighbours part. `words_eq_singleton_iff`: just the words that are unparted stay whole,
  and `unparted_of_mem_words`: all words of a text are.
* `kebabCase_eq_iff`: texts have one kebab case just if their words are the same in lower case.
* `kebabCase_idempotent_iff`: the texts whose kebab case stays as it is when it is taken again.
-/

namespace QueryBatch.Text

/-! ## Words on both sides of a separator -/

theorem splitsBetween_separator (before here : LetterClass) :
    splitsBetween before here (some .separator) = splitsBetween before here none := by
  cases before <;> cases here <;> rfl

theorem wordsFrom_append_separator {c : Char} (hc : ¬isWordChar c) (before : LetterClass)
    (current front rest : List Char) :
    wordsFrom before current (front ++ c :: rest) = wordsFrom before current front ++ words rest := by
  induction front generalizing before current with
  | nil => exact wordsFrom_separator hc
  | cons d front ih =>
    rw [List.cons_append]
    by_cases hd : isWordChar d
    · have hnext : splitsBetween before (letterClass d) ((front ++ c :: rest).head?.map letterClass) =
          splitsBetween before (letterClass d) (front.head?.map letterClass) := by
        cases front with
        | nil =>
          rw [List.nil_append, List.head?_cons, Option.map_some, not_isWordChar_iff.1 hc]
          exact splitsBetween_separator before (letterClass d)
        | cons e front => rfl
      rw [wordsFrom_cons hd, wordsFrom_cons hd, hnext, ih, ih]
      split
      · rw [List.append_assoc]
      · rfl
    · rw [wordsFrom_separator hd, wordsFrom_separator hd, ih, List.append_assoc]

theorem words_append_separator {c : Char} (hc : ¬isWordChar c) (front rest : List Char) :
    words (front ++ c :: rest) = words front ++ words rest := wordsFrom_append_separator hc .separator [] front rest

theorem not_isWordChar_hyphen : ¬isWordChar '-' := not_isWordChar_of_mem (by decide)

theorem words_intercalate (parts : List (List Char)) : words (['-'].intercalate parts) = parts.flatMap words := by
  induction parts with
  | nil => rfl
  | cons part parts ih =>
    cases parts with
    | nil => rw [List.intercalate_singleton, List.flatMap_singleton]
    | cons other parts =>
      rw [List.intercalate_cons_cons, List.append_assoc, List.singleton_append,
        words_append_separator not_isWordChar_hyphen, ih]
      rfl

/-! ## Words that stay whole -/

/-- No neighbours of a text stand in different words. -/
def Unparted : List Char → Prop
  | a :: b :: rest => ¬(letterClass a).Parts (letterClass b) (rest.head?.map letterClass) ∧ Unparted (b :: rest)
  | _ => True

section Whole

variable {a : Char} {cs word : List Char} {ws : List (List Char)}

/-- The open word goes on to the end just if no neighbours part behind its last character. -/
theorem wordsFrom_eq_singleton_iff (h : ∀ c ∈ cs, isWordChar c) (a : Char) (earlier : List Char) :
    wordsFrom (letterClass a) (a :: earlier) cs = [(a :: earlier).reverse ++ cs] ↔ Unparted (a :: cs) := by
  induction cs generalizing a earlier with
  | nil => exact iff_of_true (by rw [List.append_nil]; rfl) trivial
  | cons b cs ih =>
    obtain ⟨hb, hcs⟩ := List.forall_mem_cons.1 h
    rw [wordsFrom_cons hb, Unparted, ← LetterClass.splitsBetween_iff]
    split
    · rename_i hsplit
      refine iff_of_false (fun he => ?_) fun hu => hu.1 hsplit
      obtain ⟨more, later, hopen⟩ := exists_wordsFrom_eq_cons (letterClass b) b [] cs
      have hlength := congrArg List.length he
      rw [hopen] at hlength
      cases hlength
    · rename_i hsplit
      rw [List.append_cons, ← List.reverse_cons, ih hcs b (a :: earlier)]
      exact (and_iff_right hsplit).symm

theorem words_eq_singleton_iff : words word = [word] ↔ word ≠ [] ∧ (∀ c ∈ word, isWordChar c) ∧ Unparted word := by
  cases word with
  | nil => exact iff_of_false (fun h => by cases h) fun h => h.1 rfl
  | cons a cs =>
    constructor
    · intro h
      have hall := flatten_words (a :: cs)
      rw [h, List.flatten_singleton] at hall
      have hchars : ∀ c ∈ a :: cs, isWordChar c := List.filter_eq_self.1 hall.symm
      obtain ⟨ha, hcs⟩ := List.forall_mem_cons.1 hchars
      rw [words, wordsFrom_nil_cons ha] at h
      exact ⟨List.cons_ne_nil _ _, hchars, (wordsFrom_eq_singleton_iff hcs a []).1 h⟩
    · rintro ⟨-, hchars, hunparted⟩
      obtain ⟨ha, hcs⟩ := List.forall_mem_cons.1 hchars
      rw [words, wordsFrom_nil_cons ha]
      exact (wordsFrom_eq_singleton_iff hcs a []).2 hunparted

/-- Neighbours that part in front of the end part in front of anything. -/
theorem LetterClass.Parts.of_none {first second : LetterClass} (h : first.Parts second none)
    (next : Option LetterClass) : first.Parts second next :=
  h.imp_right fun h => h.imp_right fun h => nomatch h.2.2

/-- The words of the rest of a text: the open one goes on with characters that do not part, and all others are
unparted. So are the words of the rest when no word is open. -/
theorem unparted_wordsFrom (cs : List Char) :
    (∀ a earlier, ∃ more later, wordsFrom (letterClass a) (a :: earlier) cs = ((a :: earlier).reverse ++ more) :: later ∧
      more <+: cs ∧ Unparted (a :: more) ∧ ∀ word ∈ later, Unparted word) ∧
    ∀ word ∈ words cs, Unparted word := by
  induction cs with
  | nil => exact ⟨fun a earlier => ⟨[], [], by rw [List.append_nil]; rfl, List.prefix_rfl, trivial, nofun⟩, nofun⟩
  | cons c cs ih =>
    obtain ⟨hopen, hwords⟩ := ih
    by_cases hc : isWordChar c
    · have hnew : ∀ word ∈ wordsFrom (letterClass c) [c] cs, Unparted word := by
        obtain ⟨more, later, heq, -, hfirst, hlater⟩ := hopen c []
        rw [heq]
        exact List.forall_mem_cons.2 ⟨hfirst, hlater⟩
      refine ⟨fun a earlier => ?_, by rwa [words, wordsFrom_nil_cons hc]⟩
      rw [wordsFrom_cons hc]
      split
      · exact ⟨[], _, by rw [List.append_nil]; rfl, List.nil_prefix, trivial, hnew⟩
      · rename_i hsplit
        rw [LetterClass.splitsBetween_iff] at hsplit
        obtain ⟨more, later, heq, hmore, hfirst, hlater⟩ := hopen c (a :: earlier)
        refine ⟨c :: more, later, by rw [heq, List.reverse_cons, List.append_assoc]; rfl,
          (List.prefix_cons_inj c).2 hmore, ⟨fun hparts => hsplit ?_, hfirst⟩, hlater⟩
        obtain ⟨rest, rfl⟩ := hmore
        cases more with
        | nil => exact hparts.of_none _
        | cons d more => exact hparts
    · refine ⟨fun a earlier => ?_, by rwa [words, wordsFrom_separator hc]⟩
      rw [wordsFrom_separator hc]
      exact ⟨[], words cs, by rw [List.append_nil]; rfl, List.nil_prefix, trivial, hwords⟩

theorem unparted_of_mem_words (h : word ∈ words cs) : Unparted word := (unparted_wordsFrom cs).2 word h

theorem mem_of_mem_words (h : word ∈ words cs) : ∀ c ∈ word, c ∈ cs ∧ isWordChar c := by
  intro c hc
  have hmem : c ∈ (words cs).flatten := List.mem_flatten.2 ⟨word, h, hc⟩
  rwa [flatten_words, List.mem_filter] at hmem

/-- A word of a text is its own only word. -/
theorem words_of_mem_words (h : word ∈ words cs) : words word = [word] :=
  words_eq_singleton_iff.2 ⟨(isUniform_of_mem_words h).1, fun c hc => (mem_of_mem_words h c hc).2,
    unparted_of_mem_words h⟩

/-- Texts that all have words are the words of them just if each is its own only word. -/
theorem flatMap_words_eq_iff (h : ∀ part ∈ ws, words part ≠ []) :
    ws.flatMap words = ws ↔ ∀ part ∈ ws, words part = [part] := by
  induction ws with
  | nil => exact iff_of_true rfl nofun
  | cons part ws ih =>
    obtain ⟨hpart, hws⟩ := List.forall_mem_cons.1 h
    rw [List.flatMap_cons, List.forall_mem_cons, ← ih hws]
    refine ⟨fun heq => ?_, fun ⟨hfirst, hrest⟩ => by rw [hfirst, hrest]; rfl⟩
    obtain ⟨first, others, hwords⟩ := List.exists_cons_of_ne_nil hpart
    rw [hwords, List.cons_append, List.cons.injEq] at heq
    obtain ⟨rfl, hrest⟩ := heq
    -- the other words of the first part have no characters
    have hjoined := flatten_words first
    rw [hwords, List.flatten_cons] at hjoined
    have hle := List.length_filter_le isWordChar first
    rw [← hjoined, List.length_append] at hle
    have hnone : others.flatten = [] := List.eq_nil_of_length_eq_zero (by omega)
    obtain rfl : others = [] := by
      refine List.eq_nil_iff_forall_not_mem.2 fun word hword => ?_
      have hmem : word ∈ words first := hwords ▸ List.mem_cons_of_mem _ hword
      exact (isUniform_of_mem_words hmem).1 (List.flatten_eq_nil_iff.1 hnone word hword)
    exact ⟨hwords, hrest⟩

end Whole

/-! ## Kebab case -/

/-- The words of a text in lower case. -/
def loweredWords (cs : List Char) : List (List Char) := (words cs).map lowercase

section Kebab

variable {cs part : List Char}

theorem toList_kebabCase (text : String) :
    (kebabCase text).toList = ['-'].intercalate (loweredWords text.toList) := by
  rw [kebabCase, String.toList_intercalate, List.map_map, loweredWords]
  congr 1
  exact List.map_congr_left fun word _ => String.toList_ofList

theorem words_kebabCase (text : String) :
    words (kebabCase text).toList = (loweredWords text.toList).flatMap words := by
  rw [toList_kebabCase, words_intercalate]

theorem words_ne_nil_of_mem_loweredWords (h : part ∈ loweredWords cs) : words part ≠ [] := by
  obtain ⟨word, hword, rfl⟩ := List.mem_map.1 h
  obtain ⟨c, rest, rfl⟩ := List.exists_cons_of_ne_nil (isUniform_of_mem_words hword).1
  obtain ⟨d, lowered, hlowered, hd⟩ :=
    exists_lowercase_eq_cons (mem_of_mem_words hword c List.mem_cons_self).2 rest
  rw [hlowered, words, wordsFrom_nil_cons hd]
  obtain ⟨more, later, hopen⟩ := exists_wordsFrom_eq_cons (letterClass d) d [] lowered
  rw [hopen]
  exact List.cons_ne_nil _ _

theorem hyphen_not_mem_of_mem_loweredWords (h : part ∈ loweredWords cs) : '-' ∉ part := by
  obtain ⟨word, hword, rfl⟩ := List.mem_map.1 h
  intro hhyphen
  rcases isWordChar_of_mem_lowercase (fun c hc => (mem_of_mem_words hword c hc).2) hhyphen with hc | hc
  · exact not_isWordChar_hyphen hc
  · exact absurd hc (by decide)

/-- Texts that are neither empty nor hold hyphens are read off what they are joined to. -/
theorem filter_splitOn_intercalate {parts : List (List Char)} (hne : ∀ part ∈ parts, part ≠ [])
    (hhyphen : ∀ part ∈ parts, '-' ∉ part) :
    ((['-'].intercalate parts).splitOn '-').filter (fun part => !part.isEmpty) = parts := by
  by_cases hparts : parts = []
  · rw [hparts]
    rfl
  · rw [List.splitOn_intercalate '-' hhyphen hparts]
    exact List.filter_eq_self.2 fun part hpart => by simpa using hne part hpart

/-- Kebab case tells texts apart just by their words in lower case. -/
theorem kebabCase_eq_iff {s t : String} : kebabCase s = kebabCase t ↔ loweredWords s.toList = loweredWords t.toList := by
  have hne : ∀ cs, ∀ part ∈ loweredWords cs, part ≠ [] := fun cs part hpart he =>
    words_ne_nil_of_mem_loweredWords hpart (he ▸ rfl)
  have hhyphen : ∀ cs, ∀ part ∈ loweredWords cs, '-' ∉ part := fun cs part => hyphen_not_mem_of_mem_loweredWords
  rw [← String.toList_inj, toList_kebabCase, toList_kebabCase]
  refine ⟨fun h => ?_, fun h => by rw [h]⟩
  rw [← filter_splitOn_intercalate (hne s.toList) (hhyphen _), h, filter_splitOn_intercalate (hne _) (hhyphen _)]

/-- What stands in kebab case is in lower case. -/
theorem loweredWords_kebabCase (text : String) :
    loweredWords (kebabCase text).toList = (loweredWords text.toList).flatMap words := by
  rw [loweredWords, words_kebabCase]
  refine List.map_congr_left (g := id) (fun word hword => ?_) |>.trans (List.map_id _)
  obtain ⟨part, hpart, hword⟩ := List.mem_flatMap.1 hword
  obtain ⟨source, -, rfl⟩ := List.mem_map.1 hpart
  exact lowerFrom_eq_self (fun c hc => lowerChar_of_mem_lowerFrom (mem_of_mem_words hword c hc).1) []

theorem kebabCase_kebabCase_eq_iff (text : String) :
    kebabCase (kebabCase text) = kebabCase text ↔ ∀ part ∈ loweredWords text.toList, words part = [part] := by
  rw [kebabCase_eq_iff, loweredWords_kebabCase]
  exact flatMap_words_eq_iff fun part => words_ne_nil_of_mem_loweredWords

/-- From the second time on nothing changes. -/
theorem kebabCase_thrice (text : String) :
    kebabCase (kebabCase (kebabCase text)) = kebabCase (kebabCase text) := by
  rw [kebabCase_kebabCase_eq_iff, loweredWords_kebabCase]
  intro part hpart
  obtain ⟨source, -, hword⟩ := List.mem_flatMap.1 hpart
  exact words_of_mem_words hword

end Kebab

/-! ## Words that stay whole in lower case -/

section Lowered

variable {word lowered cs : List Char}

/-- Letters are unparted just if all are capitals or none behind the first one is. -/
theorem unparted_iff_of_letters (h : ∀ c ∈ word, (letterClass c).IsLetter) :
    Unparted word ↔ (∀ c ∈ word, letterClass c = .upper) ∨ ∀ c ∈ word.tail, letterClass c ≠ .upper := by
  induction word with
  | nil => exact iff_of_true trivial (.inr nofun)
  | cons a word ih =>
    obtain ⟨ha, hword⟩ := List.forall_mem_cons.1 h
    cases word with
    | nil => exact iff_of_true trivial (.inr nofun)
    | cons b rest =>
      obtain ⟨hb, hrest⟩ := List.forall_mem_cons.1 hword
      rw [Unparted, ih hword, List.tail_cons, List.tail_cons, List.forall_mem_cons, List.forall_mem_cons,
        List.forall_mem_cons]
      rcases hb with hb | hb
      · rcases ha with ha | ha
        · -- two capitals part in front of lower case, so the class of one more letter counts
          cases rest with
          | nil => simp [LetterClass.Parts, LetterClass.IsLetter, ha, hb]
          | cons c rest =>
            rcases (List.forall_mem_cons.1 hrest).1 with hc | hc <;>
              simp [LetterClass.Parts, LetterClass.IsLetter, ha, hb, hc]
        · simp [LetterClass.Parts, ha, hb]
      · rcases ha with ha | ha <;> simp [LetterClass.Parts, LetterClass.IsLetter, ha, hb]

theorem unparted_of_digits (h : ∀ c ∈ word, letterClass c = .digit) : Unparted word := by
  induction word with
  | nil => trivial
  | cons a word ih =>
    obtain ⟨ha, hword⟩ := List.forall_mem_cons.1 h
    cases word with
    | nil => trivial
    | cons b rest =>
      refine ⟨?_, ih hword⟩
      rw [ha, (List.forall_mem_cons.1 hword).1]
      simp [LetterClass.Parts, LetterClass.IsLetter]

section Carried

variable {R : Char → Char → Prop} {p q : Char → Prop}

/-- What a relation carries from a character to the next holds of all characters that are related to such ones. -/
theorem forall_mem_of_forall₂ (h : List.Forall₂ R word lowered) (hR : ∀ c d, R c d → p c → q d)
    (hp : ∀ c ∈ word, p c) : ∀ d ∈ lowered, q d := by
  induction h with
  | nil => exact nofun
  | cons hcd _ ih =>
    obtain ⟨hc, hword⟩ := List.forall_mem_cons.1 hp
    exact List.forall_mem_cons.2 ⟨hR _ _ hcd hc, ih hword⟩

theorem forall_mem_iff_of_forall₂ (h : List.Forall₂ R word lowered) (hR : ∀ c d, R c d → (q d ↔ p c)) :
    (∀ d ∈ lowered, q d) ↔ ∀ c ∈ word, p c :=
  ⟨forall_mem_of_forall₂ h.flip fun d c hcd => (hR c d hcd).1, forall_mem_of_forall₂ h fun c d hcd => (hR c d hcd).2⟩

end Carried

/-- A word in lower case is unparted just if its capitals without a lower case are all of it, or at most the first
character. -/
theorem unparted_lowered_iff (huniform : IsUniform word) (h : List.Forall₂ Lowers word lowered) :
    Unparted lowered ↔ (∀ c ∈ word, IsFixedCapital c) ∨ ∀ c ∈ word.tail, ¬IsFixedCapital c := by
  have htail : List.Forall₂ Lowers word.tail lowered.tail := by
    rw [← List.drop_one, ← List.drop_one]
    exact List.forall₂_drop 1 h
  rcases huniform.2 with hdigits | hletters
  · have hlowered := forall_mem_of_forall₂ h (fun _ _ hcd => hcd.letterClass_eq_digit_iff.2) hdigits
    refine iff_of_true (unparted_of_digits hlowered) (.inr fun c hc hfixed => ?_)
    exact absurd ((hdigits c (List.mem_of_mem_tail hc)).symm.trans hfixed.1) (by decide)
  · have hlowered : ∀ d ∈ lowered, (letterClass d).IsLetter :=
      forall_mem_of_forall₂ h (fun _ _ hcd => hcd.isLetter) hletters
    rw [unparted_iff_of_letters hlowered, forall_mem_iff_of_forall₂ h fun _ _ hcd => hcd.letterClass_eq_upper_iff,
      forall_mem_iff_of_forall₂ htail fun _ _ hcd => not_congr hcd.letterClass_eq_upper_iff]

/-- A word stays whole in lower case just if it has no `İ`, and either all its characters are capitals without a lower
case or none behind the first one is. -/
theorem words_lowercase_eq_iff (h : word ∈ words cs) : words (lowercase word) = [lowercase word] ↔
    'İ' ∉ word ∧ ((∀ c ∈ word, IsFixedCapital c) ∨ ∀ c ∈ word.tail, ¬IsFixedCapital c) := by
  have hchars : ∀ c ∈ word, isWordChar c := fun c hc => (mem_of_mem_words h c hc).2
  rw [words_eq_singleton_iff]
  by_cases hdotted : 'İ' ∈ word
  · refine iff_of_false (fun hwhole => ?_) fun hnone => hnone.1 hdotted
    exact not_isWordChar_of_mem (by decide) (hwhole.2.1 _ (dot_mem_lowerFrom hdotted []))
  · have hlowers : List.Forall₂ Lowers word (lowercase word) := lowers_lowerFrom hdotted []
    have hne : lowercase word ≠ [] := fun he =>
      (isUniform_of_mem_words h).1 (List.forall₂_nil_right_iff.1 (he ▸ hlowers))
    have hlowered : ∀ d ∈ lowercase word, isWordChar d :=
      forall_mem_of_forall₂ hlowers (fun _ _ hcd => hcd.isWordChar) hchars
    rw [unparted_lowered_iff (isUniform_of_mem_words h) hlowers, and_iff_right hne, and_iff_right hlowered,
      and_iff_right hdotted]

end Lowered

/-- Kebab case stays as it is when it is taken again just if the text has no `İ` and each of its words has no capitals
without a lower case behind its first character, or no other characters. From the second time on it always stays. -/
theorem kebabCase_idempotent_iff (text : String) :
    (kebabCase (kebabCase text) = kebabCase text ↔
      'İ' ∉ text.toList ∧ ∀ word ∈ words text.toList,
        (∀ c ∈ word, IsFixedCapital c) ∨ ∀ c ∈ word.tail, ¬IsFixedCapital c) ∧
    kebabCase (kebabCase (kebabCase text)) = kebabCase (kebabCase text) := by
  refine ⟨?_, kebabCase_thrice text⟩
  have hdotted : 'İ' ∉ text.toList ↔ ∀ word ∈ words text.toList, 'İ' ∉ word := by
    have hmem : 'İ' ∈ text.toList.filter isWordChar ↔ 'İ' ∈ text.toList :=
      List.mem_filter.trans (and_iff_left isWordChar_dotted)
    rw [← hmem, ← flatten_words, List.mem_flatten, not_exists]
    exact forall_congr' fun word => not_and
  rw [kebabCase_kebabCase_eq_iff, loweredWords, List.forall_mem_map, hdotted, ← forall₂_and]
  refine forall₂_congr fun word hword => ?_
  rw [words_lowercase_eq_iff hword]

/-- The lower case of `İ` is a letter and a separator, and a capital without a lower case parts from the letter in front
of it that has got one. -/
theorem kebabCase_not_idempotent :
    kebabCase (kebabCase "İ") ≠ kebabCase "İ" ∧ kebabCase (kebabCase "Aℂ") ≠ kebabCase "Aℂ" := by
  decide +kernel

end QueryBatch.Text
