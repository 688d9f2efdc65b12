import QueryBatch.Text.Words

/-!
# Where words begin and end

* `isWordChar`: letters and digits; all other characters are separators.
* `LetterClass.Parts`: the classes of neighbours that stand in different words.
* `wordsFrom_cons`, `wordsFrom_separator`: what one more character does to the word that is open.
* `flatten_words`, `isUniform_of_mem_words`: the words are all letters and digits, and each is of one sort.
* `wordAt`: the word that a place in the joined words belongs to. `wordAt_ne_iff`: neighbours belong to different words
  just if they part.
* `words_exact`: where the words of a text begin and end.
-/

namespace QueryBatch.Text

/-! ## Letters and digits -/

/-- Letters and digits. All other characters are separators. -/
def isWordChar (c : Char) : Bool := c.isDigit || isAlphabetic c || isUppercase c

theorem isWordChar_iff {c : Char} : isWordChar c ↔ letterClass c ≠ .separator := by
  unfold isWordChar letterClass
  cases c.isDigit <;> cases isUppercase c <;> cases isAlphabetic c <;> simp

theorem not_isWordChar_iff {c : Char} : ¬isWordChar c ↔ letterClass c = .separator := by
  rw [isWordChar_iff]
  exact Decidable.not_not

namespace LetterClass

def IsLetter (k : LetterClass) : Prop := k = .upper ∨ k = .lower

theorem not_isLetter_digit : ¬digit.IsLetter := by simp [IsLetter]

/-- Neighbours of these classes stand in different words: a digit and a letter, a lower-case letter and a capital, or
two capitals if the character behind them, which is of the class `next`, is in lower case. -/
def Parts (first second : LetterClass) (next : Option LetterClass) : Prop :=
  (first = .digit ∧ second.IsLetter ∨ first.IsLetter ∧ second = .digit) ∨
    (first = .lower ∧ second = .upper) ∨ (first = .upper ∧ second = .upper ∧ next = some .lower)

/-- Both are digits or both are letters. -/
def Alike (first second : LetterClass) : Prop :=
  first = .digit ∧ second = .digit ∨ first.IsLetter ∧ second.IsLetter

variable {first second third : LetterClass} {next : Option LetterClass}

theorem splitsBetween_iff : splitsBetween first second next = true ↔ first.Parts second next := by
  cases first <;> cases second <;> simp [splitsBetween, Parts, IsLetter]

theorem alike_self (h : first ≠ .separator) : first.Alike first := by
  cases first <;> simp_all [Alike, IsLetter]

/-- A character is of one sort with its neighbour if they do not part. -/
theorem Alike.of_not_parts (h : first.Alike second) (hthird : third ≠ .separator) (hparts : ¬second.Parts third next) :
    first.Alike third := by
  cases second <;> cases third <;> simp_all [Alike, Parts, IsLetter]

end LetterClass

/-! ## The open word -/

theorem flatten_closeWord (current : List Char) : (closeWord current).flatten = current.reverse := by
  cases current <;> simp [closeWord]

section Steps

variable {before : LetterClass} {current : List Char} {c : Char} {rest : List Char}

theorem wordsFrom_separator (h : ¬isWordChar c) :
    wordsFrom before current (c :: rest) = closeWord current ++ wordsFrom .separator [] rest := by
  rw [not_isWordChar_iff] at h
  simp only [wordsFrom, h, if_pos]

/-- A letter or a digit starts a word or goes on with the open one. -/
theorem wordsFrom_cons (h : isWordChar c) (before : LetterClass) (current rest : List Char) :
    wordsFrom before current (c :: rest) =
      if splitsBetween before (letterClass c) (rest.head?.map letterClass) then
        closeWord current ++ wordsFrom (letterClass c) [c] rest
      else wordsFrom (letterClass c) (c :: current) rest := by
  simp only [wordsFrom, if_neg (isWordChar_iff.1 h)]

theorem wordsFrom_nil_cons (h : isWordChar c) (before : LetterClass) (rest : List Char) :
    wordsFrom before [] (c :: rest) = wordsFrom (letterClass c) [c] rest := by
  rw [wordsFrom_cons h]
  split <;> rfl

/-- The words up to a letter or digit: some are closed, and the open one ends with it. -/
theorem exists_wordsFrom_cons (h : isWordChar c) (before : LetterClass) (current rest : List Char) :
    ∃ closed earlier, wordsFrom before current (c :: rest) = closed ++ wordsFrom (letterClass c) (c :: earlier) rest ∧
      closed.flatten ++ earlier.reverse = current.reverse := by
  rw [wordsFrom_cons h]
  split
  · exact ⟨closeWord current, [], rfl, by rw [flatten_closeWord, List.reverse_nil, List.append_nil]⟩
  · exact ⟨[], current, rfl, rfl⟩

/-- The same for some characters. -/
theorem exists_wordsFrom_append (before : LetterClass) (current front rest : List Char) :
    ∃ closed before' current', wordsFrom before current (front ++ rest) = closed ++ wordsFrom before' current' rest ∧
      closed.flatten ++ current'.reverse = current.reverse ++ front.filter isWordChar := by
  induction front generalizing before current with
  | nil => exact ⟨[], before, current, rfl, by simp⟩
  | cons c front ih =>
    by_cases h : isWordChar c
    · obtain ⟨closed, earlier, hwords, hjoin⟩ := exists_wordsFrom_cons h before current (front ++ rest)
      obtain ⟨closed', before', current', hwords', hjoin'⟩ := ih (letterClass c) (c :: earlier)
      refine ⟨closed ++ closed', before', current', ?_, ?_⟩
      · rw [List.cons_append, hwords, hwords', List.append_assoc]
      · rw [List.flatten_append, List.append_assoc, hjoin', ← hjoin, List.filter_cons_of_pos h]
        simp
    · obtain ⟨closed, before', current', hwords, hjoin⟩ := ih .separator []
      refine ⟨closeWord current ++ closed, before', current', ?_, ?_⟩
      · rw [List.cons_append, wordsFrom_separator h, hwords, List.append_assoc]
      · rw [List.flatten_append, flatten_closeWord, List.append_assoc, hjoin, List.filter_cons_of_neg h]
        rfl

/-- The open word goes on. -/
theorem exists_wordsFrom_eq_cons (before : LetterClass) (c : Char) (earlier rest : List Char) :
    ∃ more later, wordsFrom before (c :: earlier) rest = ((c :: earlier).reverse ++ more) :: later := by
  induction rest generalizing before c earlier with
  | nil => exact ⟨[], [], by simp [wordsFrom, closeWord]⟩
  | cons d rest ih =>
    by_cases h : isWordChar d
    · rw [wordsFrom_cons h]
      split
      · exact ⟨[], wordsFrom (letterClass d) [d] rest, by simp [closeWord]⟩
      · obtain ⟨more, later, hwords⟩ := ih (letterClass d) d (c :: earlier)
        exact ⟨d :: more, later, by rw [hwords]; simp⟩
    · rw [wordsFrom_separator h]
      exact ⟨[], wordsFrom .separator [] rest, by simp [closeWord]⟩

/-- Separators in front of a text make no word. -/
theorem wordsFrom_separators {separators : List Char} (h : ∀ c ∈ separators, ¬isWordChar c) (rest : List Char) :
    wordsFrom .separator [] (separators ++ rest) = wordsFrom .separator [] rest := by
  induction separators with
  | nil => rfl
  | cons c separators ih =>
    obtain ⟨hc, hall⟩ := List.forall_mem_cons.1 h
    rw [List.cons_append, wordsFrom_separator hc, ih hall]
    rfl

end Steps

/-! ## All words -/

theorem flatten_words (cs : List Char) : (words cs).flatten = cs.filter isWordChar := by
  obtain ⟨closed, before, current, hwords, hjoin⟩ := exists_wordsFrom_append .separator [] cs []
  rw [List.append_nil] at hwords
  rw [words, hwords, wordsFrom, List.flatten_append, flatten_closeWord, hjoin]
  rfl

/-- A word is not empty, and it has digits only or letters only. -/
def IsUniform (word : List Char) : Prop :=
  word ≠ [] ∧ ((∀ c ∈ word, letterClass c = .digit) ∨ ∀ c ∈ word, (letterClass c).IsLetter)

theorem isUniform_of_alike {before : LetterClass} {word : List Char} (hne : word ≠ [])
    (h : ∀ c ∈ word, (letterClass c).Alike before) : IsUniform word := by
  refine ⟨hne, ?_⟩
  by_cases hdigit : before = .digit
  · subst hdigit
    exact .inl fun c hc => ((h c hc).resolve_right fun hletters => LetterClass.not_isLetter_digit hletters.2).1
  · exact .inr fun c hc => ((h c hc).resolve_left fun hdigits => hdigit hdigits.2).1

theorem isUniform_of_mem_closeWord {before : LetterClass} {current word : List Char}
    (h : ∀ c ∈ current, (letterClass c).Alike before) (hword : word ∈ closeWord current) : IsUniform word := by
  unfold closeWord at hword
  split at hword
  · cases hword
  · rename_i hne
    obtain rfl := List.mem_singleton.1 hword
    exact isUniform_of_alike (by simpa using hne) (by simpa using h)

/-- While the open word is of the sort of its last character, every word that is closed is of one sort. -/
theorem isUniform_of_mem_wordsFrom {before : LetterClass} {current cs word : List Char}
    (h : ∀ c ∈ current, (letterClass c).Alike before) (hword : word ∈ wordsFrom before current cs) :
    IsUniform word := by
  induction cs generalizing before current with
  | nil => exact isUniform_of_mem_closeWord h hword
  | cons c cs ih =>
    by_cases hc : isWordChar c
    · have hself := LetterClass.alike_self (isWordChar_iff.1 hc)
      rw [wordsFrom_cons hc] at hword
      split at hword
      · rcases List.mem_append.1 hword with hword | hword
        · exact isUniform_of_mem_closeWord h hword
        · exact ih (List.forall_mem_singleton.2 hself) hword
      · rename_i hsplit
        rw [LetterClass.splitsBetween_iff] at hsplit
        exact ih (List.forall_mem_cons.2 ⟨hself, fun d hd => (h d hd).of_not_parts (isWordChar_iff.1 hc) hsplit⟩) hword
    · rw [wordsFrom_separator hc] at hword
      rcases List.mem_append.1 hword with hword | hword
      · exact isUniform_of_mem_closeWord h hword
      · exact ih (by simp) hword

theorem isUniform_of_mem_words {cs word : List Char} (h : word ∈ words cs) : IsUniform word :=
  isUniform_of_mem_wordsFrom (by simp) h

/-! ## Neighbours -/

/-- The index of the word to which the `n`-th character of the joined words belongs. -/
def wordAt : List (List Char) → Nat → Nat
  | [], _ => 0
  | word :: ws, n => if n < word.length then 0 else wordAt ws (n - word.length) + 1

theorem wordAt_append {earlier : List (List Char)} {word : List Char} {n : Nat} (hge : earlier.flatten.length ≤ n)
    (hlt : n < earlier.flatten.length + word.length) (later : List (List Char)) :
    wordAt (earlier ++ word :: later) n = earlier.length := by
  induction earlier generalizing n with
  | nil =>
    rw [List.flatten_nil, List.length_nil, Nat.zero_add] at hlt
    rw [List.nil_append, wordAt, if_pos hlt, List.length_nil]
  | cons first earlier ih =>
    rw [List.flatten_cons, List.length_append] at hge hlt
    rw [List.cons_append, wordAt, if_neg (by omega), ih (by omega) (by omega), List.length_cons]

section Neighbours

variable {a b : Char} {rest earlier : List Char} {closed : List (List Char)} {n : Nat}

/-- The words of a text up to one of its letters or digits, which is the last of the open word so far. -/
theorem exists_words_eq (front : List Char) (ha : isWordChar a) (rest : List Char) :
    ∃ closed earlier, words (front ++ a :: rest) = closed ++ wordsFrom (letterClass a) (a :: earlier) rest ∧
      closed.flatten.length + earlier.length = front.countP isWordChar := by
  obtain ⟨closed, before, current, hfront, hjoin⟩ := exists_wordsFrom_append .separator [] front (a :: rest)
  obtain ⟨closed', earlier, hnext, hjoin'⟩ := exists_wordsFrom_cons ha before current rest
  refine ⟨closed ++ closed', earlier, by rw [words, hfront, hnext, List.append_assoc], ?_⟩
  rw [← hjoin', ← List.append_assoc, ← List.flatten_append, List.reverse_nil, List.nil_append] at hjoin
  rw [List.countP_eq_length_filter, ← hjoin, List.length_append, List.length_reverse]

variable (hn : closed.flatten.length + earlier.length = n) (before : LetterClass)
include hn

/-- Characters of the open word belong to one word, however it goes on. -/
theorem wordAt_eq_of_open : wordAt (closed ++ wordsFrom before (b :: a :: earlier) rest) n =
    wordAt (closed ++ wordsFrom before (b :: a :: earlier) rest) (n + 1) := by
  obtain ⟨more, later, hopen⟩ := exists_wordsFrom_eq_cons before b (a :: earlier) rest
  have hlength : ((b :: a :: earlier).reverse ++ more).length = earlier.length + 1 + 1 + more.length := by
    rw [List.length_append, List.length_reverse, List.length_cons, List.length_cons]
  rw [hopen, wordAt_append (by omega) (by omega), wordAt_append (by omega) (by omega)]

/-- Where a word is closed and the next one opened, neighbours belong to different words. -/
theorem wordAt_ne_of_closed : wordAt (closed ++ (closeWord (a :: earlier) ++ wordsFrom before [b] rest)) n ≠
    wordAt (closed ++ (closeWord (a :: earlier) ++ wordsFrom before [b] rest)) (n + 1) := by
  obtain ⟨more, later, hopen⟩ := exists_wordsFrom_eq_cons before b [] rest
  have hlength : (a :: earlier).reverse.length = earlier.length + 1 := List.length_reverse
  have hjoined : (closed ++ [(a :: earlier).reverse]).flatten.length = n + 1 := by
    rw [List.flatten_append, List.length_append, List.flatten_singleton]
    omega
  have hfirst : wordAt (closed ++ (a :: earlier).reverse :: ([b].reverse ++ more) :: later) n = closed.length :=
    wordAt_append (by omega) (by omega) _
  have hsecond : wordAt (closed ++ [(a :: earlier).reverse] ++ ([b].reverse ++ more) :: later) (n + 1) =
      (closed ++ [(a :: earlier).reverse]).length :=
    wordAt_append (by omega) (by rw [List.length_append, List.length_reverse, List.length_singleton]; omega) later
  have hclose : closeWord (a :: earlier) = [(a :: earlier).reverse] := rfl
  rw [hopen, hclose, List.singleton_append, hfirst, List.append_cons, hsecond, List.length_append]
  exact Nat.ne_of_lt (Nat.lt_succ_self _)

end Neighbours

/-- Neighbours belong to different words just if they part. -/
theorem wordAt_ne_iff (front rest : List Char) {a b : Char} (ha : isWordChar a) (hb : isWordChar b) :
    wordAt (words (front ++ a :: b :: rest)) (front.countP isWordChar) ≠
        wordAt (words (front ++ a :: b :: rest)) (front.countP isWordChar + 1) ↔
      (letterClass a).Parts (letterClass b) (rest.head?.map letterClass) := by
  obtain ⟨closed, earlier, hwords, hn⟩ := exists_words_eq front ha (b :: rest)
  rw [hwords, wordsFrom_cons hb]
  split
  · rename_i hsplit
    exact iff_of_true (wordAt_ne_of_closed hn _) (LetterClass.splitsBetween_iff.1 hsplit)
  · rename_i hsplit
    rw [LetterClass.splitsBetween_iff] at hsplit
    exact iff_of_false (not_not_intro (wordAt_eq_of_open hn _)) hsplit

/-- Characters with separators between them belong to different words. -/
theorem wordAt_ne_of_separators (front rest : List Char) {separators : List Char} {a b : Char} (ha : isWordChar a)
    (hb : isWordChar b) (hne : separators ≠ []) (hall : ∀ c ∈ separators, ¬isWordChar c) :
    wordAt (words (front ++ a :: (separators ++ b :: rest))) (front.countP isWordChar) ≠
      wordAt (words (front ++ a :: (separators ++ b :: rest))) (front.countP isWordChar + 1) := by
  obtain ⟨closed, earlier, hwords, hn⟩ := exists_words_eq front ha (separators ++ b :: rest)
  obtain ⟨first, others, rfl⟩ := List.exists_cons_of_ne_nil hne
  obtain ⟨hfirst, hothers⟩ := List.forall_mem_cons.1 hall
  rw [hwords, List.cons_append, wordsFrom_separator hfirst, wordsFrom_separators hothers, wordsFrom_nil_cons hb]
  exact wordAt_ne_of_closed hn _

/-- The words joined are the letters and digits of the text. Each word is all digits or all letters, and not empty.
Neighbours that are letters or digits belong to different words just if they part; with separators between them they
always do. -/
theorem words_exact (cs : List Char) :
    (words cs).flatten = cs.filter isWordChar ∧
    (∀ word ∈ words cs, IsUniform word) ∧
    (∀ front a b rest, cs = front ++ a :: b :: rest → isWordChar a → isWordChar b →
      (wordAt (words cs) (front.countP isWordChar) ≠ wordAt (words cs) (front.countP isWordChar + 1) ↔
        (letterClass a).Parts (letterClass b) (rest.head?.map letterClass))) ∧
    ∀ front a separators b rest, cs = front ++ a :: (separators ++ b :: rest) → isWordChar a → isWordChar b →
      separators ≠ [] → (∀ c ∈ separators, ¬isWordChar c) →
        wordAt (words cs) (front.countP isWordChar) ≠ wordAt (words cs) (front.countP isWordChar + 1) := by
  refine ⟨flatten_words cs, fun _ => isUniform_of_mem_words, ?_, ?_⟩
  · rintro front a b rest rfl ha hb
    exact wordAt_ne_iff front rest ha hb
  · rintro front a separators b rest rfl ha hb hne hall
    exact wordAt_ne_of_separators front rest ha hb hne hall

/-- The last of some capitals goes with the lower case behind it. -/
theorem words_capitals : isWordChar 'L' ∧ isWordChar 'P' ∧
    wordAt (words "HTMLPage_2".toList) 3 ≠ wordAt (words "HTMLPage_2".toList) 4 := by
  have hl : isWordChar 'L' := by decide
  have hp : isWordChar 'P' := by decide
  have hparts := (words_exact "HTMLPage_2".toList).2.2.1 "HTM".toList 'L' 'P' "age_2".toList rfl hl hp
  exact ⟨hl, hp, hparts.2 (.inr (.inr (by decide)))⟩

end QueryBatch.Text
