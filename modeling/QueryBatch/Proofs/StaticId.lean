import Mathlib.Data.List.DropRight
import QueryBatch.Proofs.Text.KebabCase
import QueryBatch.Query

/-!
# Identifiers of static queries

* `words_eq_of_forall₂`: which separators a text has makes no difference to its words, and `words_relativePath_of_goesOn`,
  `words_relativePath_of_outside`: all that a path loses on the way to its identifier is separators, and the root.
* `staticQueryId_relative`: an identifier depends on the path below the root alone, however slashes are written.
* `staticQueryId_eq_iff`: identifiers tell paths apart just by the words of the relative paths in lower case.
-/

namespace QueryBatch

open Text

/-! ## Separators -/

namespace Text

/-- Both are the same character, or both are separators. -/
def Similar (a b : Char) : Prop := a = b ∨ ¬isWordChar a ∧ ¬isWordChar b

theorem Similar.letterClass_eq {a b : Char} (h : Similar a b) : letterClass a = letterClass b := by
  rcases h with rfl | ⟨ha, hb⟩
  · rfl
  · rw [not_isWordChar_iff.1 ha, not_isWordChar_iff.1 hb]

theorem wordsFrom_eq_of_forall₂ {cs ds : List Char} (h : List.Forall₂ Similar cs ds) (before : LetterClass)
    (current : List Char) : wordsFrom before current cs = wordsFrom before current ds := by
  induction h generalizing before current with
  | nil => rfl
  | @cons a b cs ds hab hrest ih =>
    rcases hab with rfl | ⟨ha, hb⟩
    · have hnext : cs.head?.map letterClass = ds.head?.map letterClass := by
        cases hrest with
        | nil => rfl
        | cons hcd _ => exact congrArg some hcd.letterClass_eq
      by_cases ha : isWordChar a
      · rw [wordsFrom_cons ha, wordsFrom_cons ha, hnext, ih, ih]
      · rw [wordsFrom_separator ha, wordsFrom_separator ha, ih]
    · rw [wordsFrom_separator ha, wordsFrom_separator hb, ih]

theorem words_eq_of_forall₂ {cs ds : List Char} (h : List.Forall₂ Similar cs ds) : words cs = words ds :=
  wordsFrom_eq_of_forall₂ h .separator []

theorem kebabCase_eq_of_words_eq {s t : String} (h : words s.toList = words t.toList) : kebabCase s = kebabCase t := by
  rw [kebabCase, h, kebabCase]

end Text

theorem not_isWordChar_slash : ¬isWordChar '/' := not_isWordChar_of_mem (by decide)

/-! ## What a path loses -/

section Losses

variable {root path rest : List Char}

theorem words_forwardSlashes (cs : List Char) : words (forwardSlashes cs) = words cs := by
  refine words_eq_of_forall₂ (List.forall₂_map_left_iff.2 (List.forall₂_same.2 fun c _ => ?_))
  split
  · rename_i hc
    subst hc
    exact .inr ⟨not_isWordChar_slash, not_isWordChar_of_mem (by decide)⟩
  · exact .inl rfl

theorem words_dropSlashes (cs : List Char) : words (cs.dropWhile (· == '/')) = words cs := by
  have hslashes : ∀ c ∈ cs.takeWhile (· == '/'), ¬isWordChar c := fun c hc => by
    obtain rfl : c = '/' := by simpa using List.mem_takeWhile_imp hc
    exact not_isWordChar_slash
  conv_rhs => rw [← List.takeWhile_append_dropWhile (p := (· == '/')) (l := cs)]
  exact (wordsFrom_separators hslashes _).symm

theorem words_dropHere (cs : List Char) : words (dropHere cs) = words cs := by
  fun_induction dropHere cs with
  | case1 rest ih =>
    have hsub : ['.', '/'] ⊆ separators := by decide
    have hhere : ∀ c ∈ ['.', '/'], ¬isWordChar c := fun c hc => not_isWordChar_of_mem (hsub hc)
    rw [ih]
    exact (wordsFrom_separators hhere rest).symm
  | case2 => rfl

/-- The rest of a path behind a directory is empty or goes on with a slash. -/
def GoesOn (rest : List Char) : Prop := rest = [] ∨ rest.head? = some '/'

instance : DecidablePred GoesOn := fun _ => inferInstanceAs (Decidable (_ ∨ _))

/-- A path is the directory or stands below it. -/
def Inside (root path : List Char) : Prop := path = root ∨ root ++ ['/'] <+: path

instance : DecidableRel Inside := fun _ _ => inferInstanceAs (Decidable (_ ∨ _))

theorem inside_iff : Inside root path ↔ ∃ rest, path = root ++ rest ∧ GoesOn rest := by
  constructor
  · rintro (rfl | ⟨rest, rfl⟩)
    · exact ⟨[], (List.append_nil _).symm, .inl rfl⟩
    · exact ⟨'/' :: rest, List.append_assoc .., .inr rfl⟩
  · rintro ⟨rest, rfl, rfl | hslash⟩
    · exact .inl (List.append_nil root)
    · obtain ⟨tail, rfl⟩ := List.head?_eq_some_iff.1 hslash
      exact .inr ⟨tail, List.append_assoc ..⟩

theorem below?_eq_some_iff : below? root path = some rest ↔ root ≠ [] ∧ path = root ++ rest ∧ GoesOn rest := by
  unfold below? GoesOn
  constructor
  · intro h
    split at h
    · rename_i hroot
      simp only [Bool.and_eq_true, Bool.not_eq_true', List.isEmpty_eq_false_iff, List.isPrefixOf_iff_prefix] at hroot
      obtain ⟨hne, tail, rfl⟩ := hroot
      simp only [List.drop_left] at h
      split at h
      · rename_i hgoes
        cases h
        simp only [Bool.or_eq_true, List.isEmpty_iff, decide_eq_true_eq] at hgoes
        exact ⟨hne, rfl, hgoes⟩
      · cases h
    · cases h
  · rintro ⟨hne, rfl, hgoes⟩
    simp [hne, hgoes]

theorem below?_eq_none (h : ¬Inside root path) : below? root path = none := by
  refine Option.eq_none_iff_forall_ne_some.2 fun rest hrest => h ?_
  exact inside_iff.2 ⟨rest, (below?_eq_some_iff.1 hrest).2⟩

theorem words_relativePath (path root : List Char) : words (relativePath path root) =
    words ((below? (dropEndSlashes (forwardSlashes root)) (forwardSlashes path)).getD (forwardSlashes path)) := by
  rw [relativePath, words_dropHere, words_dropSlashes]

/-- The words of what follows the root. -/
theorem words_relativePath_of_goesOn (hpath : forwardSlashes path = dropEndSlashes (forwardSlashes root) ++ rest)
    (hrest : GoesOn rest) : words (relativePath path root) = words rest := by
  rw [words_relativePath]
  by_cases hroot : dropEndSlashes (forwardSlashes root) = []
  · rw [hroot, List.nil_append] at hpath
    rw [hroot, hpath]
    rfl
  · rw [below?_eq_some_iff.2 ⟨hroot, hpath, hrest⟩]
    rfl

/-- The words of a path outside the root. -/
theorem words_relativePath_of_outside (h : ¬Inside (dropEndSlashes (forwardSlashes root)) (forwardSlashes path)) :
    words (relativePath path root) = words path := by
  rw [words_relativePath, below?_eq_none h]
  exact words_forwardSlashes path

end Losses

/-! ## Identifiers -/

/-- Both are the same character, or each is a slash or a backslash. -/
def SlashAlike (a b : Char) : Prop := a = b ∨ (a = '/' ∨ a = '\\') ∧ (b = '/' ∨ b = '\\')

instance : DecidableRel SlashAlike := fun _ _ => inferInstanceAs (Decidable (_ ∨ _))

theorem forwardSlashes_eq_of_forall₂ {cs ds : List Char} (h : List.Forall₂ SlashAlike cs ds) :
    forwardSlashes cs = forwardSlashes ds := by
  induction h with
  | nil => rfl
  | cons hab _ ih =>
    rw [forwardSlashes, forwardSlashes, List.map_cons, List.map_cons]
    refine List.cons_eq_cons.2 ⟨?_, ih⟩
    rcases hab with rfl | ⟨rfl | rfl, rfl | rfl⟩ <;> rfl

/-- All that is dropped at the end of a root are slashes. -/
theorem exists_dropEndSlashes (cs : List Char) :
    ∃ slashes, cs = dropEndSlashes cs ++ slashes ∧ ∀ c ∈ slashes, c = '/' :=
  ⟨cs.rtakeWhile (· == '/'), (List.rdropWhile_append_rtakeWhile ..).symm, fun _ hc => by
    simpa using List.mem_rtakeWhile_imp hc⟩

theorem staticQueryId_eq_of_words_eq {path root text : String}
    (h : words (relativePath path.toList root.toList) = words text.toList) :
    staticQueryId path root = "sq--" ++ kebabCase text := by
  rw [staticQueryId, kebabCase_eq_of_words_eq (t := text) (by rw [String.toList_ofList, h])]

/-- The identifier of a path put together from a root and what stands below it. -/
theorem staticQueryId_append (root path : String) : staticQueryId (root ++ "/" ++ path) root = "sq--" ++ kebabCase path := by
  obtain ⟨slashes, hroot, hslashes⟩ := exists_dropEndSlashes (forwardSlashes root.toList)
  have hall : ∀ c ∈ slashes ++ ['/'], ¬isWordChar c := fun c hc => by
    rcases List.mem_append.1 hc with hc | hc
    · exact hslashes c hc ▸ not_isWordChar_slash
    · exact List.mem_singleton.1 hc ▸ not_isWordChar_slash
  have hwhole : forwardSlashes (root ++ "/" ++ path).toList =
      dropEndSlashes (forwardSlashes root.toList) ++ (slashes ++ ['/'] ++ forwardSlashes path.toList) := by
    have hjoined : forwardSlashes (root ++ "/" ++ path).toList =
        forwardSlashes root.toList ++ ['/'] ++ forwardSlashes path.toList := by
      rw [String.toList_append, String.toList_append, forwardSlashes, List.map_append, List.map_append]
      rfl
    rw [hjoined, ← List.append_assoc, ← List.append_assoc, ← hroot]
  have hgoes : GoesOn (slashes ++ ['/'] ++ forwardSlashes path.toList) := by
    cases slashes with
    | nil => exact .inr rfl
    | cons c slashes => exact .inr (congrArg some (hslashes c List.mem_cons_self))
  refine staticQueryId_eq_of_words_eq ?_
  rw [words_relativePath_of_goesOn hwhole hgoes, words, wordsFrom_separators hall]
  exact words_forwardSlashes path.toList

/-- The identifier is that of what follows the root in the path, whatever the root is. Slashes and backslashes may take
each other's place. A path that is neither the root nor below it is kept whole. -/
theorem staticQueryId_relative :
    (∀ root path : String, staticQueryId (root ++ "/" ++ path) root = "sq--" ++ kebabCase path) ∧
    (∀ path root rest : String,
      forwardSlashes path.toList = dropEndSlashes (forwardSlashes root.toList) ++ rest.toList → GoesOn rest.toList →
        staticQueryId path root = "sq--" ++ kebabCase rest) ∧
    (∀ path path' root root' : String, List.Forall₂ SlashAlike path.toList path'.toList →
      List.Forall₂ SlashAlike root.toList root'.toList → staticQueryId path root = staticQueryId path' root') ∧
    ∀ path root : String, ¬Inside (dropEndSlashes (forwardSlashes root.toList)) (forwardSlashes path.toList) →
      staticQueryId path root = "sq--" ++ kebabCase path := by
  refine ⟨staticQueryId_append, fun path root rest hpath hrest => ?_, fun path path' root root' hpath hroot => ?_,
    fun path root houtside => ?_⟩
  · exact staticQueryId_eq_of_words_eq (words_relativePath_of_goesOn hpath hrest)
  · rw [staticQueryId, staticQueryId, relativePath, relativePath, forwardSlashes_eq_of_forall₂ hpath,
      forwardSlashes_eq_of_forall₂ hroot]
  · exact staticQueryId_eq_of_words_eq (words_relativePath_of_outside houtside)

/-- A root with a slash at its end, one for another platform, and one that the path only starts with. -/
theorem staticQueryId_proj :
    staticQueryId "/proj/src/a.js" "/proj/" = "sq--" ++ kebabCase "/src/a.js" ∧
    staticQueryId "C:\\proj\\src\\a.js" "C:\\proj" = staticQueryId "C:/proj/src/a.js" "C:/proj" ∧
    staticQueryId "/project/src/a.js" "/proj" = "sq--" ++ kebabCase "/project/src/a.js" := by
  refine ⟨staticQueryId_relative.2.1 _ _ _ (by decide +kernel) (by decide +kernel),
    staticQueryId_relative.2.2.1 _ _ _ _ (by decide +kernel) (by decide +kernel),
    staticQueryId_relative.2.2.2 _ _ (by decide +kernel)⟩

/-- Identifiers tell paths apart just by the words of the relative paths in lower case. -/
theorem staticQueryId_eq_iff {path root path' root' : String} : staticQueryId path root = staticQueryId path' root' ↔
    loweredWords (relativePath path.toList root.toList) = loweredWords (relativePath path'.toList root'.toList) := by
  have hid : staticQueryId path root = staticQueryId path' root' ↔
      kebabCase (String.ofList (relativePath path.toList root.toList)) =
        kebabCase (String.ofList (relativePath path'.toList root'.toList)) := by
    unfold staticQueryId
    exact ⟨fun h => by simpa [← String.toList_inj] using h, fun h => by rw [h]⟩
  rw [hid, kebabCase_eq_iff, String.toList_ofList, String.toList_ofList]

end QueryBatch
