import Mathlib.Computability.Language
import QueryBatch.Proofs.Token.Lexeme

/-!
# Token patterns

Each class of tokens has one pattern, a language of words. The scan takes the longest word of any pattern.

* `TokenKind.pattern`: the pattern of a class. Garbage has none; of a block string it has the opening quotes only.
* `IsLongest`: a word of a pattern that stands at the start of characters, none of any pattern being longer.
* `mem_pattern_lexeme`: the token that `lexeme` yields is a word of the pattern of its class.
* `covers_of_mem_pattern`: no word of any pattern that stands there is longer; where there is one, there is no garbage.
* `isLongest_lexeme`: so the token is the longest word, garbage and block strings apart.
-/

namespace QueryBatch

open Text
open scoped Computability

/-! ## Patterns -/

namespace Pattern

/-- One character that `p` accepts. -/
def one (p : Char → Bool) : Language Char := {w | ∃ c, p c = true ∧ w = [c]}

/-- Any number of characters that `p` accepts. -/
def many (p : Char → Bool) : Language Char := (one p)∗

/-- One word. -/
def word (s : String) : Language Char := {s.toList}

/-- A part that may be missing. -/
def maybe (l : Language Char) : Language Char := 1 + l

def digits : Language Char := one Char.isDigit * many Char.isDigit

/-- Digits without leading zeros. -/
def whole : Language Char := word "0" + one (fun c => c != '0' && c.isDigit) * many Char.isDigit

def integer : Language Char := maybe (word "-") * whole

def fraction : Language Char := word "." * digits

def exponent : Language Char :=
  one (fun c => c == 'e' || c == 'E') * (maybe (one fun c => c == '+' || c == '-') * digits)

/-- What follows the integer of a number that is none: a fraction, an exponent or both. -/
def decimals : Language Char := fraction * maybe exponent + exponent

/-- A character in a quoted string. A backslash keeps any character on its line inside. -/
def quotedChar : Language Char :=
  one (fun c => c != '"' && c != '\\' && c != '\n' && c != '\r') + word "\\" * one fun c => c != '\n'

/-- The start of a quoted string, up to its closing quote or the end of its line. -/
def opened : Language Char := word "\"" * quotedChar∗

end Pattern

open Pattern in
/-- The pattern of a class of tokens. -/
def TokenKind.pattern : TokenKind → Language Char
  | .name => one Token.isNameStart * many Token.isNameChar
  | .int => integer
  | .float => integer * decimals
  | .string => opened * word "\""
  | .unterminatedString => opened
  | .blockString => word "\"\"\""
  | .comment => word "#" * many fun c => c != '\n' && c != '\r'
  | .whitespace => one Token.isBlankChar * many Token.isBlankChar
  | .comma => word ","
  | kind => kind.sign?.elim 0 word

/-- A word of the pattern of a class that stands at the start of characters, and none of any pattern is longer. -/
structure IsLongest (kind : TokenKind) (w cs : List Char) : Prop where
  mem : w ∈ kind.pattern
  starts : w <+: cs
  longest : ∀ (other : TokenKind), ∀ v ∈ other.pattern, v <+: cs → v.length ≤ w.length

namespace Pattern

section Membership

variable {p : Char → Bool} {w rest cs : List Char}

theorem mem_word {s : String} : w ∈ word s ↔ w = s.toList := Iff.rfl

theorem mem_maybe {l : Language Char} : w ∈ maybe l ↔ w = [] ∨ w ∈ l := Iff.rfl

theorem mem_one_mul {l : Language Char} : w ∈ one p * l ↔ ∃ c rest, w = c :: rest ∧ p c = true ∧ rest ∈ l := by
  rw [Language.mem_mul]
  constructor
  · rintro ⟨_, ⟨c, hc, rfl⟩, rest, hrest, rfl⟩
    exact ⟨c, rest, rfl, hc, hrest⟩
  · rintro ⟨c, rest, rfl, hc, hrest⟩
    exact ⟨[c], ⟨c, hc, rfl⟩, rest, hrest, rfl⟩

theorem mem_word_mul {s : String} {l : Language Char} : w ∈ word s * l ↔ ∃ rest ∈ l, w = s.toList ++ rest := by
  rw [Language.mem_mul]
  constructor
  · rintro ⟨_, rfl, rest, hrest, rfl⟩
    exact ⟨rest, hrest, rfl⟩
  · rintro ⟨rest, hrest, rfl⟩
    exact ⟨_, rfl, rest, hrest, rfl⟩

theorem mem_many : w ∈ many p ↔ w.all p = true := by
  refine Language.mem_kstar.trans ⟨?_, fun h => ⟨w.map fun c => [c], ?_, ?_⟩⟩
  · rintro ⟨parts, rfl, hparts⟩
    rw [List.all_eq_true]
    intro c hc
    obtain ⟨part, hpart, hc⟩ := List.mem_flatten.1 hc
    obtain ⟨d, hd, rfl⟩ := hparts part hpart
    rw [List.mem_singleton.1 hc]
    exact hd
  · rw [← List.flatMap_def, List.flatMap_singleton']
  · intro part hpart
    obtain ⟨c, hc, rfl⟩ := List.mem_map.1 hpart
    exact ⟨c, List.all_eq_true.1 h c hc, rfl⟩

/-- The run at the start of characters is a word. -/
theorem take_run_mem_many (p : Char → Bool) (cs : List Char) : cs.take (run p cs) ∈ many p := by
  rw [Token.take_run, mem_many]
  exact List.all_takeWhile

/-- Accepted characters reach no further than the run that starts with them. -/
theorem length_le_run (hw : w ∈ many p) (h : w <+: cs) : w.length ≤ run p cs := by
  obtain ⟨rest, rfl⟩ := h
  rw [run, List.takeWhile_append_of_pos (List.all_eq_true.1 (mem_many.1 hw)), List.length_append]
  exact Nat.le_add_right _ _

/-- Accepted characters are the whole run if the next one is not accepted. -/
theorem run_eq_length (hw : w ∈ many p) (hrest : ∀ c, rest.head? = some c → p c = false) :
    run p (w ++ rest) = w.length := by
  rw [run, List.takeWhile_append_of_pos (List.all_eq_true.1 (mem_many.1 hw))]
  cases rest with
  | nil => simp
  | cons c rest => simp [hrest c rfl]

end Membership

/-! ## Numbers -/

section Numbers

variable {w rest cs : List Char} {n : Nat}

/-- Characters that start with no digit. -/
def NoDigit (rest : List Char) : Prop := ∀ c, rest.head? = some c → c.isDigit = false

theorem noDigit_of_mem_exponent (h : w ∈ exponent) : NoDigit (w ++ rest) := by
  obtain ⟨c, tail, rfl, hc, -⟩ := mem_one_mul.1 h
  rintro _ ⟨⟩
  simp only [Bool.or_eq_true, beq_iff_eq] at hc
  rcases hc with rfl | rfl <;> decide

theorem noDigit_of_mem_decimals (h : w ∈ decimals) : NoDigit (w ++ rest) := by
  rcases (Language.mem_add _ _ _).1 h with h | h
  · obtain ⟨_, hf, _, -, rfl⟩ := Language.mem_mul.1 h
    obtain ⟨tail, -, rfl⟩ := mem_word_mul.1 hf
    rintro _ ⟨⟩
    decide
  · exact noDigit_of_mem_exponent h

theorem mem_digits : w ∈ digits ↔ w ≠ [] ∧ w ∈ many Char.isDigit := by
  rw [digits, mem_one_mul]
  constructor
  · rintro ⟨c, rest, rfl, hc, hrest⟩
    exact ⟨List.cons_ne_nil _ _, mem_many.2 (by rw [List.all_cons, hc, mem_many.1 hrest]; rfl)⟩
  · rintro ⟨hne, h⟩
    obtain ⟨c, rest, rfl⟩ := List.exists_cons_of_ne_nil hne
    rw [mem_many, List.all_cons, Bool.and_eq_true] at h
    exact ⟨c, rest, rfl, h.1, mem_many.2 h.2⟩

/-- A run of digits at the start of characters is a word, unless it is empty. -/
theorem take_run_mem_digits (h : 0 < run Char.isDigit cs) : cs.take (run Char.isDigit cs) ∈ digits := by
  refine mem_digits.2 ⟨fun hnil => ?_, take_run_mem_many _ _⟩
  rw [Token.take_run] at hnil
  rw [run, hnil] at h
  exact absurd h (Nat.lt_irrefl 0)

/-! ### Integers -/

theorem mem_whole : w ∈ whole ↔
    w = ['0'] ∨ ∃ c rest, w = c :: rest ∧ c ≠ '0' ∧ c.isDigit = true ∧ rest ∈ many Char.isDigit := by
  refine or_congr Iff.rfl (mem_one_mul.trans ?_)
  simp only [Bool.and_eq_true, bne_iff_ne, and_assoc]

theorem integerLength_of_mem (hw : w ∈ whole) (hrest : NoDigit rest) : integerLength (w ++ rest) = some w.length := by
  rcases mem_whole.1 hw with rfl | ⟨c, tail, rfl, hc, hd, htail⟩
  · rfl
  · simp only [List.cons_append, integerLength, if_neg hc, hd, if_true, run_eq_length htail hrest, List.length_cons,
      Nat.add_comm]

theorem length_le_integerLength (hw : w ∈ whole) (h : w <+: cs) : ∃ n, integerLength cs = some n ∧ w.length ≤ n := by
  obtain ⟨rest, rfl⟩ := h
  rcases mem_whole.1 hw with rfl | ⟨c, tail, rfl, hc, hd, htail⟩
  · exact ⟨1, rfl, Nat.le_refl 1⟩
  · refine ⟨1 + run Char.isDigit (tail ++ rest), ?_, ?_⟩
    · simp only [List.cons_append, integerLength, if_neg hc, hd, if_true]
    · have := length_le_run htail (List.prefix_append tail rest)
      simp only [List.length_cons]
      omega

theorem take_integerLength (h : integerLength cs = some n) : cs.take n ∈ whole := by
  cases cs with
  | nil => cases h
  | cons c rest =>
    simp only [integerLength] at h
    split at h
    · rename_i hc
      cases h
      exact mem_whole.2 (.inl (by rw [hc]; rfl))
    · rename_i hc
      split at h
      · rename_i hd
        cases h
        refine mem_whole.2 (.inr ⟨c, _, ?_, hc, hd, take_run_mem_many _ rest⟩)
        rw [Nat.add_comm, List.take_succ_cons]
      · cases h

/-! ### Fractions -/

theorem fractionLength_of_mem (hw : w ∈ fraction) (hrest : NoDigit rest) : fractionLength (w ++ rest) = w.length := by
  obtain ⟨tail, htail, rfl⟩ := mem_word_mul.1 hw
  obtain ⟨hne, hmany⟩ := mem_digits.1 htail
  have hrun := run_eq_length hmany hrest
  obtain ⟨c, tail, rfl⟩ := List.exists_cons_of_ne_nil hne
  show fractionLength ('.' :: (c :: tail ++ rest)) = _
  rw [fractionLength, hrun]
  rfl

theorem length_le_fractionLength (hw : w ∈ fraction) (h : w <+: cs) : w.length ≤ fractionLength cs := by
  obtain ⟨rest, rfl⟩ := h
  obtain ⟨tail, htail, rfl⟩ := mem_word_mul.1 hw
  obtain ⟨hne, hmany⟩ := mem_digits.1 htail
  have hrun := length_le_run hmany (List.prefix_append tail rest)
  have hpos := List.length_pos_of_ne_nil hne
  show (tail.length + 1) ≤ fractionLength ('.' :: (tail ++ rest))
  rw [fractionLength]
  split <;> omega

theorem take_fractionLength (h : 0 < fractionLength cs) : cs.take (fractionLength cs) ∈ fraction := by
  cases cs with
  | nil => cases h
  | cons c rest =>
    by_cases hc : c = '.'
    · subst hc
      rw [fractionLength] at h ⊢
      split at h
      · cases h
      · rename_i n hrun
        refine mem_word_mul.2 ⟨rest.take (n + 1), ?_, rfl⟩
        rw [← Nat.succ_eq_add_one, ← hrun]
        exact take_run_mem_digits (by omega)
    · rw [fractionLength_other hc] at h
      cases h

theorem fractionLength_exponent (h : w ∈ exponent) : fractionLength (w ++ rest) = 0 := by
  obtain ⟨c, tail, rfl, hc, -⟩ := mem_one_mul.1 h
  refine fractionLength_other ?_ _
  rintro rfl
  cases hc

/-! ### Exponents -/

theorem signLength_of_mem {sign tail : List Char} (hs : sign ∈ maybe (one fun c => c == '+' || c == '-'))
    (htail : tail ∈ digits) : signLength (sign ++ tail ++ rest) = sign.length := by
  rcases mem_maybe.1 hs with rfl | ⟨c, hc, rfl⟩
  · obtain ⟨c, tail, rfl, hc, -⟩ := mem_one_mul.1 htail
    have hsign : ¬(c = '+' ∨ c = '-') := by
      rintro (rfl | rfl) <;> cases hc
    simpa [signLength] using hsign
  · simp only [Bool.or_eq_true, beq_iff_eq] at hc
    simp [signLength, hc]

theorem length_le_exponentLength (hw : w ∈ exponent) (h : w <+: cs) : w.length ≤ exponentLength cs := by
  obtain ⟨rest, rfl⟩ := h
  obtain ⟨e, _, rfl, he, h⟩ := mem_one_mul.1 hw
  obtain ⟨sign, hsign, tail, htail, rfl⟩ := Language.mem_mul.1 h
  obtain ⟨hne, hmany⟩ := mem_digits.1 htail
  have hpos := List.length_pos_of_ne_nil hne
  have hrun := length_le_run hmany (List.prefix_append tail rest)
  simp only [Bool.or_eq_true, beq_iff_eq] at he
  simp only [List.cons_append, exponentLength, Bool.or_eq_true, decide_eq_true_eq, he, if_true,
    signLength_of_mem hsign htail]
  rw [List.append_assoc, List.drop_left]
  simp only [List.length_cons, List.length_append]
  split <;> omega

theorem take_exponentLength (h : 0 < exponentLength cs) : cs.take (exponentLength cs) ∈ exponent := by
  cases cs with
  | nil => cases h
  | cons e rest =>
    simp only [exponentLength] at h ⊢
    split at h
    · rename_i he
      rw [if_pos he]
      split at h
      · cases h
      · rename_i n hrun
        refine mem_one_mul.2 ⟨e, rest.take (signLength rest + (n + 1)), ?_, by simpa using he, ?_⟩
        · show (e :: rest).take (n + 2 + signLength rest) = _
          rw [show n + 2 + signLength rest = signLength rest + (n + 1) + 1 by omega, List.take_succ_cons]
        · rw [List.take_add]
          refine Language.append_mem_mul ?_ ?_
          · cases rest with
            | nil => exact mem_maybe.2 (.inl rfl)
            | cons c rest =>
              rw [signLength]
              split
              · rename_i hc
                exact mem_maybe.2 (.inr ⟨c, by simpa using hc, rfl⟩)
              · exact mem_maybe.2 (.inl rfl)
          · rw [← Nat.succ_eq_add_one, ← hrun]
            exact take_run_mem_digits (by omega)
    · cases h

/-! ### Whole numbers -/

/-- The length of a number after its sign, in parts. -/
theorem numberLength_signed {sign : List Char} (hs : sign ∈ maybe (word "-"))
    (hcs : sign = [] → cs.head? ≠ some '-') :
    numberLength (sign ++ cs) = (integerLength cs).map fun n =>
      (sign.length + n + fractionLength (cs.drop n) + exponentLength (cs.drop (n + fractionLength (cs.drop n))),
        fractionLength (cs.drop n) + exponentLength (cs.drop (n + fractionLength (cs.drop n))) == 0) := by
  rcases mem_maybe.1 hs with rfl | rfl
  · simp only [numberLength, List.nil_append, if_neg (hcs rfl), List.drop_zero, List.length_nil, Nat.zero_add]
  · have hdrop : ∀ n, ('-' :: cs).drop (1 + n) = cs.drop n := fun n => by rw [Nat.add_comm, List.drop_succ_cons]
    show numberLength ('-' :: cs) = _
    simp only [numberLength, List.head?_cons, if_true, List.drop_succ_cons, List.drop_zero, Nat.add_assoc, hdrop]
    rfl

theorem mem_number_of_mem_integer (hw : w ∈ integer) : w ∈ integer * maybe decimals :=
  Language.mem_mul.2 ⟨w, hw, [], .inl rfl, List.append_nil w⟩

theorem mem_number_of_mem_decimals (hw : w ∈ integer * decimals) : w ∈ integer * maybe decimals := by
  obtain ⟨i, hi, tail, htail, rfl⟩ := Language.mem_mul.1 hw
  exact Language.append_mem_mul hi (.inr htail)

/-- No number of either class is longer than the one that is read. -/
theorem length_le_numberLength (hw : w ∈ integer * maybe decimals) (h : w <+: cs) :
    ∃ n isInteger, numberLength cs = some (n, isInteger) ∧ w.length ≤ n := by
  obtain ⟨rest, rfl⟩ := h
  obtain ⟨_, hsigned, tail, htail, rfl⟩ := Language.mem_mul.1 hw
  obtain ⟨sign, hsign, i, hi, rfl⟩ := Language.mem_mul.1 hsigned
  have hhead : (i ++ (tail ++ rest)).head? ≠ some '-' := by
    rcases mem_whole.1 hi with rfl | ⟨c, _, rfl, -, hd, -⟩
    · simp
    · rintro ⟨⟩
      cases hd
  simp only [List.append_assoc, numberLength_signed hsign fun _ => hhead, List.length_append]
  rcases mem_maybe.1 htail with rfl | htail
  · obtain ⟨n, hn, hle⟩ := length_le_integerLength hi (List.prefix_append i ([] ++ rest))
    rw [hn]
    refine ⟨_, _, rfl, ?_⟩
    simp only [List.length_nil]
    omega
  · rw [integerLength_of_mem hi (noDigit_of_mem_decimals htail)]
    refine ⟨_, _, rfl, ?_⟩
    simp only [List.drop_left, ← List.drop_drop]
    rcases (Language.mem_add _ _ _).1 htail with htail | htail
    · obtain ⟨f, hf, e, he, rfl⟩ := Language.mem_mul.1 htail
      rcases mem_maybe.1 he with rfl | he
      · have := length_le_fractionLength hf (List.prefix_append f ([] ++ rest))
        simp only [List.append_assoc, List.length_append, List.length_nil]
        omega
      · have := length_le_exponentLength he (List.prefix_append e rest)
        rw [List.append_assoc, fractionLength_of_mem hf (noDigit_of_mem_exponent he), List.drop_left,
          List.length_append]
        omega
    · have := length_le_exponentLength htail (List.prefix_append tail rest)
      rw [fractionLength_exponent htail, List.drop_zero]
      omega

/-- The number that is read is a word of its class. -/
theorem take_numberLength {isInteger : Bool} (h : numberLength cs = some (n, isInteger)) :
    cs.take n ∈ if isInteger then integer else integer * decimals := by
  obtain ⟨sign, body, rfl, hsign, hbody⟩ : ∃ sign body, cs = sign ++ body ∧ sign ∈ maybe (word "-") ∧
      (sign = [] → body.head? ≠ some '-') := by
    by_cases hc : cs.head? = some '-'
    · obtain ⟨rest, rfl⟩ := List.head?_eq_some_iff.1 hc
      exact ⟨['-'], rest, rfl, .inr rfl, nofun⟩
    · exact ⟨[], cs, rfl, .inl rfl, fun _ => hc⟩
  rw [numberLength_signed hsign hbody, Option.map_eq_some_iff] at h
  obtain ⟨k, hk, heq⟩ := h
  obtain ⟨rfl, rfl⟩ := Prod.mk.inj heq
  have hwhole : sign ++ body.take k ∈ integer := Language.append_mem_mul hsign (take_integerLength hk)
  generalize hf : fractionLength (body.drop k) = f
  generalize hx : exponentLength (body.drop (k + f)) = x
  have hexponent : 0 < x → (body.drop (k + f)).take x ∈ exponent := fun hpos => by
    rw [← hx] at hpos ⊢
    exact take_exponentLength hpos
  have hcut : (sign ++ body).take (sign.length + k + f + x) =
      sign ++ body.take k ++ ((body.drop k).take f ++ (body.drop (k + f)).take x) := by
    rw [Nat.add_assoc, Nat.add_assoc, List.take_length_add_append, List.take_add, List.take_add, List.drop_drop,
      List.append_assoc]
  rw [hcut]
  rcases Nat.eq_zero_or_pos f with rfl | hpos
  · rcases Nat.eq_zero_or_pos x with rfl | hpos
    · simpa using hwhole
    · rw [if_neg (by simp; omega), List.take_zero, List.nil_append]
      exact Language.append_mem_mul hwhole (.inr (hexponent hpos))
  · rw [if_neg (by simp; omega)]
    refine Language.append_mem_mul hwhole (.inl (Language.append_mem_mul ?_ ?_))
    · rw [← hf] at hpos ⊢
      exact take_fractionLength hpos
    · rcases Nat.eq_zero_or_pos x with rfl | hpos
      · exact .inl rfl
      · exact .inr (hexponent hpos)

end Numbers

/-! ## Strings -/

section Strings

open Token

variable {w rest cs : List Char}

theorem mem_quotedChar : w ∈ quotedChar ↔
    (∃ c, w = [c] ∧ c ≠ '"' ∧ c ≠ '\\' ∧ c ≠ '\n' ∧ c ≠ '\r') ∨ ∃ c, w = ['\\', c] ∧ c ≠ '\n' := by
  refine or_congr ⟨?_, ?_⟩ (mem_word_mul.trans ⟨?_, ?_⟩)
  · rintro ⟨c, hc, rfl⟩
    exact ⟨c, rfl, by simpa [and_assoc] using hc⟩
  · rintro ⟨c, rfl, hc⟩
    exact ⟨c, by simpa [and_assoc] using hc, rfl⟩
  · rintro ⟨_, ⟨c, hc, rfl⟩, rfl⟩
    exact ⟨c, rfl, by simpa using hc⟩
  · rintro ⟨c, rfl, hc⟩
    exact ⟨[c], ⟨c, by simpa using hc, rfl⟩, rfl⟩

theorem quotedChars_cons {part : List Char} (hpart : part ∈ quotedChar) (h : w ∈ quotedChar∗) :
    part ++ w ∈ quotedChar∗ := by
  obtain ⟨parts, rfl, hparts⟩ := Language.mem_kstar.1 h
  refine Language.mem_kstar.2 ⟨part :: parts, rfl, fun y hy => ?_⟩
  rcases List.mem_cons.1 hy with rfl | hy
  · exact hpart
  · exact hparts y hy

/-- The characters of a string are passed over, whatever follows. -/
theorem stringLength_append (hw : w ∈ quotedChar∗) (rest : List Char) :
    stringLength (w ++ rest) = (w.length + (stringLength rest).1, (stringLength rest).2) := by
  obtain ⟨parts, rfl, hparts⟩ := Language.mem_kstar.1 hw
  clear hw
  induction parts with
  | nil => simp
  | cons part parts ih =>
    have ih := ih fun y hy => hparts y (List.mem_cons_of_mem _ hy)
    rw [List.flatten_cons, List.append_assoc]
    rcases mem_quotedChar.1 (hparts part List.mem_cons_self) with ⟨c, rfl, hc⟩ | ⟨c, rfl, hc⟩
    · show stringLength (c :: (parts.flatten ++ rest)) = _
      rw [Quoted.stringLength_plain hc, ih]
      simp only [List.length_append, List.length_cons, List.length_nil, Prod.mk.injEq, and_true]
      omega
    · show stringLength ('\\' :: c :: (parts.flatten ++ rest)) = _
      rw [Quoted.stringLength_escape hc, ih]
      simp only [List.length_append, List.length_cons, List.length_nil, Prod.mk.injEq, and_true]
      omega

theorem stringLength_quote (rest : List Char) : stringLength ('"' :: rest) = (1, true) := by
  rw [stringLength]
  · rw [if_pos rfl]
  · simp
  · simp

/-- What follows the opening quote, with or without the closing quote. -/
def ending (closed : Bool) : Language Char := if closed then quotedChar∗ * word "\"" else quotedChar∗

theorem append_mem_ending {part : List Char} {closed : Bool} (hpart : part ∈ quotedChar) (hw : w ∈ ending closed) :
    part ++ w ∈ ending closed := by
  cases closed with
  | false => exact quotedChars_cons hpart hw
  | true =>
    obtain ⟨v, hv, q, hq, rfl⟩ := Language.mem_mul.1 hw
    rw [← List.append_assoc]
    exact Language.append_mem_mul (quotedChars_cons hpart hv) hq

/-- What the length of a string covers. -/
theorem take_stringLength (cs : List Char) : cs.take (stringLength cs).1 ∈ ending (stringLength cs).2 := by
  fun_induction stringLength cs with
  | case1 => exact Language.nil_mem_kstar _
  | case2 => exact Language.nil_mem_kstar _
  | case3 => exact Language.nil_mem_kstar _
  | case4 c rest hc length closed hrest ih =>
    rw [hrest] at ih
    exact append_mem_ending (mem_quotedChar.2 (.inr ⟨c, rfl, hc⟩)) ih
  | case5 => exact Language.append_mem_mul (Language.nil_mem_kstar _) rfl
  | case6 => exact Language.nil_mem_kstar _
  | case7 c rest hnil hcons hquote hbreak length closed hrest ih =>
    rw [hrest] at ih
    have hplain : c ≠ '\\' := by
      rintro rfl
      cases rest with
      | nil => exact hnil rfl rfl
      | cons d rest => exact hcons d rest rfl rfl
    simp only [Bool.or_eq_true, decide_eq_true_eq, not_or] at hbreak
    exact append_mem_ending (mem_quotedChar.2 (.inl ⟨c, rfl, hquote, hplain, hbreak⟩)) ih

section Bounds

variable {v : List Char}

/-- No string reaches further than the length that is read. -/
theorem length_le_stringLength (hw : w ∈ quotedChar∗) (hv : v = [] ∨ v = ['"']) (h : w ++ v <+: rest) :
    (w ++ v).length ≤ (stringLength rest).1 := by
  obtain ⟨tail, rfl⟩ := h
  rw [List.append_assoc, stringLength_append hw, List.length_append]
  rcases hv with rfl | rfl
  · simp
  · show _ ≤ w.length + (stringLength ('"' :: tail)).1
    rw [stringLength_quote]
    exact Nat.le_refl _

theorem length_le_one (hw : w ∈ quotedChar∗) (hv : v = [] ∨ v = ['"']) (h : w ++ v <+: '"' :: rest) :
    (w ++ v).length ≤ 1 := by
  have hlength := length_le_stringLength hw hv h
  rwa [stringLength_quote] at hlength

/-- No string is longer than the token that starts with its quote. -/
theorem length_le_quotedLength (hw : w ∈ quotedChar∗) (hv : v = [] ∨ v = ['"']) (h : w ++ v <+: rest) :
    1 + (w ++ v).length ≤ (quotedLength rest).2 := by
  unfold quotedLength
  split
  · rename_i hquotes
    obtain ⟨more, rfl⟩ := List.isPrefixOf_iff_prefix.1 hquotes
    have hone := length_le_one hw hv h
    dsimp only
    omega
  · exact Nat.add_le_add_left (length_le_stringLength hw hv h) 1

end Bounds

end Strings

end Pattern

/-! ## The longest word -/

open Pattern Token

theorem TokenKind.pattern_of_sign? {kind : TokenKind} {s : String} (h : kind.sign? = some s) :
    kind.pattern = word s := by
  cases kind <;> first | cases h; rfl | cases h

theorem mem_pattern_quotedLength {rest : List Char} (hk : (quotedLength rest).1 ≠ .blockString) :
    '"' :: rest.take ((quotedLength rest).2 - 1) ∈ (quotedLength rest).1.pattern := by
  unfold quotedLength at hk ⊢
  split
  · rename_i hquotes
    rw [if_pos hquotes] at hk
    exact absurd rfl hk
  · have hend := take_stringLength rest
    dsimp only
    rw [Nat.add_sub_cancel_left]
    cases hclosed : (stringLength rest).2 with
    | false =>
      rw [hclosed] at hend
      exact mem_word_mul.2 ⟨_, hend, rfl⟩
    | true =>
      rw [hclosed] at hend
      obtain ⟨v, hv, q, hq, heq⟩ := Language.mem_mul.1 hend
      rw [← heq, ← List.cons_append]
      exact Language.append_mem_mul (mem_word_mul.2 ⟨v, hv, rfl⟩) hq

/-- The marks that start tokens of classes with several texts. -/
theorem mark_cases {c : Char} {rest : List Char} (hm : c ∈ marks) (hs : (lexeme c rest).1.sign? = none) :
    c = ',' ∨ c = '.' ∨ c = '"' ∨ c = '#' := by
  simp only [marks, List.mem_cons, List.not_mem_nil, or_false] at hm
  rcases hm with rfl | rfl | rfl | rfl | rfl | rfl | rfl | rfl | rfl | rfl | rfl | rfl | rfl | rfl | rfl | rfl | rfl <;>
    first | (simp; done) | cases hs

/-- The token that starts with a character is a word of the pattern of its class, block strings apart. -/
theorem mem_pattern_lexeme {c : Char} {rest : List Char} (hg : (lexeme c rest).1 ≠ .garbage)
    (hb : (lexeme c rest).1 ≠ .blockString) :
    c :: rest.take ((lexeme c rest).2 - 1) ∈ (lexeme c rest).1.pattern := by
  cases hs : (lexeme c rest).1.sign? with
  | some s => rw [TokenKind.pattern_of_sign? hs, mem_word, ← text_of_sign?_lexeme hs, String.toList_ofList]
  | none =>
    by_cases hm : c ∈ marks
    · rcases mark_cases hm hs with rfl | rfl | rfl | rfl
      · exact rfl
      · -- three dots are a sign, a stray one is garbage
        by_cases hdots : ['.', '.'].isPrefixOf rest = true
        · simp [lexeme, hdots, TokenKind.sign?] at hs
        · simp [lexeme, hdots] at hg
      · exact mem_pattern_quotedLength hb
      · simp only [lexeme, Nat.add_sub_cancel_left]
        exact mem_word_mul.2 ⟨_, take_run_mem_many _ rest, rfl⟩
    · rw [lexeme_other hm] at hg ⊢
      split
      · rename_i hc
        rw [Nat.add_sub_cancel_left]
        exact mem_one_mul.2 ⟨c, _, rfl, hc, take_run_mem_many _ rest⟩
      · rename_i hname
        rw [if_neg hname] at hg
        split
        · rename_i hc
          rw [Nat.add_sub_cancel_left]
          exact mem_one_mul.2 ⟨c, _, rfl, hc, take_run_mem_many _ rest⟩
        · rename_i hblank
          rw [if_neg hblank] at hg
          cases hn : numberLength (c :: rest) with
          | none =>
            rw [hn] at hg
            exact absurd rfl hg
          | some number =>
            obtain ⟨n, isInteger⟩ := number
            have hnumber := take_numberLength hn
            obtain ⟨n, rfl⟩ := Nat.exists_eq_add_of_le' (numberLength_bounds hn).1
            cases isInteger with
            | true => exact hnumber
            | false => exact hnumber

section Longest

variable {w rest : List Char} {c : Char}

/-- The token that starts with a character is no garbage and reaches at least as far as a word. -/
def Covers (c : Char) (rest w : List Char) : Prop := (lexeme c rest).1 ≠ .garbage ∧ w.length ≤ (lexeme c rest).2

theorem covers_number (hw : w ∈ integer * maybe decimals) (h : w <+: c :: rest) : Covers c rest w := by
  obtain ⟨n, isInteger, hn, hle⟩ := length_le_numberLength hw h
  obtain ⟨hm, hname, hblank⟩ := not_mark_of_number (number_start hn)
  rw [Covers, lexeme_other hm, hname, hblank, hn]
  refine ⟨?_, hle⟩
  cases isInteger <;> nofun

theorem covers_quoted {v : List Char} (hw : w ∈ quotedChar∗) (hv : v = [] ∨ v = ['"']) (h : w ++ v <+: rest) :
    Covers '"' rest ('"' :: (w ++ v)) := by
  refine ⟨fun hg => ?_, ?_⟩
  · change (quotedLength rest).1 = .garbage at hg
    unfold quotedLength at hg
    split at hg
    · cases hg
    · dsimp only at hg
      split at hg <;> cases hg
  · have := length_le_quotedLength hw hv h
    rw [List.length_cons, Nat.add_comm]
    exact this

theorem covers_sign {kind : TokenKind} (hs : ∀ rest, lexeme c rest = (kind, 1)) (hk : kind ≠ .garbage) :
    Covers c rest [c] := by
  rw [Covers, hs]
  exact ⟨hk, Nat.le_refl 1⟩

/-- No pattern has a longer word than the token that starts at its place. Where garbage starts no pattern has a word. -/
theorem covers_of_mem_pattern {kind : TokenKind} (hw : w ∈ kind.pattern) (h : w <+: c :: rest) :
    Covers c rest w := by
  cases kind
  case name =>
    obtain ⟨d, tail, rfl, hd, htail⟩ := mem_one_mul.1 hw
    obtain ⟨rfl, hprefix⟩ := List.cons_prefix_cons.1 h
    have hle := length_le_run htail hprefix
    rw [Covers, lexeme_other (not_mark_of_isNameStart hd), if_pos hd]
    exact ⟨nofun, by simp only [List.length_cons]; omega⟩
  case whitespace =>
    obtain ⟨d, tail, rfl, hd, htail⟩ := mem_one_mul.1 hw
    obtain ⟨rfl, hprefix⟩ := List.cons_prefix_cons.1 h
    have hle := length_le_run htail hprefix
    obtain ⟨hm, hname⟩ := not_mark_of_isBlankChar hd
    rw [Covers, lexeme_other hm, hname, if_neg Bool.false_ne_true, if_pos hd]
    exact ⟨nofun, by simp only [List.length_cons]; omega⟩
  case comment =>
    obtain ⟨tail, htail, rfl⟩ := mem_word_mul.1 hw
    obtain ⟨rfl, hprefix⟩ := List.cons_prefix_cons.1 h
    have hle := length_le_run htail hprefix
    refine ⟨nofun, ?_⟩
    show tail.length + 1 ≤ 1 + run _ rest
    omega
  case int => exact covers_number (mem_number_of_mem_integer hw) h
  case float => exact covers_number (mem_number_of_mem_decimals hw) h
  case string =>
    obtain ⟨_, hopened, q, hq, rfl⟩ := Language.mem_mul.1 hw
    obtain ⟨v, hv, rfl⟩ := mem_word_mul.1 hopened
    obtain ⟨rfl, hprefix⟩ := List.cons_prefix_cons.1 h
    exact covers_quoted hv (.inr hq) hprefix
  case unterminatedString =>
    obtain ⟨v, hv, hw⟩ := mem_word_mul.1 hw
    obtain rfl : w = '"' :: v := hw
    obtain ⟨rfl, hprefix⟩ := List.cons_prefix_cons.1 h
    rw [← List.append_nil v] at hprefix ⊢
    exact covers_quoted hv (.inl rfl) hprefix
  case blockString =>
    obtain rfl : w = ['"', '"', '"'] := hw
    obtain ⟨rfl, hprefix⟩ := List.cons_prefix_cons.1 h
    have hquotes : lexeme '"' rest = (.blockString, 3 + BlockString.scanBody (rest.drop 2)) :=
      if_pos (List.isPrefixOf_iff_prefix.2 hprefix)
    rw [Covers, hquotes]
    exact ⟨nofun, Nat.le_add_right _ _⟩
  case spread =>
    obtain rfl : w = ['.', '.', '.'] := hw
    obtain ⟨rfl, hprefix⟩ := List.cons_prefix_cons.1 h
    have hdots : lexeme '.' rest = (.spread, 3) := if_pos (List.isPrefixOf_iff_prefix.2 hprefix)
    rw [Covers, hdots]
    exact ⟨nofun, Nat.le_refl 3⟩
  case garbage => exact absurd hw (Language.notMem_zero w)
  all_goals
    obtain rfl := mem_word.1 hw
    obtain ⟨rfl, -⟩ := List.cons_prefix_cons.1 h
    exact covers_sign (fun _ => rfl) nofun

/-- The token that starts with a character is the longest word at its place, garbage and block strings apart. -/
theorem isLongest_lexeme (hg : (lexeme c rest).1 ≠ .garbage) (hb : (lexeme c rest).1 ≠ .blockString) :
    IsLongest (lexeme c rest).1 (c :: rest.take ((lexeme c rest).2 - 1)) (c :: rest) where
  mem := mem_pattern_lexeme hg hb
  starts := List.cons_prefix_cons.2 ⟨rfl, List.take_prefix _ _⟩
  longest other v hv hprefix := by
    have hle := (covers_of_mem_pattern hv hprefix).2
    have hwithin := hprefix.length_le
    simp only [List.length_cons, List.length_take] at hwithin ⊢
    omega

/-- A word that starts with a quote is of a quoted string, or it opens a block string. -/
theorem quoted_of_mem_pattern {kind : TokenKind} (hw : '"' :: w ∈ kind.pattern) :
    w = ['"', '"'] ∨ ∃ u ∈ quotedChar∗, ∃ v, (v = [] ∨ v = ['"']) ∧ w = u ++ v := by
  have noNumber : '"' :: w ∉ integer * maybe decimals := fun hnumber => by
    obtain ⟨n, isInteger, hn, -⟩ := length_le_numberLength hnumber (List.prefix_refl _)
    rcases number_start hn with h | h <;> cases h
  cases kind
  case string =>
    obtain ⟨_, hopened, q, hq, heq⟩ := Language.mem_mul.1 hw
    obtain ⟨u, hu, rfl⟩ := mem_word_mul.1 hopened
    exact .inr ⟨u, hu, q, .inr hq, (List.cons.inj heq).2.symm⟩
  case unterminatedString =>
    obtain ⟨u, hu, heq⟩ := mem_word_mul.1 hw
    exact .inr ⟨u, hu, [], .inl rfl, (List.cons.inj heq).2.trans (List.append_nil u).symm⟩
  case blockString => exact .inl (List.cons.inj hw).2
  case int => exact absurd (mem_number_of_mem_integer hw) noNumber
  case float => exact absurd (mem_number_of_mem_decimals hw) noNumber
  case garbage => exact absurd hw (Language.notMem_zero _)
  case name | whitespace =>
    obtain ⟨c, rest, heq, hc, -⟩ := mem_one_mul.1 hw
    cases heq
    cases hc
  case comment =>
    obtain ⟨rest, -, heq⟩ := mem_word_mul.1 hw
    cases heq
  all_goals cases hw

theorem isLongest_quotes (rest : List Char) : IsLongest .blockString ['"', '"', '"'] ('"' :: '"' :: '"' :: rest) where
  mem := rfl
  starts := ⟨rest, rfl⟩
  longest other w hw hprefix := by
    cases w with
    | nil => exact Nat.zero_le 3
    | cons c w =>
      obtain ⟨rfl, htail⟩ := List.cons_prefix_cons.1 hprefix
      rcases quoted_of_mem_pattern hw with rfl | ⟨u, hu, v, hv, rfl⟩
      · exact Nat.le_refl 3
      · exact Nat.succ_le_succ (Nat.le_succ_of_le (length_le_one hu hv htail))

end Longest

end QueryBatch
