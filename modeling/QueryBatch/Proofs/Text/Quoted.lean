import QueryBatch.Text.Quoted
import QueryBatch.Token.Scan

/-!
# Quoted strings are read back

* `decode_encode`: the escaped form of a string stands for that string.
* `unquote_quote`: so does the form between quotes.
* `quotedLength_encode`: the form between quotes is one string token, whatever follows but a quote.
-/

namespace QueryBatch.Text.Quoted

/-! ## Escapes of one character -/

/-- The ways to write a character: a short escape, a numbered escape, or the character itself. -/
theorem encodeChar_cases (c : Char) :
    (∃ e, encodeChar c = ['\\', e] ∧ simpleEscape e = some c ∧ e ≠ 'u' ∧ e ≠ '\n') ∨
    (c.toNat < 128 ∧ encodeChar c = '\\' :: 'u' :: hexDigits c.toNat) ∨
    (encodeChar c = [c] ∧ c ≠ '"' ∧ c ≠ '\\' ∧ c ≠ '\n' ∧ c ≠ '\r') := by
  by_cases short : c = '"' ∨ c = '\\' ∨ c = '\n' ∨ c = '\r' ∨ c = '\t' ∨ c = '\x08' ∨ c = '\x0c'
  · left
    rcases short with rfl | rfl | rfl | rfl | rfl | rfl | rfl
    · exact ⟨'"', by decide⟩
    · exact ⟨'\\', by decide⟩
    · exact ⟨'n', by decide⟩
    · exact ⟨'r', by decide⟩
    · exact ⟨'t', by decide⟩
    · exact ⟨'b', by decide⟩
    · exact ⟨'f', by decide⟩
  · simp only [not_or] at short
    obtain ⟨h1, h2, h3, h4, h5, h6, h7⟩ := short
    right
    by_cases hc : c.toNat < 0x20 ∨ c = '\x7f'
    · left
      refine ⟨?_, by simp [encodeChar, h1, h2, h3, h4, h5, h6, h7, hc]⟩
      rcases hc with hc | rfl
      · omega
      · decide
    · right
      simp only [not_or] at hc
      exact ⟨by simp [encodeChar, h1, h2, h3, h4, h5, h6, h7, hc.1, hc.2], h1, h2, h3, h4⟩

/-- The numbered escape of a character of ASCII stands for it. -/
theorem unicodeEscape_hexDigits {n : Nat} (h : n < 128) :
    unicodeEscape (hexDigit (n / 4096 % 16)) (hexDigit (n / 256 % 16)) (hexDigit (n / 16 % 16)) (hexDigit (n % 16)) =
      some (Char.ofNat n) := by
  revert n
  decide

/-- A hexadecimal digit neither ends a string nor escapes. -/
theorem hexDigit_plain (n : Nat) :
    hexDigit (n % 16) ≠ '"' ∧ hexDigit (n % 16) ≠ '\\' ∧ hexDigit (n % 16) ≠ '\n' ∧ hexDigit (n % 16) ≠ '\r' := by
  have all : ∀ m < 16, hexDigit m ≠ '"' ∧ hexDigit m ≠ '\\' ∧ hexDigit m ≠ '\n' ∧ hexDigit m ≠ '\r' := by decide
  exact all _ (Nat.mod_lt _ (by decide))

/-! ## Reading back -/

theorem decode_plain {c : Char} (h : c ≠ '\\') (rest : List Char) : decode (c :: rest) = (decode rest).map (c :: ·) := by
  rw [decode]
  all_goals simp_all

theorem decode_simple {c e : Char} (h : simpleEscape e = some c) (hu : e ≠ 'u') (rest : List Char) :
    decode ('\\' :: e :: rest) = (decode rest).map (c :: ·) := by
  rw [decode]
  · rw [h]
  all_goals simp_all

theorem decode_unicode {a b c d x : Char} (h : unicodeEscape a b c d = some x) (rest : List Char) :
    decode ('\\' :: 'u' :: a :: b :: c :: d :: rest) = (decode rest).map (x :: ·) := by
  rw [decode, h]

theorem decode_encodeChar (c : Char) (rest : List Char) :
    decode (encodeChar c ++ rest) = (decode rest).map (c :: ·) := by
  rcases encodeChar_cases c with ⟨e, he, hs, hu, -⟩ | ⟨hlt, he⟩ | ⟨he, -, hb, -, -⟩ <;> rw [he]
  · exact decode_simple hs hu rest
  · have h := unicodeEscape_hexDigits hlt
    rw [Char.ofNat_toNat] at h
    exact decode_unicode h rest
  · exact decode_plain hb rest

/-- The escaped form of a string stands for that string. -/
theorem decode_encode (cs : List Char) : decode (encode cs) = .ok cs := by
  induction cs with
  | nil => rfl
  | cons c rest ih =>
    have step : encode (c :: rest) = encodeChar c ++ encode rest := rfl
    rw [step, decode_encodeChar, ih]
    rfl

theorem toList_quote (text : String) : (quote text).toList = '"' :: encode text.toList ++ ['"'] := by
  simp [quote]

theorem contents_quoted (cs : List Char) : contents ('"' :: cs ++ ['"']) = cs := by
  simp [contents]

/-- The form between quotes stands for the string. -/
theorem unquote_quote (text : String) : unquote (quote text) = .ok text := by
  rw [unquote, toList_quote, contents_quoted, decode_encode]
  simp

/-! ## One token -/

open Token

theorem stringLength_plain {c : Char} (h : c ≠ '"' ∧ c ≠ '\\' ∧ c ≠ '\n' ∧ c ≠ '\r') (rest : List Char) :
    stringLength (c :: rest) = ((stringLength rest).1 + 1, (stringLength rest).2) := by
  obtain ⟨h1, h2, h3, h4⟩ := h
  rw [stringLength]
  · simp [h1, h3, h4]
  all_goals simp_all

theorem stringLength_escape {e : Char} (h : e ≠ '\n') (rest : List Char) :
    stringLength ('\\' :: e :: rest) = ((stringLength rest).1 + 2, (stringLength rest).2) := by
  rw [stringLength]
  simp [h]

theorem stringLength_encodeChar (c : Char) (rest : List Char) :
    stringLength (encodeChar c ++ rest) =
      ((stringLength rest).1 + (encodeChar c).length, (stringLength rest).2) := by
  rcases encodeChar_cases c with ⟨e, he, -, -, hn⟩ | ⟨-, he⟩ | ⟨he, h⟩ <;> rw [he]
  · exact stringLength_escape hn rest
  · simp only [hexDigits, List.cons_append, List.nil_append]
    rw [stringLength_escape (by decide), stringLength_plain (hexDigit_plain _), stringLength_plain (hexDigit_plain _),
      stringLength_plain (hexDigit_plain _), stringLength_plain (hexDigit_plain _)]
    simp
  · exact stringLength_plain h rest

theorem stringLength_encode (cs rest : List Char) :
    stringLength (encode cs ++ '"' :: rest) = ((encode cs).length + 1, true) := by
  induction cs with
  | nil =>
    show stringLength ('"' :: rest) = _
    rw [stringLength]
    · simp [encode]
    all_goals simp
  | cons c cs ih =>
    have step : encode (c :: cs) = encodeChar c ++ encode cs := rfl
    rw [step, List.append_assoc, stringLength_encodeChar, ih]
    simp only [List.length_append]
    congr 1
    omega

/-- The escaped form of a string does not start with a quote. -/
theorem head?_encode (cs : List Char) : (encode cs).head? ≠ some '"' := by
  cases cs with
  | nil => simp [encode]
  | cons c cs =>
    have step : encode (c :: cs) = encodeChar c ++ encode cs := rfl
    rw [step]
    rcases encodeChar_cases c with ⟨e, he, -⟩ | ⟨-, he⟩ | ⟨he, h, -⟩ <;> rw [he] <;> simp
    exact h

/-- After its opening quote the quoted form is a string token, unless another quote follows an empty one. -/
theorem quotedLength_encode (cs : List Char) {rest : List Char} (h : rest.head? ≠ some '"') :
    quotedLength (encode cs ++ '"' :: rest) = (.string, (encode cs).length + 2) := by
  have single : ['"', '"'].isPrefixOf (encode cs ++ '"' :: rest) = false := by
    have hh := head?_encode cs
    cases he : encode cs with
    | nil =>
      cases rest with
      | nil => rfl
      | cons d rest =>
        have hd : d ≠ '"' := by simpa using h
        simp [List.isPrefixOf, Ne.symm hd]
    | cons d ds =>
      have hd : d ≠ '"' := by simpa [he] using hh
      simp [List.isPrefixOf, Ne.symm hd]
  rw [quotedLength, single, stringLength_encode]
  simp only [Bool.false_eq_true, if_false, if_true, Prod.mk.injEq, true_and]
  omega

end QueryBatch.Text.Quoted
