import Mathlib.Data.List.Forall2
import Mathlib.Data.Nat.Digits.Defs
import QueryBatch.Proofs.Text.Quoted

/-!
# What the escapes of a string stand for

* `Escape`: what the query language has behind a backslash. `SignedEscape`: what is read there besides.
* `Spells`: characters in which every backslash starts an escape, and the string in which each is replaced.
* `decode_iff`: characters are decoded to a string just if they spell it, with escapes of both sorts.
* `unquote_iff`: so is a quoted text. `spells_iff_of_not_hasSign`: without a plus sign behind `\u` the sorts are one.
-/

namespace QueryBatch.Text.Quoted

/-! ## Escapes -/

/-- Hexadecimal digits stand at the place of their value. -/
def IsHexDigit (c : Char) (n : Nat) : Prop :=
  "0123456789abcdef".toList[n]? = some c ∨ "0123456789ABCDEF".toList[n]? = some c

/-- Hexadecimal digits, most significant first, and their number. -/
def IsHexNumber (ds : List Char) (n : Nat) : Prop :=
  ∃ ns, List.Forall₂ IsHexDigit ds ns ∧ n = Nat.ofDigits 16 ns.reverse

/-- The short escapes, each with the character that it stands for. -/
def shortEscapes : List (Char × Char) :=
  [('"', '"'), ('\\', '\\'), ('/', '/'), ('b', '\x08'), ('f', '\x0c'), ('n', '\n'), ('r', '\r'), ('t', '\t')]

/-- What stands behind a backslash, and the character that both stand for. -/
inductive Escape : List Char → Char → Prop
  | short {e x : Char} : (e, x) ∈ shortEscapes → Escape [e] x
  | unicode {a b c d x : Char} : IsHexNumber [a, b, c, d] x.toNat → Escape ['u', a, b, c, d] x

/-- A numbered escape with a plus sign for the first of its digits. -/
inductive SignedEscape : List Char → Char → Prop
  | mk {b c d x : Char} : IsHexNumber [b, c, d] x.toNat → SignedEscape ['u', '+', b, c, d] x

/-- Either. -/
def LaxEscape (w : List Char) (x : Char) : Prop := Escape w x ∨ SignedEscape w x

/-- Characters in which every backslash starts an escape, and the same with each escape replaced. -/
inductive Spells (E : List Char → Char → Prop) : List Char → List Char → Prop
  | nil : Spells E [] []
  | plain {c : Char} {cs v : List Char} : c ≠ '\\' → Spells E cs v → Spells E (c :: cs) (c :: v)
  | escape {w cs v : List Char} {x : Char} : E w x → Spells E cs v → Spells E ('\\' :: (w ++ cs)) (x :: v)

/-- A backslash that starts an escape has `u` and a plus sign behind it. -/
def HasSign (cs : List Char) : Prop :=
  ∃ front rest v, cs = front ++ '\\' :: 'u' :: '+' :: rest ∧ Spells Escape front v

/-! ## Numbers -/

theorem hexValue_eq_some_iff {c : Char} {n : Nat} : hexValue c = some n ↔ IsHexDigit c n := by
  constructor
  · intro h
    -- a character in one of the three ranges is the digit with its distance from the start of the range
    have digits : ∀ n < 10, IsHexDigit (Char.ofNat (n + 48)) n := by unfold IsHexDigit; decide
    have lower : ∀ n < 6, IsHexDigit (Char.ofNat (n + 97)) (n + 10) := by unfold IsHexDigit; decide
    have upper : ∀ n < 6, IsHexDigit (Char.ofNat (n + 65)) (n + 10) := by unfold IsHexDigit; decide
    simp only [hexValue, Bool.and_eq_true, decide_eq_true_eq, Char.le_def, UInt32.le_iff_toNat_le, Char.toNat_val,
      Char.reduceToNat] at h
    rw [← c.ofNat_toNat]
    split at h
    · obtain rfl := Option.some.inj h
      have hdigit := digits (c.toNat - 48) (by omega)
      rwa [Nat.sub_add_cancel (by omega)] at hdigit
    · split at h
      · obtain rfl := Option.some.inj h
        have hdigit := lower (c.toNat - 97) (by omega)
        rwa [Nat.sub_add_cancel (by omega), show c.toNat - 97 + 10 = c.toNat - 87 by omega] at hdigit
      · split at h
        · obtain rfl := Option.some.inj h
          have hdigit := upper (c.toNat - 65) (by omega)
          rwa [Nat.sub_add_cancel (by omega), show c.toNat - 65 + 10 = c.toNat - 55 by omega] at hdigit
        · cases h
  · have all : ∀ p ∈ "0123456789abcdef".toList.zipIdx ++ "0123456789ABCDEF".toList.zipIdx, hexValue p.1 = some p.2 := by
      decide
    intro h
    exact all (c, n) (List.mem_append.2 (h.imp List.mem_zipIdx_iff_getElem?.2 List.mem_zipIdx_iff_getElem?.2))

/-- One more digit in front of others. -/
theorem ofDigits_reverse_cons (high digit : Nat) (ns : List Nat) :
    16 ^ (ns.length + 1) * high + Nat.ofDigits 16 (digit :: ns).reverse =
      16 ^ ns.length * (16 * high + digit) + Nat.ofDigits 16 ns.reverse := by
  rw [List.reverse_cons, Nat.ofDigits_append, Nat.ofDigits_singleton, List.length_reverse]
  ring

theorem hexNumber_eq_some_iff {high n : Nat} {ds : List Char} : hexNumber high ds = some n ↔
    ∃ ns, List.Forall₂ IsHexDigit ds ns ∧ n = 16 ^ ns.length * high + Nat.ofDigits 16 ns.reverse := by
  induction ds generalizing high with
  | nil => simp [hexNumber, eq_comm]
  | cons c ds ih =>
    simp only [hexNumber, Option.bind_eq_some_iff, hexValue_eq_some_iff, ih, List.forall₂_cons_left_iff]
    constructor
    · rintro ⟨digit, hdigit, ns, hns, rfl⟩
      exact ⟨_, ⟨digit, ns, hdigit, hns, rfl⟩, (ofDigits_reverse_cons high digit ns).symm⟩
    · rintro ⟨_, ⟨digit, ns, hdigit, hns, rfl⟩, rfl⟩
      exact ⟨digit, hdigit, ns, hns, ofDigits_reverse_cons high digit ns⟩

theorem hexNumber_zero {n : Nat} {ds : List Char} : hexNumber 0 ds = some n ↔ IsHexNumber ds n := by
  simp only [hexNumber_eq_some_iff, Nat.mul_zero, Nat.zero_add, IsHexNumber]

theorem charOfNat_eq_some_iff {n : Nat} {x : Char} : charOfNat n = some x ↔ x.toNat = n := by
  unfold charOfNat
  by_cases hvalid : n.isValidChar
  · rw [dif_pos hvalid, Option.some.injEq, ← Char.toNat_inj]
    exact eq_comm
  · rw [dif_neg hvalid]
    refine ⟨fun h => (by cases h), ?_⟩
    rintro rfl
    exact absurd x.valid hvalid

/-- The number of digits is a character. -/
theorem hexChar_iff {ds : List Char} {x : Char} :
    (hexNumber 0 ds).bind charOfNat = some x ↔ IsHexNumber ds x.toNat := by
  simp only [Option.bind_eq_some_iff, charOfNat_eq_some_iff, hexNumber_zero, exists_eq_right']

/-! ## Single escapes -/

section Escape

variable {e x : Char} {w : List Char}

theorem simpleEscape_eq_some_iff : simpleEscape e = some x ↔ (e, x) ∈ shortEscapes := by
  constructor
  · intro h
    unfold simpleEscape at h
    repeat' split at h
    all_goals first | cases h; subst e; decide | cases h
  · intro h
    have all : ∀ p ∈ shortEscapes, simpleEscape p.1 = some p.2 := by decide
    exact all (e, x) h

theorem not_isHexNumber_plus {ds : List Char} {n : Nat} : ¬IsHexNumber ('+' :: ds) n := by
  rintro ⟨ns, hns, -⟩
  obtain ⟨n, _, hplus, -⟩ := List.forall₂_cons_left_iff.1 hns
  cases hexValue_eq_some_iff.2 hplus

theorem escape_unicode_iff {a b c d : Char} : Escape ['u', a, b, c, d] x ↔ IsHexNumber [a, b, c, d] x.toNat := by
  refine ⟨fun h => ?_, .unicode⟩
  cases h with
  | unicode h => exact h

theorem signedEscape_iff {a b c d : Char} :
    SignedEscape ['u', a, b, c, d] x ↔ a = '+' ∧ IsHexNumber [b, c, d] x.toNat := by
  constructor
  · rintro ⟨h⟩
    exact ⟨rfl, h⟩
  · rintro ⟨rfl, h⟩
    exact ⟨h⟩

/-- A character is read off the four characters behind `u` just if the five are an escape. -/
theorem unicodeEscape_eq_some_iff {a b c d : Char} :
    unicodeEscape a b c d = some x ↔ LaxEscape ['u', a, b, c, d] x := by
  rw [unicodeEscape, hexChar_iff, LaxEscape, escape_unicode_iff, signedEscape_iff]
  split
  · rename_i hplus
    subst hplus
    exact ⟨fun h => .inr ⟨rfl, h⟩, fun h => (h.resolve_left not_isHexNumber_plus).2⟩
  · rename_i hplus
    exact ⟨.inl, fun h => h.resolve_right fun h => hplus h.1⟩

/-- An escape is decoded to its character. -/
theorem decode_escape (h : LaxEscape w x) (rest : List Char) :
    decode ('\\' :: (w ++ rest)) = (decode rest).map (x :: ·) := by
  rcases h with h | h
  · cases h with
    | short h =>
      have hs := simpleEscape_eq_some_iff.2 h
      refine decode_simple hs ?_ rest
      rintro rfl
      cases hs
    | unicode h => exact decode_unicode (unicodeEscape_eq_some_iff.2 (.inl (.unicode h))) rest
  · cases h with
    | mk h => exact decode_unicode (unicodeEscape_eq_some_iff.2 (.inr (.mk h))) rest

end Escape

/-! ## Whole strings -/

section Spells

variable {E F : List Char → Char → Prop} {cs v : List Char}

theorem Spells.mono (hEF : ∀ w x, E w x → F w x) (h : Spells E cs v) : Spells F cs v := by
  induction h with
  | nil => exact .nil
  | plain hc _ ih => exact .plain hc ih
  | escape hw _ ih => exact .escape (hEF _ _ hw) ih

theorem Spells.of_lax (h : Spells LaxEscape cs v) (hsign : ¬HasSign cs) : Spells Escape cs v := by
  induction h with
  | nil => exact .nil
  | @plain c cs v hc _ ih =>
    refine .plain hc (ih ?_)
    rintro ⟨front, rest, u, rfl, hfront⟩
    exact hsign ⟨c :: front, rest, c :: u, rfl, .plain hc hfront⟩
  | @escape w cs v x hw _ ih =>
    rcases hw with hw | hsigned
    · refine .escape hw (ih ?_)
      rintro ⟨front, rest, u, rfl, hfront⟩
      exact hsign ⟨'\\' :: (w ++ front), rest, x :: u, by rw [← List.append_assoc]; rfl, .escape hw hfront⟩
    · cases hsigned with
      | mk _ => exact absurd ⟨[], _, [], rfl, .nil⟩ hsign

/-- Where no escape has a plus sign, the escapes of the query language are all there are. -/
theorem spells_iff_of_not_hasSign (hsign : ¬HasSign cs) : Spells LaxEscape cs v ↔ Spells Escape cs v :=
  ⟨fun h => h.of_lax hsign, .mono fun _ _ => .inl⟩

theorem not_spells_sign {rest : List Char} : ¬Spells Escape ('\\' :: 'u' :: '+' :: rest) v := by
  generalize hcs : '\\' :: 'u' :: '+' :: rest = cs
  rintro (_ | ⟨hc, -⟩ | ⟨hw, -⟩)
  · cases hcs
  · exact hc (List.cons.inj hcs).1.symm
  · cases hw with
    | short h =>
      cases (List.cons.inj (List.cons.inj hcs).2).1
      exact absurd (simpleEscape_eq_some_iff.2 h) (by rintro ⟨⟩)
    | unicode h =>
      cases (List.cons.inj (List.cons.inj (List.cons.inj hcs).2).2).1
      exact not_isHexNumber_plus h

/-- The rest of the characters is decoded, too. -/
theorem exists_of_map_eq_ok {r : Except (List Char) (List Char)} {c : Char} (h : r.map (c :: ·) = .ok v) :
    ∃ tail, v = c :: tail ∧ r = .ok tail := by
  cases r with
  | error bad => cases h
  | ok tail => exact ⟨tail, (Except.ok.inj h).symm, rfl⟩

/-- Characters are decoded to a string just if they spell it. -/
theorem decode_iff : decode cs = .ok v ↔ Spells LaxEscape cs v := by
  constructor
  · intro h
    fun_induction decode cs generalizing v with
    | case1 =>
      obtain rfl := Except.ok.inj h
      exact .nil
    | case3 a b c d rest x hx ih =>
      obtain ⟨tail, rfl, hrest⟩ := exists_of_map_eq_ok h
      exact .escape (unicodeEscape_eq_some_iff.1 hx) (ih hrest)
    | case6 e rest hu hshort x hx ih =>
      obtain ⟨tail, rfl, hrest⟩ := exists_of_map_eq_ok h
      exact .escape (.inl (.short (simpleEscape_eq_some_iff.1 hx))) (ih hrest)
    | case8 c rest hend _ _ hmore ih =>
      obtain ⟨tail, rfl, hrest⟩ := exists_of_map_eq_ok h
      refine .plain ?_ (ih hrest)
      rintro rfl
      cases rest with
      | nil => exact hend rfl rfl
      | cons e rest => exact hmore e rest rfl rfl
    | _ => cases h
  · intro h
    induction h with
    | nil => rfl
    | plain hc _ ih =>
      rw [decode_plain hc, ih]
      rfl
    | escape hw _ ih =>
      rw [decode_escape hw, ih]
      rfl

/-- A quoted text stands for a string just if the characters between its quotes spell it. -/
theorem unquote_iff {text value : String} (htext : text.toList = '"' :: cs ++ ['"']) :
    unquote text = .ok value ↔ Spells LaxEscape cs value.toList := by
  rw [unquote, htext, contents_quoted, ← decode_iff]
  cases decode cs with
  | error bad => exact ⟨fun h => (by cases h), fun h => (by cases h)⟩
  | ok v => simp only [Except.ok.injEq, ← String.toList_inj, String.toList_ofList]

end Spells

end QueryBatch.Text.Quoted
