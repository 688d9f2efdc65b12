import QueryBatch.Proofs.Token.Lexeme

/-!
# Printed strings as tokens

The printed form of a string, in front of anything but a quote, is a token of its own, and what follows is cut into
tokens as if it stood alone.

* `Token.movedBy`: a token further back in a text. `scanFrom_add`, `foldr_cons_movedBy`: what stands in front of
  characters moves their tokens and does nothing else to them.
* `scan_quote`: the tokens of a printed string and what follows it.
-/

namespace QueryBatch.Token

open Text

/-- A token that stands `n` bytes further back. -/
def movedBy (n : Nat) (t : Token) : Token := ⟨t.kind, t.text, ⟨n + t.span.start, n + t.span.stop⟩⟩

/-- The tokens of characters move with the offset of the characters. -/
theorem scanFrom_add (n skip offset : Nat) (cs : List Char) :
    scanFrom skip (n + offset) cs = (scanFrom skip offset cs).map (movedBy n) := by
  induction cs generalizing skip offset with
  | nil => cases skip <;> rfl
  | cons c rest ih =>
    cases skip with
    | succ skip => exact ih skip offset
    | zero =>
      simp only [scanFrom, List.map_cons, Nat.add_assoc, ih]
      rfl

theorem cons_movedBy (n : Nat) (t : Token) (us : List Token) :
    cons (t.movedBy n) (us.map (movedBy n)) = (cons t us).map (movedBy n) := by
  cases us with
  | nil => rfl
  | cons u us =>
    -- a token is garbage wherever it stands
    have hkinds : (t.movedBy n).kind = .garbage ∧ (u.movedBy n).kind = .garbage ↔
        t.kind = .garbage ∧ u.kind = .garbage := Iff.rfl
    by_cases hg : t.kind = .garbage ∧ u.kind = .garbage
    · rw [List.map_cons, cons, if_pos (hkinds.2 hg), cons, if_pos hg]
      rfl
    · rw [List.map_cons, cons, if_neg (mt hkinds.1 hg), cons, if_neg hg]
      rfl

theorem foldr_cons_movedBy (n : Nat) (us : List Token) :
    (us.map (movedBy n)).foldr cons [] = (us.foldr cons []).map (movedBy n) := by
  induction us with
  | nil => rfl
  | cons u us ih => rw [List.map_cons, List.foldr_cons, List.foldr_cons, ih, cons_movedBy]

/-- The printed form of a string, in front of a text that does not start with a quote, is the first token, a string over
its whole extent, and stands for the string. The other tokens are those of the text, moved behind it. -/
theorem scan_quote (s text : String) (h : text.toList.head? ≠ some '"') :
    scan (Quoted.quote s ++ text) = ⟨.string, Quoted.quote s, ⟨0, (Quoted.quote s).utf8ByteSize⟩⟩ ::
        (scan text).map (movedBy (Quoted.quote s).utf8ByteSize) ∧
      Quoted.unquote (Quoted.quote s) = .ok s := by
  refine ⟨?_, Quoted.unquote_quote s⟩
  have hchars : (Quoted.quote s ++ text).toList = '"' :: (Quoted.encode s.toList ++ ['"'] ++ text.toList) := by
    rw [String.toList_append, Quoted.toList_quote]
    rfl
  have hsize : byteLength ('"' :: (Quoted.encode s.toList ++ ['"'])) = (Quoted.quote s).utf8ByteSize := by
    rw [← byteLength_toList, Quoted.toList_quote]
    rfl
  have hfirst := scanFrom_token (lexeme_quote s h) 0
  rw [hsize, Nat.zero_add, ← Nat.add_zero (Quoted.quote s).utf8ByteSize, scanFrom_add] at hfirst
  rw [scan, hchars, hfirst, List.foldr_cons, foldr_cons_movedBy]
  exact cons_of_ne_garbage (by simp) _

/-- A string of a quote, a backslash, a control character, a line feed and a letter of two bytes, in front of a name. -/
theorem scan_quote_sample : "x".toList.head? ≠ some '"' ∧
    scan (Quoted.quote "\"\\\x01\né" ++ "x") = ⟨.string, "\"\\\"\\\\\\u0001\\né\"", ⟨0, 16⟩⟩ ::
        (scan "x").map (movedBy 16) ∧
      Quoted.unquote (Quoted.quote "\"\\\x01\né") = .ok "\"\\\x01\né" := by
  have hx : "x".toList.head? ≠ some '"' := by decide
  exact ⟨hx, scan_quote _ _ hx⟩

/-- An empty string in front of a quote opens a block string. -/
example : (scan (Quoted.quote "" ++ "\"")).map Token.kind = [.blockString] := by decide

end QueryBatch.Token
