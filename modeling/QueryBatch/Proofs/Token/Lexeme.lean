import QueryBatch.Proofs.Text.Number
import QueryBatch.Proofs.Text.Quoted
import QueryBatch.Token.Scan

/-!
# What a text is cut into

* `Lexeme`: a token without its place. `Token.bare` forgets the place.
* `IsName`, `IsNumber`: the texts that are one name or one number. `TokenKind.sign?`: the text of a class whose tokens
  all have one text.
* `Token.IsSound`: tokens whose text fits their class. `isSound_of_mem_scan`: those of a text do.
* `pairwise_starts_scan`: the tokens of a text start one behind the other; `pairwise_places_scan`: and before its end.
* `Lexes`: the lexemes of characters, none of them garbage, trivia left out. It is built from the right, one token,
  blank or comma at a time.
* `Token.lexemes`: the lexemes of a text. `bare_scan`: they are those of its characters.
-/

namespace QueryBatch

/-- A token without its place. -/
structure Lexeme where
  kind : TokenKind
  text : String
  deriving DecidableEq, Repr, Inhabited

/-- The text of a class whose tokens all have one text. -/
def TokenKind.sign? : TokenKind → Option String
  | .bang => some "!"
  | .dollar => some "$"
  | .amp => some "&"
  | .lParen => some "("
  | .rParen => some ")"
  | .spread => some "..."
  | .colon => some ":"
  | .equals => some "="
  | .atSign => some "@"
  | .lBracket => some "["
  | .rBracket => some "]"
  | .lBrace => some "\x7b"
  | .pipe => some "|"
  | .rBrace => some "\x7d"
  | _ => none

namespace Token

open Text

/-- The token without its place. -/
def bare (t : Token) : Lexeme := ⟨t.kind, t.text⟩

/-! ## Names and numbers -/

/-- The text of one name. -/
def IsName (s : String) : Prop := ∃ c rest, s.toList = c :: rest ∧ isNameStart c = true ∧ rest.all isNameChar = true

instance (s : String) : Decidable (IsName s) :=
  match h : s.toList with
  | [] => isFalse fun ⟨_, _, hs, _⟩ => by rw [h] at hs; cases hs
  | c :: rest =>
    if hc : isNameStart c = true ∧ rest.all isNameChar = true then isTrue ⟨c, rest, h, hc.1, hc.2⟩
    else isFalse fun ⟨_, _, hs, h1, h2⟩ => by rw [h] at hs; cases hs; exact hc ⟨h1, h2⟩

/-- The text of one number, an integer or not. -/
def IsNumber (isInteger : Bool) (s : String) : Prop := numberLength s.toList = some (s.toList.length, isInteger)

/-- A token whose text fits its class, as far as names, numbers and signs go. -/
structure IsSound (t : Token) : Prop where
  name : t.kind = .name → IsName t.text
  int : t.kind = .int → IsNumber true t.text
  float : t.kind = .float → IsNumber false t.text
  sign : ∀ s, t.kind.sign? = some s → t.text = s

/-! ## Tokens by their first character -/

/-- The characters that start tokens of their own. -/
def marks : List Char := ['!', '$', '&', '(', ')', ':', '=', '@', '[', ']', '{', '|', '}', ',', '.', '"', '#']

/-- The class of a token that starts with a mark. -/
theorem lexeme_mark {c : Char} (h : c ∈ marks) (rest : List Char) :
    (lexeme c rest).1 ≠ .name ∧ (lexeme c rest).1 ≠ .int ∧ (lexeme c rest).1 ≠ .float := by
  have quoted : ∀ rest,
      (quotedLength rest).1 ≠ .name ∧ (quotedLength rest).1 ≠ .int ∧ (quotedLength rest).1 ≠ .float := by
    intro rest
    simp only [quotedLength]
    split
    · simp
    · split <;> simp
  simp only [marks, List.mem_cons, List.not_mem_nil, or_false] at h
  rcases h with rfl | rfl | rfl | rfl | rfl | rfl | rfl | rfl | rfl | rfl | rfl | rfl | rfl | rfl | rfl | rfl | rfl <;>
    simp only [lexeme] <;> first | exact quoted rest | (split <;> simp) | simp

/-- The token that starts with no mark. -/
theorem lexeme_other {c : Char} (h : c ∉ marks) (rest : List Char) :
    lexeme c rest =
      if isNameStart c then (.name, 1 + run isNameChar rest)
      else if isBlankChar c then (.whitespace, 1 + run isBlankChar rest)
      else match numberLength (c :: rest) with
        | some (length, isInteger) => (if isInteger then .int else .float, length)
        | none => (.garbage, 1) := by
  simp only [marks, List.mem_cons, List.not_mem_nil, or_false, not_or] at h
  obtain ⟨h1, h2, h3, h4, h5, h6, h7, h8, h9, h10, h11, h12, h13, h14, h15, h16, h17⟩ := h
  unfold lexeme
  split
  case h_18 => rfl
  all_goals contradiction

theorem not_mark_of_isNameStart {c : Char} (h : isNameStart c = true) : c ∉ marks := by
  have all : ∀ d ∈ marks, (!isNameStart d) = true := List.all_eq_true.1 (by decide)
  intro hm
  simpa [h] using all c hm

theorem not_mark_of_isBlankChar {c : Char} (h : isBlankChar c = true) : c ∉ marks ∧ isNameStart c = false := by
  have all : ∀ d ∈ marks, (!isBlankChar d) = true := List.all_eq_true.1 (by decide)
  refine ⟨fun hm => by simpa [h] using all c hm, ?_⟩
  simp only [isBlankChar, Bool.or_eq_true, beq_iff_eq] at h
  rcases h with (((rfl | rfl) | rfl) | rfl) | rfl <;> decide

/-- A number starts with a minus sign or a digit. -/
theorem number_start {c : Char} {rest : List Char} {n : Nat × Bool} (h : numberLength (c :: rest) = some n) :
    c = '-' ∨ c.isDigit = true := by
  by_cases hc : c = '-'
  · exact .inl hc
  · right
    simp only [numberLength, List.head?_cons, Option.some.injEq, if_neg hc, List.drop_zero, integerLength] at h
    by_cases hd : c = '0'
    · subst hd
      decide
    · by_cases hd' : c.isDigit = true
      · exact hd'
      · simp [hd, hd'] at h

theorem not_mark_of_number {c : Char} (h : c = '-' ∨ c.isDigit = true) :
    c ∉ marks ∧ isNameStart c = false ∧ isBlankChar c = false := by
  rcases h with rfl | h
  · decide
  · have all : ∀ d ∈ marks, (!d.isDigit) = true := List.all_eq_true.1 (by decide)
    refine ⟨fun hm => by simpa [h] using all c hm, ?_, ?_⟩
    · cases hs : isNameStart c with
      | false => rfl
      | true =>
        simp only [isNameStart, Bool.or_eq_true, beq_iff_eq] at hs
        rcases hs with rfl | hs
        · cases h
        · unfold Char.isAlpha Char.isUpper Char.isLower at hs
          simp only [Char.isDigit, Bool.or_eq_true, Bool.and_eq_true, decide_eq_true_eq, ge_iff_le,
            UInt32.le_iff_toNat_le] at h hs
          simp at h hs
          omega
    · cases hb : isBlankChar c with
      | false => rfl
      | true =>
        simp only [isBlankChar, Bool.or_eq_true, beq_iff_eq] at hb
        rcases hb with (((rfl | rfl) | rfl) | rfl) | rfl <;> cases h

/-! ## Texts of the tokens of a text -/

/-- A run at the start of characters is cut off by its length. -/
theorem take_run (p : Char → Bool) (cs : List Char) : cs.take (run p cs) = cs.takeWhile p :=
  (List.prefix_iff_eq_take.1 (List.takeWhile_prefix p)).symm

theorem sign?_quotedLength (rest : List Char) : (quotedLength rest).1.sign? = none := by
  simp only [quotedLength]
  split
  · rfl
  · split <;> rfl

/-- A token of a class with one text has that text. -/
theorem text_of_sign?_lexeme {c : Char} {rest : List Char} {s : String} (h : (lexeme c rest).1.sign? = some s) :
    String.ofList (c :: rest.take ((lexeme c rest).2 - 1)) = s := by
  by_cases hm : c ∈ marks
  · simp only [marks, List.mem_cons, List.not_mem_nil, or_false] at hm
    rcases hm with rfl | rfl | rfl | rfl | rfl | rfl | rfl | rfl | rfl | rfl | rfl | rfl | rfl | rfl | rfl | rfl | rfl
    case inr.inr.inr.inr.inr.inr.inr.inr.inr.inr.inr.inr.inr.inr.inl =>
      -- three dots, or a stray one
      by_cases hdots : ['.', '.'].isPrefixOf rest = true
      · simp only [lexeme, hdots, if_true] at h ⊢
        obtain ⟨more, rfl⟩ := List.isPrefixOf_iff_prefix.1 hdots
        exact Option.some.inj h
      · simp [lexeme, hdots, TokenKind.sign?] at h
    case inr.inr.inr.inr.inr.inr.inr.inr.inr.inr.inr.inr.inr.inr.inr.inl =>
      simp only [lexeme, sign?_quotedLength] at h
      cases h
    all_goals first | exact Option.some.inj h | cases h
  · rw [lexeme_other hm] at h
    split at h
    · cases h
    · split at h
      · cases h
      · split at h
        · split at h <;> cases h
        · cases h

/-- The number that characters start with is one number. -/
theorem isNumber_of_start {c : Char} {rest : List Char} {length : Nat} {isInteger : Bool}
    (h : numberLength (c :: rest) = some (length, isInteger)) :
    IsNumber isInteger (String.ofList (c :: rest.take (length - 1))) := by
  have hpos := (numberLength_bounds h).1
  have htake : (c :: rest).take length = c :: rest.take (length - 1) := by
    obtain ⟨n, rfl⟩ := Nat.exists_eq_add_of_le' hpos
    rfl
  have := numberLength_take h
  rw [htake] at this
  simpa only [IsNumber, String.toList_ofList] using this

/-- The token that starts with a character fits its class. -/
theorem isSound_lexeme (c : Char) (rest : List Char) (span : Span) :
    IsSound ⟨(lexeme c rest).1, String.ofList (c :: rest.take ((lexeme c rest).2 - 1)), span⟩ := by
  by_cases hm : c ∈ marks
  · obtain ⟨h1, h2, h3⟩ := lexeme_mark hm rest
    exact ⟨fun h => absurd h h1, fun h => absurd h h2, fun h => absurd h h3, fun _ => text_of_sign?_lexeme⟩
  · rw [lexeme_other hm]
    by_cases hs : isNameStart c = true
    · simp only [hs, if_true, Nat.add_sub_cancel_left]
      refine ⟨fun _ => ⟨c, _, String.toList_ofList, hs, ?_⟩, nofun, nofun, nofun⟩
      rw [take_run]
      exact List.all_takeWhile
    · by_cases hb : isBlankChar c = true
      · simp only [hs, hb, if_true, if_false, Bool.false_eq_true]
        exact ⟨nofun, nofun, nofun, nofun⟩
      · simp only [hs, hb, if_false, Bool.false_eq_true]
        cases hn : numberLength (c :: rest) with
        | none => exact ⟨nofun, nofun, nofun, nofun⟩
        | some n =>
          obtain ⟨length, isInteger⟩ := n
          have number : IsNumber isInteger (String.ofList (c :: rest.take (length - 1))) :=
            isNumber_of_start hn
          cases isInteger with
          | true => exact ⟨nofun, fun _ => number, nofun, nofun⟩
          | false => exact ⟨nofun, nofun, fun _ => number, nofun⟩

theorem isSound_of_mem_scanFrom {t : Token} (skip offset : Nat) (cs : List Char) (h : t ∈ scanFrom skip offset cs) :
    t.IsSound := by
  induction cs generalizing skip offset with
  | nil => cases skip <;> cases h
  | cons c rest ih =>
    cases skip with
    | succ skip => exact ih skip offset h
    | zero =>
      simp only [scanFrom, List.mem_cons] at h
      rcases h with rfl | h
      · exact isSound_lexeme c rest _
      · exact ih _ _ h

theorem isSound_of_mem_cons {t u : Token} {us : List Token} (hu : u.IsSound) (hus : ∀ t ∈ us, t.IsSound)
    (h : t ∈ cons u us) : t.IsSound := by
  cases us with
  | nil =>
    cases List.mem_singleton.1 h
    exact hu
  | cons v vs =>
    simp only [cons] at h
    split at h
    · rcases List.mem_cons.1 h with rfl | h
      · exact ⟨nofun, nofun, nofun, nofun⟩
      · exact hus t (List.mem_cons_of_mem _ h)
    · rcases List.mem_cons.1 h with rfl | h
      · exact hu
      · exact hus t h

/-- The tokens of a text fit their classes. -/
theorem isSound_of_mem_scan {t : Token} {text : String} (h : t ∈ scan text) : t.IsSound := by
  have all : ∀ us : List Token, (∀ t ∈ us, t.IsSound) → ∀ t ∈ us.foldr cons [], t.IsSound := by
    intro us hus
    induction us with
    | nil => exact fun t ht => absurd ht List.not_mem_nil
    | cons u us ih =>
      exact fun t ht => isSound_of_mem_cons (hus u List.mem_cons_self)
        (ih fun t ht => hus t (List.mem_cons_of_mem _ ht)) ht
  exact all _ (fun t ht => isSound_of_mem_scanFrom 0 0 text.toList ht) t h

/-! ## The order of tokens -/

/-- The tokens of characters start one behind the other. -/
theorem starts_scanFrom (skip offset : Nat) (cs : List Char) :
    (∀ t ∈ scanFrom skip offset cs, offset ≤ t.span.start) ∧
      (scanFrom skip offset cs).Pairwise fun t u => t.span.start < u.span.start := by
  induction cs generalizing skip offset with
  | nil => cases skip <;> exact ⟨nofun, .nil⟩
  | cons c rest ih =>
    cases skip with
    | succ skip => exact ih skip offset
    | zero =>
      simp only [scanFrom]
      obtain ⟨hstarts, hpairwise⟩ := ih ((lexeme c rest).2 - 1)
        (offset + byteLength (c :: rest.take ((lexeme c rest).2 - 1)))
      have hsize : 0 < byteLength (c :: rest.take ((lexeme c rest).2 - 1)) := by
        have hpos := c.utf8Size_pos
        rw [byteLength]
        omega
      refine ⟨fun t ht => ?_, List.pairwise_cons.2 ⟨fun t ht => ?_, hpairwise⟩⟩
      · rcases List.mem_cons.1 ht with rfl | ht
        · exact Nat.le_refl offset
        · have hstart := hstarts t ht
          omega
      · have hstart := hstarts t ht
        dsimp only
        omega

/-- Where garbage is joined, only starts of tokens go away. -/
theorem starts_cons (t : Token) (us : List Token) :
    ((cons t us).map fun t => t.span.start).Sublist ((t :: us).map fun t => t.span.start) := by
  cases us with
  | nil => exact .refl _
  | cons u us =>
    simp only [cons]
    split
    · exact (List.sublist_cons_self _ _).cons_cons _
    · exact .refl _

theorem starts_foldr_cons (us : List Token) :
    ((us.foldr cons []).map fun t => t.span.start).Sublist (us.map fun t => t.span.start) := by
  induction us with
  | nil => exact .refl _
  | cons u us ih => exact (starts_cons u _).trans (ih.cons_cons u.span.start)

/-- The tokens of a text start one behind the other. -/
theorem pairwise_starts_scan (text : String) : ((scan text).map fun t => t.span.start).Pairwise (· < ·) :=
  (List.pairwise_map.2 (starts_scanFrom 0 0 text.toList).2).sublist (starts_foldr_cons _)

/-- The tokens of characters start in front of their end. -/
theorem start_lt_of_mem_scanFrom {t : Token} (skip offset : Nat) (cs : List Char) (h : t ∈ scanFrom skip offset cs) :
    t.span.start < offset + byteLength (cs.drop skip) := by
  induction cs generalizing skip offset with
  | nil => cases skip <;> cases h
  | cons c rest ih =>
    cases skip with
    | succ skip => exact ih skip offset h
    | zero =>
      simp only [scanFrom, List.mem_cons] at h
      rcases h with rfl | h
      · have hpos := c.utf8Size_pos
        simp only [List.drop_zero, byteLength]
        omega
      · have hlt := ih _ _ h
        have hsplit : byteLength (c :: rest.take ((lexeme c rest).2 - 1)) +
            byteLength (rest.drop ((lexeme c rest).2 - 1)) = byteLength (c :: rest) := by
          rw [← byteLength_append, List.cons_append, List.take_append_drop]
        rw [List.drop_zero]
        omega

/-- The places where the tokens of a text start, and its end, stand one behind the other. -/
theorem pairwise_places_scan (text : String) :
    (((scan text).map fun t => t.span.start) ++ [text.utf8ByteSize]).Pairwise (· < ·) := by
  refine List.pairwise_append.2 ⟨pairwise_starts_scan text, List.pairwise_singleton _ _, fun n hn m hm => ?_⟩
  obtain ⟨t, ht, rfl⟩ := List.mem_map.1 ((starts_foldr_cons _).subset hn)
  obtain rfl := List.mem_singleton.1 hm
  have hlt := start_lt_of_mem_scanFrom 0 0 _ ht
  rw [List.drop_zero, Nat.zero_add, ← utf8ByteSize_ofList, String.ofList_toList] at hlt
  exact hlt

/-! ## The lexemes of characters -/

/-- Characters whose tokens are no garbage, wherever they stand, and have these lexemes, trivia left out. -/
def Lexes (cs : List Char) (ls : List Lexeme) : Prop :=
  ∀ offset, (∀ t ∈ scanFrom 0 offset cs, t.kind ≠ .garbage) ∧
    ((scanFrom 0 offset cs).filter fun t => !t.kind.isTrivia).map bare = ls

/-- The characters that a token covers are passed over. -/
theorem scanFrom_drop (skip offset : Nat) (cs : List Char) :
    scanFrom skip offset cs = scanFrom 0 offset (cs.drop skip) := by
  induction cs generalizing skip with
  | nil => cases skip <;> rfl
  | cons c rest ih =>
    cases skip with
    | zero => rfl
    | succ skip => exact ih skip

/-- The scan of characters whose first token is known. -/
theorem scanFrom_token {c : Char} {w rest : List Char} {kind : TokenKind}
    (h : lexeme c (w ++ rest) = (kind, w.length + 1)) (offset : Nat) : scanFrom 0 offset (c :: (w ++ rest)) =
      ⟨kind, String.ofList (c :: w), ⟨offset, offset + byteLength (c :: w)⟩⟩ ::
        scanFrom 0 (offset + byteLength (c :: w)) rest := by
  simp only [scanFrom, h, Nat.add_sub_cancel, List.take_left']
  rw [scanFrom_drop, List.drop_left']
  rfl

/-- A quoted string in front of anything but a quote is one token. -/
theorem lexeme_quote (s : String) {rest : List Char} (h : rest.head? ≠ some '"') :
    lexeme '"' (Quoted.encode s.toList ++ ['"'] ++ rest) = (.string, (Quoted.encode s.toList ++ ['"']).length + 1) := by
  have hlength := Quoted.quotedLength_encode s.toList h
  simpa [lexeme] using hlength

/-- The scan of characters that start with a blank: one token of white space, up to the end of the blanks. -/
theorem scanFrom_blank {c : Char} (hc : isBlankChar c = true) (rest : List Char) (offset : Nat) :
    ∃ t : Token, t.kind = .whitespace ∧ scanFrom 0 offset (c :: rest) =
      t :: scanFrom 0 (offset + c.utf8Size + byteLength (rest.takeWhile isBlankChar)) (rest.dropWhile isBlankChar) := by
  obtain ⟨hm, hn⟩ := not_mark_of_isBlankChar hc
  have hl : lexeme c (rest.takeWhile isBlankChar ++ rest.dropWhile isBlankChar) =
      (.whitespace, (rest.takeWhile isBlankChar).length + 1) := by
    rw [List.takeWhile_append_dropWhile, lexeme_other hm, hn, hc]
    simp only [Bool.false_eq_true, if_false, if_true, run, Nat.add_comm 1]
  have hs := scanFrom_token hl offset
  rw [List.takeWhile_append_dropWhile, byteLength, ← Nat.add_assoc] at hs
  exact ⟨_, rfl, hs⟩

namespace Lexes

variable {c : Char} {w rest : List Char} {ls : List Lexeme} {kind : TokenKind}

theorem nil : Lexes [] [] := fun _ => ⟨fun _ h => (by cases h), rfl⟩

/-- One more token in front. -/
theorem token (h : lexeme c (w ++ rest) = (kind, w.length + 1)) (hg : kind ≠ .garbage) (ht : kind.isTrivia = false)
    (hr : Lexes rest ls) : Lexes (c :: (w ++ rest)) (⟨kind, String.ofList (c :: w)⟩ :: ls) := by
  intro offset
  obtain ⟨hno, hls⟩ := hr (offset + byteLength (c :: w))
  rw [scanFrom_token h]
  refine ⟨fun t hmem => ?_, ?_⟩
  · rcases List.mem_cons.1 hmem with rfl | hmem
    · exact hg
    · exact hno t hmem
  · rw [List.filter_cons_of_pos (by simp [ht]), List.map_cons, hls]
    rfl

/-- A comma in front is trivia. -/
theorem comma (hr : Lexes rest ls) : Lexes (',' :: rest) ls := by
  intro offset
  have hl : lexeme ',' ([] ++ rest) = (.comma, 1) := rfl
  have hs := scanFrom_token (w := []) hl offset
  rw [List.nil_append] at hs
  obtain ⟨hno, hls⟩ := hr (offset + byteLength [','])
  rw [hs]
  refine ⟨fun t hmem => ?_, ?_⟩
  · rcases List.mem_cons.1 hmem with rfl | hmem
    · simp
    · exact hno t hmem
  · rw [List.filter_cons_of_neg (by simp [TokenKind.isTrivia]), hls]

/-- A blank in front is trivia, on its own or with the blanks after it. -/
theorem blank (hc : isBlankChar c = true) (hr : Lexes rest ls) : Lexes (c :: rest) ls := by
  -- both scans go on behind the blanks, from the same offset
  have behind : ∀ offset, (∀ t ∈ scanFrom 0 (offset + byteLength (rest.takeWhile isBlankChar))
      (rest.dropWhile isBlankChar), t.kind ≠ .garbage) ∧
        ((scanFrom 0 (offset + byteLength (rest.takeWhile isBlankChar)) (rest.dropWhile isBlankChar)).filter
          fun t => !t.kind.isTrivia).map bare = ls := by
    intro offset
    obtain ⟨hno, hls⟩ := hr offset
    cases rest with
    | nil => exact ⟨hno, hls⟩
    | cons d rest =>
      by_cases hd : isBlankChar d = true
      · obtain ⟨t, ht, hs⟩ := scanFrom_blank hd rest offset
        rw [hs] at hno hls
        rw [List.filter_cons_of_neg (by simp [ht, TokenKind.isTrivia])] at hls
        simp only [List.takeWhile_cons, List.dropWhile_cons, hd, if_true, byteLength]
        rw [← Nat.add_assoc]
        exact ⟨fun t ht => hno t (List.mem_cons_of_mem _ ht), hls⟩
      · simp only [List.takeWhile_cons, List.dropWhile_cons, hd, if_false, Bool.false_eq_true]
        exact ⟨hno, hls⟩
  intro offset
  obtain ⟨t, ht, hs⟩ := scanFrom_blank hc rest offset
  obtain ⟨hno, hls⟩ := behind (offset + c.utf8Size)
  rw [hs]
  refine ⟨fun u hu => ?_, ?_⟩
  · rcases List.mem_cons.1 hu with rfl | hu
    · rw [ht]
      decide
    · exact hno u hu
  · rw [List.filter_cons_of_neg (by simp [ht, TokenKind.isTrivia]), hls]

end Lexes

/-! ## Tokens in front of a break -/

/-- Characters that no token before them goes on with. -/
def Breaks (rest : List Char) : Prop :=
  ∀ c, rest.head? = some c → c ∈ [' ', '\n', ',', ':', '(', ')', ']', '}', '!']

theorem breaks_nil : Breaks [] := nofun

theorem breaks_cons {c : Char} (h : c ∈ [' ', '\n', ',', ':', '(', ')', ']', '}', '!']) (rest : List Char) :
    Breaks (c :: rest) := fun d hd => by
  cases hd
  exact h

section Breaks

variable {rest : List Char}

theorem Breaks.not_isNameChar (h : Breaks rest) (c : Char) (hc : rest.head? = some c) : isNameChar c = false := by
  have all : ∀ d ∈ [' ', '\n', ',', ':', '(', ')', ']', '}', '!'], (!isNameChar d) = true :=
    List.all_eq_true.1 (by decide)
  simpa using all c (h c hc)

theorem Breaks.endsNumber (h : Breaks rest) : EndsNumber rest := by
  have all : ∀ d ∈ [' ', '\n', ',', ':', '(', ')', ']', '}', '!'],
      (!d.isDigit && d != '.' && d != 'e' && d != 'E') = true := List.all_eq_true.1 (by decide)
  intro c hc
  simpa [and_assoc] using all c (h c hc)

theorem Breaks.head?_ne_quote (h : Breaks rest) : rest.head? ≠ some '"' := by
  have none : '"' ∉ [' ', '\n', ',', ':', '(', ')', ']', '}', '!'] := by decide
  exact fun hc => none (h '"' hc)

end Breaks

namespace Lexes

variable {rest : List Char} {ls : List Lexeme} {s : String}

theorem name (hs : IsName s) (hb : Breaks rest) (hr : Lexes rest ls) :
    Lexes (s.toList ++ rest) (⟨.name, s⟩ :: ls) := by
  obtain ⟨c, w, hcw, hc, hw⟩ := hs
  have hrun : run isNameChar (w ++ rest) = w.length := by
    have hall : run isNameChar (w ++ []) = w.length := by
      rw [run, List.takeWhile_append_of_pos (List.all_eq_true.1 hw), List.takeWhile_nil, List.append_nil]
    rw [run_append (Nat.le_of_eq hall) hb.not_isNameChar, hall]
  have hl : lexeme c (w ++ rest) = (.name, w.length + 1) := by
    rw [lexeme_other (not_mark_of_isNameStart hc), hc, if_pos rfl, hrun, Nat.add_comm]
  have hs' : String.ofList (c :: w) = s := by rw [← hcw, String.ofList_toList]
  have h := Lexes.token hl (by decide) rfl hr
  rw [hs'] at h
  rw [hcw]
  exact h

theorem number {isInteger : Bool} (hs : IsNumber isInteger s) (hb : Breaks rest) (hr : Lexes rest ls) :
    Lexes (s.toList ++ rest) (⟨if isInteger then .int else .float, s⟩ :: ls) := by
  obtain ⟨c, w, hcw⟩ : ∃ c w, s.toList = c :: w :=
    List.exists_cons_of_length_pos (numberLength_bounds hs).1
  have hn : numberLength (c :: w ++ rest) = some ((c :: w).length, isInteger) := by
    have hown : numberLength (c :: w ++ []) = some ((c :: w).length, isInteger) := by
      rw [List.append_nil, ← hcw]
      exact hs
    exact numberLength_append hown hb.endsNumber
  obtain ⟨hm, h1, h2⟩ := not_mark_of_number (number_start hn)
  have hl : lexeme c (w ++ rest) = (if isInteger then .int else .float, w.length + 1) := by
    rw [lexeme_other hm, h1, h2, ← List.cons_append, hn]
    rfl
  have hs' : String.ofList (c :: w) = s := by rw [← hcw, String.ofList_toList]
  have h := Lexes.token hl (by split <;> decide) (by split <;> rfl) hr
  rw [hs'] at h
  rw [hcw]
  exact h

/-- A quoted string in front of anything but a quote. -/
theorem string (hb : rest.head? ≠ some '"') (hr : Lexes rest ls) :
    Lexes ((Quoted.quote s).toList ++ rest) (⟨.string, Quoted.quote s⟩ :: ls) := by
  have hs' : String.ofList ('"' :: (Quoted.encode s.toList ++ ['"'])) = Quoted.quote s := rfl
  have h := Lexes.token (lexeme_quote s hb) (by decide) rfl hr
  rw [hs'] at h
  rw [Quoted.toList_quote]
  exact h

/-- A token of one character in front of anything. -/
theorem sign {c : Char} {kind : TokenKind} (h : ∀ rest, lexeme c rest = (kind, 1)) (hg : kind ≠ .garbage)
    (ht : kind.isTrivia = false) (hr : Lexes rest ls) : Lexes (c :: rest) (⟨kind, String.ofList [c]⟩ :: ls) :=
  Lexes.token (w := []) (h rest) hg ht hr

theorem dots (hr : Lexes rest ls) : Lexes ('.' :: '.' :: '.' :: rest) (⟨.spread, "..."⟩ :: ls) :=
  Lexes.token (w := ['.', '.']) (show lexeme '.' (['.', '.'] ++ rest) = (.spread, 3) from rfl) (by decide) rfl hr

end Lexes

/-! ## The scan of a text -/

/-- A token that is no garbage is not merged with the next one. -/
theorem cons_of_ne_garbage {t : Token} (h : t.kind ≠ .garbage) (us : List Token) : cons t us = t :: us := by
  cases us with
  | nil => rfl
  | cons u us => exact if_neg fun hg => h hg.1

/-- Tokens of which none is garbage are not merged. -/
theorem foldr_cons_eq {ts : List Token} (h : ∀ t ∈ ts, t.kind ≠ .garbage) : ts.foldr cons [] = ts := by
  induction ts with
  | nil => rfl
  | cons t ts ih =>
    rw [List.foldr_cons, ih fun u hu => h u (List.mem_cons_of_mem _ hu),
      cons_of_ne_garbage (h t List.mem_cons_self)]

/-- The lexemes of a text, trivia left out. -/
def lexemes (text : String) : List Lexeme := ((scan text).filter fun t => !t.kind.isTrivia).map bare

/-- The scan of a text yields the lexemes of its characters. -/
theorem bare_scan {text : String} {ls : List Lexeme} (h : Lexes text.toList ls) :
    ((scan text).filter fun t => !t.kind.isTrivia).map bare = ls := by
  obtain ⟨hno, hls⟩ := h 0
  rw [scan, foldr_cons_eq hno]
  exact hls

end Token

end QueryBatch
