import QueryBatch.Proofs.Token.Pattern
import QueryBatch.Proofs.Token.Place

/-!
# The tokens of a text are a cut of it

* `Fits`: what the patterns ask of a token in front of the characters that follow it.
* `Cuts`: characters cut into tokens, none of them empty, each at its place and fit.
* `cuts_scan`: the tokens of a text are such a cut. `isChain_scan`: no two neighbours are garbage.
* `scan_lossless`: so nothing of a text is lost, its tokens tile it, and each is the longest match at its place.
-/

namespace QueryBatch

open Text

theorem Text.BlockString.scanBody_le (cs : List Char) : scanBody cs ≤ cs.length := by
  fun_induction scanBody cs with
  | case1 rest ih => simp only [List.length_cons]; omega
  | case2 => simp only [List.length_cons]; omega
  | case3 c rest _ _ ih => simp only [List.length_cons]; omega
  | case4 => exact Nat.le_refl 0

theorem Text.byteLength_pos {own : List Char} (h : own ≠ []) : 0 < byteLength own := by
  obtain ⟨c, rest, rfl⟩ := List.exists_cons_of_ne_nil h
  have hpos := c.utf8Size_pos
  rw [byteLength]
  omega

namespace Token

/-! ## Single tokens -/

/-- What the patterns ask of a token with the characters `own` in front of `after`. -/
structure Fits (kind : TokenKind) (own after : List Char) : Prop where
  longest : kind ≠ .garbage → kind ≠ .blockString → IsLongest kind own (own ++ after)
  /-- Opening quotes are the longest match, and the scan of a body follows them. -/
  block : kind = .blockString → IsLongest kind ['"', '"', '"'] (own ++ after) ∧
    ∃ body, own = '"' :: '"' :: '"' :: body ∧ body.length = BlockString.scanBody (body ++ after)
  /-- Nothing matches at any character of garbage. -/
  unmatched : kind = .garbage → ∀ part, part ≠ [] → part <:+ own →
    ∀ (other : TokenKind), ∀ w ∈ other.pattern, ¬w <+: part ++ after

section Lexeme

variable {c : Char} {rest : List Char}

theorem quotedLength_cases (rest : List Char) :
    ((quotedLength rest).1 ≠ .garbage ∧ (quotedLength rest).1 ≠ .blockString) ∨
      ∃ more, rest = '"' :: '"' :: more ∧ quotedLength rest = (.blockString, 3 + BlockString.scanBody more) := by
  unfold quotedLength
  split
  · rename_i hquotes
    obtain ⟨more, rfl⟩ := List.isPrefixOf_iff_prefix.1 hquotes
    exact .inr ⟨more, rfl, rfl⟩
  · left
    dsimp only
    split <;> decide

/-- A token is matched by a pattern, unless it is one character of garbage or a block string, which goes on behind the
quotes that are matched. -/
theorem lexeme_cases (c : Char) (rest : List Char) :
    ((lexeme c rest).1 ≠ .garbage ∧ (lexeme c rest).1 ≠ .blockString) ∨ lexeme c rest = (.garbage, 1) ∨
      ∃ more, c = '"' ∧ rest = '"' :: '"' :: more ∧ lexeme c rest = (.blockString, 3 + BlockString.scanBody more) := by
  by_cases hm : c ∈ marks
  · cases hs : (lexeme c rest).1.sign? with
    | some s => exact .inl ⟨fun h => (by rw [h] at hs; cases hs), fun h => (by rw [h] at hs; cases hs)⟩
    | none =>
      rcases mark_cases hm hs with rfl | rfl | rfl | rfl
      · exact .inl ⟨fun h => (by cases h), fun h => (by cases h)⟩
      · simp only [lexeme]
        split
        · exact .inl (by decide)
        · exact .inr (.inl rfl)
      · rcases quotedLength_cases rest with h | ⟨more, rfl, h⟩
        · exact .inl h
        · exact .inr (.inr ⟨more, rfl, rfl, h⟩)
      · exact .inl ⟨fun h => (by cases h), fun h => (by cases h)⟩
  · rw [lexeme_other hm]
    split
    · exact .inl ⟨fun h => (by cases h), fun h => (by cases h)⟩
    · split
      · exact .inl ⟨fun h => (by cases h), fun h => (by cases h)⟩
      · split
        · exact .inl (by split <;> exact ⟨fun h => (by cases h), fun h => (by cases h)⟩)
        · exact .inr (.inl rfl)

theorem lexeme_blockString (hk : (lexeme c rest).1 = .blockString) : ∃ more, c = '"' ∧ rest = '"' :: '"' :: more ∧
    (lexeme c rest).2 = 3 + BlockString.scanBody more := by
  rcases lexeme_cases c rest with h | h | ⟨more, hc, hrest, h⟩
  · exact absurd hk h.2
  · rw [h] at hk
    cases hk
  · exact ⟨more, hc, hrest, congrArg Prod.snd h⟩

theorem lexeme_garbage (hk : (lexeme c rest).1 = .garbage) : (lexeme c rest).2 = 1 := by
  rcases lexeme_cases c rest with h | h | ⟨more, hc, hrest, h⟩
  · exact absurd hk h.1
  · exact congrArg Prod.snd h
  · rw [h] at hk
    cases hk

/-- The token that starts with a character fits the patterns. -/
theorem fits_lexeme (c : Char) (rest : List Char) : Fits (lexeme c rest).1
    (c :: rest.take ((lexeme c rest).2 - 1)) (rest.drop ((lexeme c rest).2 - 1)) where
  longest hg hb := by
    rw [List.cons_append, List.take_append_drop]
    exact isLongest_lexeme hg hb
  block hb := by
    obtain ⟨more, rfl, rfl, hlength⟩ := lexeme_blockString hb
    have hle := BlockString.scanBody_le more
    rw [List.cons_append, List.take_append_drop, hb, hlength]
    refine ⟨isLongest_quotes more, more.take (BlockString.scanBody more), ?_, ?_⟩
    · rw [show 3 + BlockString.scanBody more - 1 = BlockString.scanBody more + 1 + 1 by omega]
      rfl
    · rw [show 3 + BlockString.scanBody more - 1 = BlockString.scanBody more + 1 + 1 by omega]
      rw [List.drop_succ_cons, List.drop_succ_cons, List.take_append_drop, List.length_take]
      omega
  unmatched hg part hne hpart other w hw hprefix := by
    rw [lexeme_garbage hg] at hpart hprefix
    obtain rfl : part = [c] := by
      rcases List.suffix_cons_iff.1 hpart with rfl | h
      · rfl
      · exact absurd (List.suffix_nil.1 h) hne
    exact (covers_of_mem_pattern hw hprefix).1 hg

end Lexeme

/-! ## Cuts -/

/-- Characters that start at an offset, cut into tokens. -/
inductive Cuts : (offset : Nat) → List Char → List Token → Prop
  | nil (offset : Nat) : Cuts offset [] []
  | cons {offset : Nat} {kind : TokenKind} {own after : List Char} {ts : List Token} : own ≠ [] →
      Fits kind own after → Cuts (offset + byteLength own) after ts →
      Cuts offset (own ++ after) (⟨kind, String.ofList own, ⟨offset, offset + byteLength own⟩⟩ :: ts)

/-- What is left of characters is cut by the scan. -/
theorem cuts_scanFrom (skip offset : Nat) (cs : List Char) :
    Cuts offset (cs.drop skip) (scanFrom skip offset cs) := by
  induction cs generalizing skip offset with
  | nil => cases skip <;> exact .nil offset
  | cons c rest ih =>
    cases skip with
    | succ skip => exact ih skip offset
    | zero =>
      have hcut := Cuts.cons (List.cons_ne_nil c _) (fits_lexeme c rest) (ih ((lexeme c rest).2 - 1)
        (offset + byteLength (c :: rest.take ((lexeme c rest).2 - 1))))
      rwa [List.cons_append, List.take_append_drop] at hcut

/-- Garbage in front of garbage is garbage. -/
theorem Fits.append {own own' after : List Char} (h : Fits .garbage own (own' ++ after))
    (h' : Fits .garbage own' after) : Fits .garbage (own ++ own') after where
  longest hg := absurd rfl hg
  block := nofun
  unmatched _ part hne hpart other w hw hprefix := by
    obtain ⟨front, hfront⟩ := hpart
    rcases List.append_eq_append_iff.1 hfront with ⟨first, rfl, rfl⟩ | ⟨more, rfl, rfl⟩
    · rw [List.append_assoc] at hprefix
      by_cases hfirst : first = []
      · rw [hfirst, List.nil_append] at hne hprefix
        exact h'.unmatched rfl own' hne (List.suffix_refl own') other w hw hprefix
      · exact h.unmatched rfl first hfirst (List.suffix_append front first) other w hw hprefix
    · exact h'.unmatched rfl part hne (List.suffix_append more part) other w hw hprefix

/-- One of two neighbours that are garbage. -/
theorem Cuts.join {offset : Nat} {cs : List Char} {t : Token} {us : List Token} (h : Cuts offset cs (t :: us)) :
    Cuts offset cs (Token.cons t us) := by
  cases us with
  | nil => exact h
  | cons u us =>
    simp only [Token.cons]
    split
    · rename_i hg
      cases h with
      | @cons _ kind own _ _ hne hfits hrest =>
        cases hrest with
        | @cons _ kind' own' after _ hne' hfits' hrest =>
          obtain ⟨rfl, rfl⟩ : kind = .garbage ∧ kind' = .garbage := hg
          rw [Nat.add_assoc, ← byteLength_append] at hrest
          have hcut := Cuts.cons (List.append_ne_nil_of_left_ne_nil hne own') (hfits.append hfits') hrest
          rw [List.append_assoc, String.ofList_append, byteLength_append, ← Nat.add_assoc] at hcut
          exact hcut
    · exact h

theorem Cuts.foldr {offset : Nat} {cs : List Char} {us : List Token} (h : Cuts offset cs us) :
    Cuts offset cs (us.foldr Token.cons []) := by
  induction h with
  | nil offset => exact .nil offset
  | cons hne hfits _ ih => exact (Cuts.cons hne hfits ih).join

/-- The tokens of a text are a cut of its characters. -/
theorem cuts_scan (text : String) : Cuts 0 text.toList (scan text) := (cuts_scanFrom 0 0 text.toList).foldr

/-! ## Neighbours -/

/-- Not both of two tokens are garbage. -/
def Apart (t u : Token) : Prop := ¬(t.kind = .garbage ∧ u.kind = .garbage)

theorem isChain_cons {t : Token} {us : List Token} (h : us.IsChain Apart) : (Token.cons t us).IsChain Apart := by
  cases us with
  | nil => exact .singleton t
  | cons u us =>
    simp only [Token.cons]
    split
    · rename_i hg
      cases us with
      | nil => exact .singleton _
      | cons v us =>
        obtain ⟨hapart, htail⟩ := List.isChain_cons_cons.1 h
        exact List.isChain_cons_cons.2 ⟨fun hv => hapart ⟨hg.2, hv.2⟩, htail⟩
    · rename_i hg
      exact List.isChain_cons_cons.2 ⟨hg, h⟩

/-- No two neighbours among the tokens of a text are garbage. -/
theorem isChain_scan (text : String) : (scan text).IsChain Apart := by
  rw [scan]
  induction scanFrom 0 0 text.toList with
  | nil => exact .nil
  | cons t us ih => exact isChain_cons ih

/-! ## Tiles -/

/-- Tokens that cover the offsets from a start to a stop, each starting where the one before stops, none of them
empty. -/
def Tiles : (start : Nat) → List Token → (stop : Nat) → Prop
  | start, [], stop => start = stop
  | start, t :: ts, stop => t.span.start = start ∧ start < t.span.stop ∧ Tiles t.span.stop ts stop

section Cuts

variable {offset : Nat} {cs : List Char} {ts : List Token}

theorem Cuts.tiles (h : Cuts offset cs ts) : Tiles offset ts (offset + byteLength cs) := by
  induction h with
  | nil offset => exact rfl
  | cons hne _ _ ih =>
    rw [Nat.add_assoc, ← byteLength_append] at ih
    exact ⟨rfl, Nat.lt_add_of_pos_right (byteLength_pos hne), ih⟩

theorem Cuts.flatMap_text (h : Cuts offset cs ts) : ts.flatMap (fun t => t.text.toList) = cs := by
  induction h with
  | nil => rfl
  | cons _ _ _ ih => rw [List.flatMap_cons, ih, String.toList_ofList]

/-- Each token of a cut stands in front of what follows it. -/
theorem Cuts.exists_place (h : Cuts offset cs ts) {t : Token} (ht : t ∈ ts) : ∃ before after,
    cs = before ++ t.text.toList ++ after ∧ t.span.start = offset + byteLength before ∧
      t.span.stop = t.span.start + byteLength t.text.toList ∧ Fits t.kind t.text.toList after := by
  induction h with
  | nil => cases ht
  | @cons offset kind own after ts hne hfits hrest ih =>
    rcases List.mem_cons.1 ht with rfl | ht
    · rw [String.toList_ofList]
      exact ⟨[], after, rfl, rfl, rfl, hfits⟩
    · obtain ⟨before, after, rfl, hstart, hstop, hfits⟩ := ih ht
      refine ⟨own ++ before, after, by simp only [List.append_assoc], ?_, hstop, hfits⟩
      rw [hstart, byteLength_append, Nat.add_assoc]

end Cuts

/-- The tokens of a text joined give the text. They tile its bytes, between characters, and no two neighbours are
garbage. Each stands in the text at its place and is the longest match of all patterns there, garbage and block strings
apart; garbage matches nowhere. -/
theorem scan_lossless (text : String) :
    (scan text).flatMap (fun t => t.text.toList) = text.toList ∧
      Tiles 0 (scan text) text.utf8ByteSize ∧
      (∀ t ∈ scan text, t.span.FitsIn text) ∧
      (scan text).IsChain Apart ∧
      ∀ t ∈ scan text, ∃ before after, text = before ++ t.text ++ after ∧
        t.span = ⟨before.utf8ByteSize, before.utf8ByteSize + t.text.utf8ByteSize⟩ ∧
        Fits t.kind t.text.toList after.toList := by
  have hcut := cuts_scan text
  have htiles := hcut.tiles
  rw [Nat.zero_add, byteLength_toList] at htiles
  refine ⟨hcut.flatMap_text, htiles, fun t ht => ((laid_scan text).fits t ht).span, isChain_scan text, fun t ht => ?_⟩
  obtain ⟨before, after, hsplit, hstart, hstop, hfits⟩ := hcut.exists_place ht
  refine ⟨.ofList before, .ofList after, ?_, ?_, by rwa [String.toList_ofList]⟩
  · rw [← String.toList_inj]
    simpa using hsplit
  · rw [utf8ByteSize_ofList, ← byteLength_toList, ← Nat.zero_add (byteLength before), ← hstart, ← hstop]

end Token

end QueryBatch
