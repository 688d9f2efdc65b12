import QueryBatch.Proofs.Token.Lexeme

/-!
# Where the tokens of a text stand

* `Span.FitsIn`: a span of whole characters of a text. `Span.HasText`: a span at which a word stands.
* `Token.FitsIn`: a token whose span is one and, unless it is garbage, has the text of the token.
* `Token.Laid`: tokens that fit into a text and stand one behind the other. `laid_scan`: those of a text do.
-/

namespace QueryBatch

open Text

/-- A span of whole characters of a text. -/
structure Span.FitsIn (s : Span) (text : String) : Prop where
  ordered : s.start ≤ s.stop
  inside : s.stop ≤ text.utf8ByteSize
  start : (⟨s.start⟩ : String.Pos.Raw).IsValid text
  stop : (⟨s.stop⟩ : String.Pos.Raw).IsValid text

namespace Span.FitsIn

variable {s t : Span} {text : String}

theorem of_valid (hle : s.start ≤ s.stop) (hstart : (⟨s.start⟩ : String.Pos.Raw).IsValid text)
    (hstop : (⟨s.stop⟩ : String.Pos.Raw).IsValid text) : s.FitsIn text :=
  ⟨hle, hstop.le_utf8ByteSize, hstart, hstop⟩

/-- From the start of one span to the end of another one behind it. -/
theorem join (hs : s.FitsIn text) (ht : t.FitsIn text) (hle : s.start ≤ t.stop) :
    Span.FitsIn ⟨s.start, t.stop⟩ text := .of_valid hle hs.start ht.stop

theorem cover (hs : s.FitsIn text) (ht : t.FitsIn text) : (s.cover t).FitsIn text := by
  have hs' := hs.ordered
  refine .of_valid ?_ ?_ ?_
  · simp only [Span.cover]
    omega
  · rcases Nat.le_total s.start t.start with h | h
    · simpa only [Span.cover, Nat.min_eq_left h] using hs.start
    · simpa only [Span.cover, Nat.min_eq_right h] using ht.start
  · rcases Nat.le_total s.stop t.stop with h | h
    · simpa only [Span.cover, Nat.max_eq_right h] using ht.stop
    · simpa only [Span.cover, Nat.max_eq_left h] using hs.stop

end Span.FitsIn

/-- The offset behind characters that a text starts with is one between characters. -/
theorem Text.isValid_byteLength {text : String} {before after : List Char} (h : text.toList = before ++ after) :
    (⟨byteLength before⟩ : String.Pos.Raw).IsValid text := by
  refine String.Pos.Raw.isValid_iff_exists_append.2 ⟨.ofList before, .ofList after, ?_, ?_⟩
  · rw [← String.ofList_append, ← h, String.ofList_toList]
  · rw [← utf8ByteSize_ofList]
    rfl

/-- A word stands in a text at a span. -/
def Span.HasText (s : Span) (text word : String) : Prop :=
  ∃ before after, text = before ++ word ++ after ∧
    s = ⟨before.utf8ByteSize, before.utf8ByteSize + word.utf8ByteSize⟩

namespace Span.HasText

variable {s : Span} {text word : String}

theorem fitsIn (h : s.HasText text word) : s.FitsIn text := by
  obtain ⟨before, after, rfl, rfl⟩ := h
  refine .of_valid (Nat.le_add_right _ _) ?_ ?_
  · exact String.Pos.Raw.isValid_iff_exists_append.2 ⟨before, word ++ after, String.append_assoc, rfl⟩
  · exact String.Pos.Raw.isValid_iff_exists_append.2 ⟨before ++ word, after, rfl, by simp [String.Pos.Raw.ext_iff]⟩

theorem stop_eq (h : s.HasText text word) : s.stop = s.start + word.utf8ByteSize := by
  obtain ⟨before, after, -, rfl⟩ := h
  rfl

/-- Some of the characters of a text. -/
theorem of_split {before own after : List Char} (h : text.toList = before ++ own ++ after) :
    Span.HasText ⟨byteLength before, byteLength before + byteLength own⟩ text (String.ofList own) := by
  refine ⟨.ofList before, .ofList after, ?_, ?_⟩
  · rw [← String.ofList_append, ← String.ofList_append, ← h, String.ofList_toList]
  · rw [utf8ByteSize_ofList, utf8ByteSize_ofList]

end Span.HasText

namespace Token

/-- A token that stands in a text. Garbage may be made of several tokens. -/
structure FitsIn (t : Token) (text : String) : Prop where
  span : t.span.FitsIn text
  hasText : t.kind ≠ .garbage → t.span.HasText text t.text

/-- Tokens that stand in a text, one behind the other. -/
structure Laid (text : String) (ts : List Token) : Prop where
  fits : ∀ t ∈ ts, t.FitsIn text
  ordered : ts.Pairwise fun t u => t.span.stop ≤ u.span.start

variable {text : String}

theorem Laid.sublist {ts us : List Token} (h : Laid text us) (hsub : ts.Sublist us) : Laid text ts :=
  ⟨fun t ht => h.fits t (hsub.subset ht), h.ordered.sublist hsub⟩

theorem Laid.tail {t : Token} {ts : List Token} (h : Laid text (t :: ts)) : Laid text ts :=
  h.sublist (List.sublist_cons_self t ts)

/-- Of tokens one behind the other no two overlap. -/
theorem Laid.eq_of_overlap {ts : List Token} (h : Laid text ts) {t u : Token} (ht : t ∈ ts) (hu : u ∈ ts)
    (htu : t.span.start < u.span.stop) (hut : u.span.start < t.span.stop) : t = u := by
  induction ts with
  | nil => cases ht
  | cons v ts ih =>
    have hbehind := (List.pairwise_cons.1 h.ordered).1
    rcases List.mem_cons.1 ht with rfl | ht'
    · rcases List.mem_cons.1 hu with rfl | hu'
      · rfl
      · exact absurd (hbehind u hu') (Nat.not_le.2 hut)
    · rcases List.mem_cons.1 hu with rfl | hu'
      · exact absurd (hbehind t ht') (Nat.not_le.2 htu)
      · exact ih h.tail ht' hu'

/-- The tokens of the characters behind others. -/
theorem laid_scanFrom (skip offset : Nat) (cs before : List Char) (htext : text.toList = before ++ cs.drop skip)
    (hoffset : byteLength before = offset) :
    Laid text (scanFrom skip offset cs) ∧ ∀ t ∈ scanFrom skip offset cs, offset ≤ t.span.start := by
  induction cs generalizing skip offset before with
  | nil => cases skip <;> exact ⟨⟨nofun, .nil⟩, nofun⟩
  | cons c rest ih =>
    cases skip with
    | succ skip => exact ih skip offset before htext hoffset
    | zero =>
      subst hoffset
      simp only [scanFrom]
      -- the token takes the first characters, and the other tokens stand behind them
      obtain ⟨own, hown⟩ : ∃ own, own = c :: rest.take ((lexeme c rest).2 - 1) := ⟨_, rfl⟩
      have hsplit : text.toList = before ++ own ++ rest.drop ((lexeme c rest).2 - 1) := by
        rw [htext, hown, List.append_assoc, List.cons_append, List.take_append_drop, List.drop_zero]
      obtain ⟨hlaid, hbehind⟩ := ih _ _ _ hsplit (byteLength_append before own)
      rw [← hown]
      have hfirst : (⟨byteLength before, byteLength before + byteLength own⟩ : Span).FitsIn text := by
        refine .of_valid (Nat.le_add_right _ _) (isValid_byteLength htext) ?_
        rw [← byteLength_append]
        exact isValid_byteLength hsplit
      refine ⟨⟨fun t ht => ?_, List.pairwise_cons.2 ⟨hbehind, hlaid.ordered⟩⟩, fun t ht => ?_⟩
      · rcases List.mem_cons.1 ht with rfl | ht
        · exact ⟨hfirst, fun _ => .of_split hsplit⟩
        · exact hlaid.fits t ht
      · rcases List.mem_cons.1 ht with rfl | ht
        · exact Nat.le_refl _
        · exact Nat.le_trans (Nat.le_add_right _ _) (hbehind t ht)

/-- Joined garbage reaches from the start of one token to the end of the next. -/
theorem laid_cons {t : Token} {us : List Token} (h : Laid text (t :: us)) : Laid text (cons t us) := by
  cases us with
  | nil => exact h
  | cons u us =>
    simp only [cons]
    split
    · obtain ⟨hbehind, hordered⟩ := List.pairwise_cons.1 h.ordered
      have ht := h.fits t List.mem_cons_self
      have hu := h.fits u (List.mem_cons_of_mem _ List.mem_cons_self)
      have hle := hbehind u List.mem_cons_self
      refine ⟨fun v hv => ?_, ?_⟩
      · rcases List.mem_cons.1 hv with rfl | hv
        · refine ⟨ht.span.join hu.span ?_, fun hg => absurd rfl hg⟩
          have ht' := ht.span.ordered
          have hu' := hu.span.ordered
          omega
        · exact h.fits v (List.mem_cons_of_mem _ (List.mem_cons_of_mem _ hv))
      · exact List.pairwise_cons.2 ⟨(List.pairwise_cons.1 hordered).1, hordered.tail⟩
    · exact h

theorem start_cons {t : Token} {us : List Token} {n : Nat} (h : ∀ u ∈ t :: us, n ≤ u.span.start) :
    ∀ u ∈ cons t us, n ≤ u.span.start := by
  have hsub := (starts_cons t us).subset
  intro u hu
  obtain ⟨v, hv, huv⟩ := List.mem_map.1 (hsub (List.mem_map_of_mem (f := fun t => t.span.start) hu))
  rw [← huv]
  exact h v hv

/-- The tokens of a text stand in it, one behind the other. -/
theorem laid_scan (text : String) : Laid text (scan text) := by
  have all : ∀ us : List Token, Laid text us → Laid text (us.foldr cons []) ∧
      ∀ n, (∀ u ∈ us, n ≤ u.span.start) → ∀ u ∈ us.foldr cons [], n ≤ u.span.start := by
    intro us hus
    induction us with
    | nil => exact ⟨hus, fun _ h => h⟩
    | cons t us ih =>
      obtain ⟨hlaid, hstart⟩ := ih hus.tail
      have hbehind := hstart t.span.stop (List.pairwise_cons.1 hus.ordered).1
      have hall : Laid text (t :: us.foldr cons []) := by
        refine ⟨fun v hv => ?_, List.pairwise_cons.2 ⟨hbehind, hlaid.ordered⟩⟩
        rcases List.mem_cons.1 hv with rfl | hv
        · exact hus.fits v List.mem_cons_self
        · exact hlaid.fits v hv
      refine ⟨laid_cons hall, fun n hn => start_cons fun u hu => ?_⟩
      rcases List.mem_cons.1 hu with rfl | hu
      · exact hn u List.mem_cons_self
      · exact hstart n (fun u hu => hn u (List.mem_cons_of_mem _ hu)) u hu
  exact (all _ (laid_scanFrom 0 0 text.toList [] rfl rfl).1).1

end Token

end QueryBatch
