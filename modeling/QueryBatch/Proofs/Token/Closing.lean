import QueryBatch.Proofs.Token.Cut

/-!
# Where block strings close

The scan of a block string goes from left to right and passes over an escaped delimiter as a whole; whether the token is
called closed is read off its last characters. The two differ where an escaped delimiter stands near the end.

* `Passes`: what the scan passes over, in front of what follows. `StopsAtQuotes`: it comes to closing quotes.
* `IsClosed`: characters that end where the scan comes to closing quotes. `closesIn_iff`: closed tokens have such ones.
* `looksClosed_of_mem_scan`: closed tokens look closed, and what looks closed is, unless it ends in an escaped delimiter
  and one or two more quotes.
-/

namespace QueryBatch

open Text

namespace Text.BlockString

/-- The quotes that open a block string and close it. -/
def quotes : List Char := ['"', '"', '"']

/-- Quotes that are kept inside. -/
def escapedQuotes : List Char := '\\' :: quotes

/-! ## What the scan passes over -/

/-- The characters that the scan of a body passes over when `after` follows them. -/
inductive Passes : (body after : List Char) → Prop
  | nil (after : List Char) : Passes [] after
  | escaped {body after : List Char} : Passes body after → Passes (escapedQuotes ++ body) after
  | other {c : Char} {body after : List Char} :
      ¬escapedQuotes <+: c :: (body ++ after) → ¬quotes <+: c :: (body ++ after) → Passes body after →
      Passes (c :: body) after

/-- The scan of characters comes to closing quotes. -/
def StopsAtQuotes (cs : List Char) : Prop :=
  ∃ body after, cs = body ++ (quotes ++ after) ∧ Passes body (quotes ++ after)

section Passes

variable {body after cs : List Char}

/-- The scan of a body reaches to the end of what it passes over, and then over closing quotes. -/
theorem Passes.scanBody (h : Passes body after) :
    scanBody (body ++ after) = body.length + BlockString.scanBody after := by
  induction h with
  | nil after => simp
  | @escaped body after _ ih =>
    show BlockString.scanBody ('\\' :: '"' :: '"' :: '"' :: (body ++ after)) = body.length + 4 + _
    rw [BlockString.scanBody, ih]
    omega
  | @other c body after hescaped hquotes _ ih =>
    rw [List.cons_append, BlockString.scanBody, ih, List.length_cons]
    · omega
    · rintro rest rfl h
      exact hescaped ⟨rest, congrArg _ h.symm⟩
    · rintro rest rfl h
      exact hquotes ⟨rest, congrArg _ h.symm⟩

theorem scanBody_quotes (after : List Char) : scanBody (quotes ++ after) = 3 := rfl

/-- The scan comes to closing quotes or passes over all. -/
theorem stopsAtQuotes_or_passes (cs : List Char) : StopsAtQuotes cs ∨ Passes cs [] := by
  fun_induction scanBody cs with
  | case1 rest ih =>
    rcases ih with ⟨body, after, rfl, h⟩ | h
    · exact .inl ⟨escapedQuotes ++ body, after, rfl, h.escaped⟩
    · exact .inr h.escaped
  | case2 after => exact .inl ⟨[], after, rfl, .nil _⟩
  | case3 c rest hescaped hquotes ih =>
    have noEscape : ¬escapedQuotes <+: c :: rest := by
      rintro ⟨more, h⟩
      obtain ⟨rfl, rfl⟩ := List.cons.inj h
      exact hescaped more rfl rfl
    have noQuotes : ¬quotes <+: c :: rest := by
      rintro ⟨more, h⟩
      obtain ⟨rfl, rfl⟩ := List.cons.inj h
      exact hquotes more rfl rfl
    rcases ih with ⟨body, after, rfl, h⟩ | h
    · exact .inl ⟨c :: body, after, rfl, h.other noEscape noQuotes⟩
    · exact .inr (h.other (by rwa [List.append_nil]) (by rwa [List.append_nil]))
  | case4 => exact .inr (.nil [])

/-- The first thing that the scan passes over is an escaped delimiter or another character. -/
theorem Passes.cases_cons {c : Char} (h : Passes (c :: body) after) :
    (∃ tail, c :: body = escapedQuotes ++ tail ∧ Passes tail after) ∨
      (¬escapedQuotes <+: c :: (body ++ after) ∧ ¬quotes <+: c :: (body ++ after) ∧ Passes body after) := by
  generalize hcs : c :: body = cs at h
  cases h with
  | nil => cases hcs
  | escaped h => exact .inl ⟨_, rfl, h⟩
  | other hescaped hquotes h =>
    obtain ⟨rfl, rfl⟩ := List.cons.inj hcs
    exact .inr ⟨hescaped, hquotes, h⟩

/-- What the scan passes over it passes over in parts. -/
theorem Passes.of_append {more rest : List Char} (h : Passes body (more ++ rest)) (hall : Passes (body ++ more) rest) :
    Passes more rest := by
  generalize hafter : more ++ rest = after at h
  induction h with
  | nil => exact hall
  | @escaped body after _ ih =>
    rcases hall.cases_cons with ⟨tail, htail, hall⟩ | ⟨hescaped, -⟩
    · rw [← List.append_cancel_left (show escapedQuotes ++ (body ++ more) = escapedQuotes ++ tail from htail)] at hall
      exact ih hall hafter
    · exact absurd ⟨body ++ more ++ rest, rfl⟩ hescaped
  | @other c body after hescaped hquotes _ ih =>
    subst hafter
    rcases hall.cases_cons with ⟨tail, htail, -⟩ | ⟨-, -, hall⟩
    · refine absurd ⟨tail ++ rest, ?_⟩ hescaped
      rw [← List.append_assoc, ← List.append_assoc, ← htail]
      rfl
    · exact ih hall rfl

/-- What the scan passes over to the end holds no closing quotes. -/
theorem not_stopsAtQuotes (h : Passes cs []) : ¬StopsAtQuotes cs := by
  rintro ⟨body, after, rfl, hbody⟩
  have hquotes : Passes (quotes ++ after) [] := .of_append (by rwa [List.append_nil]) h
  rcases hquotes.cases_cons with ⟨tail, htail, -⟩ | ⟨-, hno, -⟩
  · cases htail
  · exact hno ⟨after, by rw [List.append_nil]; rfl⟩

/-- A backslash that the scan passes over is looked at. -/
theorem Passes.of_backslash {front : List Char} (h : Passes (front ++ '\\' :: body) after) :
    Passes ('\\' :: body) after := by
  generalize hcs : front ++ '\\' :: body = cs at h
  induction h generalizing front with
  | nil => cases (List.append_eq_nil_iff.1 hcs).2
  | escaped h ih =>
    -- the quotes of an escaped delimiter are no backslashes
    rcases front with _ | ⟨a, _ | ⟨b, _ | ⟨c, _ | ⟨d, front⟩⟩⟩⟩
    · rw [List.nil_append] at hcs
      rw [hcs]
      exact h.escaped
    · cases hcs
    · cases hcs
    · cases hcs
    · exact ih (List.cons.inj (List.cons.inj (List.cons.inj (List.cons.inj hcs).2).2).2).2
  | other hescaped hquotes h ih =>
    cases front with
    | nil =>
      rw [List.nil_append] at hcs
      rw [hcs]
      exact h.other hescaped hquotes
    | cons a front => exact ih (List.cons.inj hcs).2

/-- Quotes behind a backslash that the scan passes over are passed over with it. -/
theorem Passes.quotes_of_backslash {front : List Char} (h : Passes (front ++ '\\' :: body) after)
    (hquotes : quotes <+: body ++ after) : quotes <+: body := by
  rcases h.of_backslash.cases_cons with ⟨tail, htail, -⟩ | ⟨hescaped, -⟩
  · exact ⟨tail, (List.cons.inj htail).2.symm⟩
  · exact absurd (List.cons_prefix_cons.2 ⟨rfl, hquotes⟩) hescaped

end Passes

/-! ## Closed tokens -/

/-- The characters of a block string that ends in closing quotes. -/
def IsClosed (own : List Char) : Prop := ∃ body, own = quotes ++ (body ++ quotes) ∧ Passes body quotes

/-- Characters that end in an escaped delimiter and one or two more quotes. -/
def EndsPastEscape (cs : List Char) : Prop := escapedQuotes ++ ['"'] <:+ cs ∨ escapedQuotes ++ ['"', '"'] <:+ cs

theorem EndsPastEscape.of_suffix {cs ds : List Char} (h : EndsPastEscape cs) (hsuffix : cs <:+ ds) :
    EndsPastEscape ds := h.imp (·.trans hsuffix) (·.trans hsuffix)

section Closed

variable {body after : List Char}

/-- The scan looks at four characters at a time, so that nothing depends on what else follows. -/
theorem Passes.congr {after' : List Char} (hsame : ∀ (w : List Char) (c : Char) (body : List Char), w.length ≤ 4 →
    (w <+: c :: (body ++ after) ↔ w <+: c :: (body ++ after'))) (h : Passes body after) : Passes body after' := by
  induction h with
  | nil => exact .nil _
  | escaped _ ih => exact (ih hsame).escaped
  | other hescaped hquotes _ ih =>
    rw [hsame _ _ _ (by decide)] at hescaped hquotes
    exact (ih hsame).other hescaped hquotes

/-- What stands behind closing quotes makes no difference. -/
theorem passes_quotes_iff : Passes body (quotes ++ after) ↔ Passes body quotes := by
  -- a delimiter that starts in the body ends within the closing quotes
  have hsame : ∀ (w : List Char) (c : Char) (body : List Char), w.length ≤ 4 →
      (w <+: c :: (body ++ (quotes ++ after)) ↔ w <+: c :: (body ++ quotes)) := by
    intro w c body hw
    have hshort : c :: (body ++ quotes) <+: c :: (body ++ (quotes ++ after)) :=
      ⟨after, by rw [List.cons_append, List.append_assoc]⟩
    refine ⟨fun h => List.prefix_of_prefix_length_le h hshort ?_, fun h => h.trans hshort⟩
    rw [List.length_cons, List.length_append]
    exact Nat.le_trans hw (Nat.succ_le_succ (Nat.le_add_left 3 body.length))
  exact ⟨.congr hsame, .congr fun w c body hw => (hsame w c body hw).symm⟩

/-- A token is closed if the scan behind its opening quotes stopped at closing ones. -/
theorem stopsAtQuotes_iff (h : body.length = scanBody (body ++ after)) :
    StopsAtQuotes (body ++ after) ↔ IsClosed (quotes ++ body) := by
  constructor
  · rintro ⟨b, a, hsplit, hb⟩
    have hlength := hb.scanBody
    rw [← hsplit, ← h, scanBody_quotes] at hlength
    rw [← List.append_assoc] at hsplit
    obtain ⟨rfl, -⟩ := List.append_inj hsplit (by rw [hlength, List.length_append]; rfl)
    exact ⟨b, rfl, passes_quotes_iff.1 hb⟩
  · rintro ⟨b, hbody, hb⟩
    obtain rfl := List.append_cancel_left hbody
    exact ⟨b, after, by rw [List.append_assoc], passes_quotes_iff.2 hb⟩

/-- Else it reaches to the end. -/
theorem passes_of_not_stopsAtQuotes (h : body.length = scanBody (body ++ after))
    (hno : ¬StopsAtQuotes (body ++ after)) : after = [] ∧ Passes body [] := by
  have hall := (stopsAtQuotes_or_passes (body ++ after)).resolve_left hno
  have hlength := hall.scanBody
  rw [List.append_nil, ← h, List.length_append] at hlength
  obtain rfl : after = [] := List.length_eq_zero_iff.1 (by omega)
  rw [List.append_nil] at hall
  exact ⟨rfl, hall⟩

/-- A closed token ends in no escaped delimiter, nor in one and some of the closing quotes. -/
theorem not_suffix_of_passes (more : List Char) (h : Passes body quotes) (hmore : quotes <+: more ++ quotes)
    (hshort : more.length < 3) : ¬ '\\' :: (more ++ quotes) <:+ quotes ++ (body ++ quotes) := by
  rintro ⟨front, hfront⟩
  have hfront : front ++ '\\' :: more = quotes ++ body := by
    refine List.append_cancel_right (show front ++ '\\' :: more ++ quotes = quotes ++ body ++ quotes from ?_)
    simpa only [List.append_assoc, List.cons_append] using hfront
  obtain ⟨front, rfl⟩ : ∃ front, front ++ '\\' :: more = body := by
    rcases front with _ | ⟨a, _ | ⟨b, _ | ⟨c, front⟩⟩⟩
    · cases hfront
    · cases hfront
    · cases hfront
    · exact ⟨front, (List.cons.inj (List.cons.inj (List.cons.inj hfront).2).2).2⟩
  have hle := (h.quotes_of_backslash hmore).length_le
  exact absurd hshort (Nat.not_lt.2 hle)

theorem looksClosed_of_isClosed {text : String} (h : IsClosed text.toList) :
    looksClosed text = true ∧ ¬EndsPastEscape text.toList := by
  obtain ⟨body, htext, hbody⟩ := h
  have hsize : 6 ≤ text.utf8ByteSize := by
    rw [← byteLength_toList, htext, byteLength_append, byteLength_append]
    exact Nat.add_le_add (Nat.le_refl 3) (Nat.le_add_left 3 _)
  have hno : ¬escapedQuotes <:+ text.toList := by
    rw [htext]
    exact not_suffix_of_passes [] hbody ⟨[], rfl⟩ (by decide)
  have hquotes : quotes <:+ text.toList := ⟨quotes ++ body, by rw [htext, List.append_assoc]⟩
  refine ⟨?_, fun hends => ?_⟩
  · simp only [looksClosed, Bool.and_eq_true, Bool.not_eq_true', decide_eq_true_eq, List.isSuffixOf_iff_suffix]
    exact ⟨⟨hsize, hquotes⟩, Bool.eq_false_iff.2 fun h => hno (List.isSuffixOf_iff_suffix.1 h)⟩
  · rw [htext] at hends
    rcases hends with hends | hends
    · exact not_suffix_of_passes ['"'] hbody ⟨['"'], rfl⟩ (by decide) hends
    · exact not_suffix_of_passes ['"', '"'] hbody ⟨['"', '"'], rfl⟩ (by decide) hends

/-- What the scan passes over to the end of the text may end in quotes of an escaped delimiter, with up to two more. -/
theorem endsPastEscape_of_passes (h : Passes body []) (hquotes : quotes <:+ body) :
    escapedQuotes <:+ body ∨ EndsPastEscape body := by
  generalize hend : [] = rest at h
  induction h with
  | nil => cases List.suffix_nil.1 hquotes
  | @escaped body _ _ ih =>
    by_cases hle : 3 ≤ body.length
    · have hbody : quotes <:+ body :=
        List.suffix_of_suffix_length_le hquotes (List.suffix_append escapedQuotes body) hle
      exact (ih hbody hend).imp (·.trans (List.suffix_append _ _)) (·.of_suffix (List.suffix_append _ _))
    · have hbody : body <:+ quotes :=
        List.suffix_of_suffix_length_le (List.suffix_append escapedQuotes body) hquotes (by
          rw [quotes, List.length_cons, List.length_cons]; omega)
      rcases List.suffix_cons_iff.1 hbody with rfl | hbody
      · exact absurd (Nat.le_refl 3) hle
      · rcases List.suffix_cons_iff.1 hbody with rfl | hbody
        · exact .inr (.inr (List.suffix_refl _))
        · rcases List.suffix_cons_iff.1 hbody with rfl | hbody
          · exact .inr (.inl (List.suffix_refl _))
          · rw [List.suffix_nil.1 hbody]
            exact .inl (List.suffix_refl _)
  | @other c body _ _ hno _ ih =>
    rcases List.suffix_cons_iff.1 hquotes with heq | hbody
    · subst hend
      exact absurd ⟨[], by rw [List.append_nil, List.append_nil, heq]⟩ hno
    · exact (ih hbody hend).imp (·.trans (List.suffix_cons c body)) (·.of_suffix (List.suffix_cons c body))

/-- A text of opening quotes and a body that the scan passes over to the end: it looks closed just if it ends in an
escaped delimiter and more quotes. -/
theorem looksClosed_of_passes {text : String} (htext : text.toList = quotes ++ body) (h : Passes body [])
    (hlooks : looksClosed text = true) : EndsPastEscape text.toList := by
  simp only [looksClosed, Bool.and_eq_true, Bool.not_eq_true', decide_eq_true_eq, List.isSuffixOf_iff_suffix] at hlooks
  obtain ⟨⟨hsize, hquotes⟩, hno⟩ := hlooks
  change quotes <:+ text.toList at hquotes
  rw [← byteLength_toList, htext, byteLength_append] at hsize
  rw [htext] at hquotes hno ⊢
  have hbody : quotes <:+ body := by
    refine List.suffix_of_suffix_length_le hquotes (List.suffix_append quotes body) ?_
    by_contra hshort
    -- a shorter body is the end of the opening quotes, and too small
    obtain ⟨front, hfront⟩ :=
      List.suffix_of_suffix_length_le (List.suffix_append quotes body) hquotes (Nat.le_of_not_le hshort)
    have hne : front ≠ [] := by
      rintro rfl
      exact hshort (Nat.le_of_eq (congrArg List.length hfront.symm))
    have hbytes := congrArg byteLength hfront
    rw [byteLength_append] at hbytes
    have hpos := byteLength_pos hne
    have hthree : byteLength quotes = 3 := by decide
    omega
  rcases endsPastEscape_of_passes h hbody with hescaped | hends
  · exact absurd (List.isSuffixOf_iff_suffix.2 (hescaped.trans (List.suffix_append _ _))) (Bool.eq_false_iff.1 hno)
  · exact hends.of_suffix (List.suffix_append _ _)

end Closed

end Text.BlockString

/-- Characters that start alike and in as many bytes start with the same ones. -/
theorem Text.append_inj_of_byteLength {before before' rest rest' : List Char}
    (h : before ++ rest = before' ++ rest') (hlength : byteLength before = byteLength before') :
    before = before' ∧ rest = rest' := by
  induction before generalizing before' with
  | nil =>
    cases before' with
    | nil => exact ⟨rfl, h⟩
    | cons c before' => exact absurd hlength (Nat.ne_of_lt (byteLength_pos (List.cons_ne_nil c before')))
  | cons c before ih =>
    cases before' with
    | nil => exact absurd hlength.symm (Nat.ne_of_lt (byteLength_pos (List.cons_ne_nil c before)))
    | cons d before' =>
      obtain ⟨rfl, hrest⟩ := List.cons.inj h
      obtain ⟨rfl, rfl⟩ := ih hrest (Nat.add_left_cancel hlength)
      exact ⟨rfl, rfl⟩

open Text.BlockString

namespace Token

variable {text : String} {t : Token}

/-- The scan from the opening quotes at which a token stands comes to closing quotes. -/
def ClosesIn (t : Token) (text : String) : Prop :=
  ∃ before rest, text.toList = before ++ (quotes ++ rest) ∧ t.span.start = byteLength before ∧ StopsAtQuotes rest

/-- A block string token in its text. -/
theorem exists_body (ht : t ∈ scan text) (hk : t.kind = .blockString) : ∃ before body after,
    text.toList = before ++ (quotes ++ (body ++ after)) ∧ t.span.start = byteLength before ∧
      t.span.stop = t.span.start + byteLength t.text.toList ∧ t.text.toList = quotes ++ body ∧
      body.length = scanBody (body ++ after) := by
  obtain ⟨before, after, hsplit, hstart, hstop, hfits⟩ := (cuts_scan text).exists_place ht
  obtain ⟨-, body, hown, hlength⟩ := hfits.block hk
  rw [Nat.zero_add] at hstart
  refine ⟨before, body, after, ?_, hstart, hstop, hown, hlength⟩
  rw [hsplit, hown, List.append_assoc]
  rfl

/-- The characters of a token show whether its scan came to closing quotes. -/
theorem closesIn_iff (ht : t ∈ scan text) (hk : t.kind = .blockString) :
    t.ClosesIn text ↔ IsClosed t.text.toList := by
  obtain ⟨before, body, after, htext, hstart, -, hown, hlength⟩ := exists_body ht hk
  rw [hown, ← stopsAtQuotes_iff hlength]
  refine ⟨?_, fun h => ⟨before, body ++ after, htext, hstart, h⟩⟩
  rintro ⟨before', rest, htext', hstart', h⟩
  rw [htext] at htext'
  obtain ⟨-, hrest⟩ := append_inj_of_byteLength htext' (hstart.symm.trans hstart')
  rwa [List.append_cancel_left hrest]

/-- A block string whose scan does not come to closing quotes is what is left of the text. -/
theorem passes_of_not_closesIn (ht : t ∈ scan text) (hk : t.kind = .blockString) (h : ¬t.ClosesIn text) :
    t.span.stop = text.utf8ByteSize ∧ ∃ body, t.text.toList = quotes ++ body ∧ Passes body [] := by
  obtain ⟨before, body, after, htext, hstart, hstop, hown, hlength⟩ := exists_body ht hk
  have hno : ¬StopsAtQuotes (body ++ after) := fun hstops => h ⟨before, body ++ after, htext, hstart, hstops⟩
  obtain ⟨rfl, hpasses⟩ := passes_of_not_stopsAtQuotes hlength hno
  refine ⟨?_, body, hown, hpasses⟩
  rw [hstop, hstart, hown, ← byteLength_append, ← byteLength_toList, htext, List.append_nil]

/-- The scan of a block string token comes to closing quotes just if the token looks closed and does not end in an
escaped delimiter with one or two more quotes. Else it goes on to the end of the text. -/
theorem looksClosed_of_mem_scan (ht : t ∈ scan text) (hk : t.kind = .blockString) :
    (t.ClosesIn text ↔ looksClosed t.text = true ∧ ¬EndsPastEscape t.text.toList) ∧
      (¬t.ClosesIn text → t.span.stop = text.utf8ByteSize) := by
  refine ⟨⟨fun h => looksClosed_of_isClosed ((closesIn_iff ht hk).1 h), fun h => ?_⟩, fun h =>
    (passes_of_not_closesIn ht hk h).1⟩
  by_contra hno
  obtain ⟨-, body, hown, hpasses⟩ := passes_of_not_closesIn ht hk hno
  exact h.2 (looksClosed_of_passes hown hpasses h.1)

/-- A block string with an escaped delimiter, and a name. -/
def closedText : String := "\"\"\"\\\"\"\"a\"\"\" b"

theorem looksClosed_of_closedText : ∃ t ∈ scan closedText, t.kind = .blockString ∧
    (t.ClosesIn closedText ↔ looksClosed t.text = true ∧ ¬EndsPastEscape t.text.toList) ∧
      (¬t.ClosesIn closedText → t.span.stop = closedText.utf8ByteSize) := by
  have ht : ⟨.blockString, "\"\"\"\\\"\"\"a\"\"\"", ⟨0, 11⟩⟩ ∈ scan closedText := by decide
  exact ⟨_, ht, rfl, looksClosed_of_mem_scan ht rfl⟩

/-- Opening quotes, an escaped delimiter and one more quote. -/
def unclosedText : String := "\"\"\"\\\"\"\"\""

/-- Not every block string that looks closed is closed. -/
theorem not_looksClosed_iff_closesIn : ¬∀ text, ∀ t ∈ scan text, t.kind = .blockString →
    (looksClosed t.text = true ↔ t.ClosesIn text) := by
  intro h
  have ht : ⟨.blockString, unclosedText, ⟨0, 8⟩⟩ ∈ scan unclosedText := by decide
  obtain ⟨before, rest, htext, hstart, hstops⟩ := (h unclosedText _ ht rfl).1 (by decide)
  obtain ⟨-, hrest⟩ := append_inj_of_byteLength (show [] ++ unclosedText.toList = _ from htext) hstart
  rw [← List.append_cancel_left (show quotes ++ ['\\', '"', '"', '"', '"'] = quotes ++ rest from hrest)] at hstops
  exact not_stopsAtQuotes (Passes.other (by decide) (by decide) (.nil [])).escaped hstops

end Token

end QueryBatch
