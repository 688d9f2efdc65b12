import QueryBatch.Proofs.Text.BlockValue
import QueryBatch.Proofs.Text.Escapes

/-!
# What the strings of a text stand for

* `exists_quoted`, `exists_closed`: the characters of a string token, and of a block string token that is closed.
* `unquote_of_mem_scan`: a string stands for what its characters spell.
* `value_of_mem_scan`: a closed block string stands for the value that the query language gives its contents.
-/

namespace QueryBatch.Token

open Text Text.Quoted Text.BlockString

variable {text : String} {t : Token}

/-! ## Strings -/

/-- A string token is a pair of quotes and what stands between them. -/
theorem exists_quoted (ht : t ∈ scan text) (hk : t.kind = .string) : ∃ body, t.text.toList = '"' :: body ++ ['"'] := by
  obtain ⟨before, after, -, -, -, hfits⟩ := (cuts_scan text).exists_place ht
  have hmem := (hfits.longest (by rw [hk]; decide) (by rw [hk]; decide)).mem
  rw [hk] at hmem
  obtain ⟨opened, hopened, quote, hquote, heq⟩ := Language.mem_mul.1 hmem
  obtain ⟨body, -, rfl⟩ := Pattern.mem_word_mul.1 hopened
  exact ⟨body, by rw [← heq, show quote = ['"'] from hquote]; rfl⟩

/-- A string token stands for a text just if the characters between its quotes spell it. Where no escape has a plus sign
behind `\u`, they do so in the query language. -/
theorem unquote_of_mem_scan (ht : t ∈ scan text) (hk : t.kind = .string) : ∃ body,
    t.text.toList = '"' :: body ++ ['"'] ∧ (∀ value, unquote t.text = .ok value ↔ Spells LaxEscape body value.toList) ∧
      (¬HasSign body → ∀ value, unquote t.text = .ok value ↔ Spells Escape body value.toList) := by
  obtain ⟨body, htext⟩ := exists_quoted ht hk
  refine ⟨body, htext, fun value => unquote_iff htext, fun hsign value => ?_⟩
  rw [unquote_iff htext, spells_iff_of_not_hasSign hsign]

/-- A string with a short and a numbered escape. -/
def escapedText : String := "\"a\\n\\u0041\""

theorem unquote_of_escapedText : ∃ t ∈ scan escapedText, t.kind = .string ∧ ∃ body,
    t.text.toList = '"' :: body ++ ['"'] ∧ (∀ value, unquote t.text = .ok value ↔ Spells LaxEscape body value.toList) ∧
      (¬HasSign body → ∀ value, unquote t.text = .ok value ↔ Spells Escape body value.toList) := by
  have ht : ⟨.string, escapedText, ⟨0, 11⟩⟩ ∈ scan escapedText := by decide
  exact ⟨_, ht, rfl, unquote_of_mem_scan ht rfl⟩

/-- A string with a plus sign in place of a digit. -/
def signedText : String := "\"\\u+041\""

/-- Not every string that stands for a text spells it in the query language. -/
theorem not_unquote_iff_spells : ¬∀ text, ∀ t ∈ scan text, t.kind = .string → ∃ body,
    t.text.toList = '"' :: body ++ ['"'] ∧ ∀ value, unquote t.text = .ok value ↔ Spells Escape body value.toList := by
  intro h
  have ht : ⟨.string, signedText, ⟨0, 8⟩⟩ ∈ scan signedText := by decide
  obtain ⟨body, hbody, hvalue⟩ := h signedText _ ht rfl
  obtain rfl : ['\\', 'u', '+', '0', '4', '1'] = body :=
    List.append_cancel_right (List.cons.inj hbody).2
  exact not_spells_sign ((hvalue "A").1 rfl)

/-! ## Block strings -/

/-- A closed block string token is two delimiters and what stands between them. -/
theorem exists_closed (ht : t ∈ scan text) (hk : t.kind = .blockString) (hc : t.ClosesIn text) :
    ∃ body, t.text.toList = quotes ++ (body ++ quotes) ∧ (value t.text).toList = valueOf body := by
  obtain ⟨body, htext, -⟩ := (closesIn_iff ht hk).1 hc
  exact ⟨body, htext, by rw [value, String.toList_ofList, htext, contents_quotes]⟩

/-- The value of a closed block string is the one that the query language gives its contents, escaped delimiters
replaced. It has all their characters but spaces, tabs and line terminators, and no blank line at its ends. -/
theorem value_of_mem_scan (ht : t ∈ scan text) (hk : t.kind = .blockString) (hc : t.ClosesIn text) : ∃ body raw,
    t.text.toList = quotes ++ (body ++ quotes) ∧ (∀ cs, Replaces body cs ↔ cs = raw) ∧
      (∀ cs, BlockValue raw cs ↔ cs = (value t.text).toList) ∧
      visible (value t.text).toList = visible raw ∧
      (value t.text ≠ "" → ∀ ls, Splits (value t.text).toList ls →
        (∀ line, ls.head? = some line → ¬Blank line) ∧ ∀ line, ls.getLast? = some line → ¬Blank line) := by
  obtain ⟨body, htext, hvalue⟩ := exists_closed ht hk hc
  have hall : ∀ cs, BlockValue (unescape body) cs ↔ cs = (value t.text).toList := fun cs => by
    rw [hvalue]
    exact blockValue_iff
  have hown := (hall _).2 rfl
  refine ⟨body, unescape body, htext, fun _ => replaces_iff, hall, hown.visible_eq, fun hne ls hls => hown.ends ?_ hls⟩
  exact fun hnil => hne (String.toList_eq_nil_iff.1 hnil)

/-- A block string of three lines, the last one blank, with an escaped delimiter, and a name. -/
def indentedText : String := "\"\"\"a\r\n  b\\\"\"\"\n \"\"\" c"

theorem value_of_indentedText : ∃ t ∈ scan indentedText, t.kind = .blockString ∧ t.ClosesIn indentedText ∧ ∃ body raw,
    t.text.toList = quotes ++ (body ++ quotes) ∧ (∀ cs, Replaces body cs ↔ cs = raw) ∧
      (∀ cs, BlockValue raw cs ↔ cs = (value t.text).toList) ∧
      visible (value t.text).toList = visible raw ∧
      (value t.text ≠ "" → ∀ ls, Splits (value t.text).toList ls →
        (∀ line, ls.head? = some line → ¬Blank line) ∧ ∀ line, ls.getLast? = some line → ¬Blank line) := by
  have ht : ⟨.blockString, "\"\"\"a\r\n  b\\\"\"\"\n \"\"\"", ⟨0, 18⟩⟩ ∈ scan indentedText := by decide
  have hc : ClosesIn ⟨.blockString, "\"\"\"a\r\n  b\\\"\"\"\n \"\"\"", ⟨0, 18⟩⟩ indentedText := by
    by_contra hno
    exact absurd (passes_of_not_closesIn ht rfl hno).1 (by decide)
  exact ⟨_, ht, rfl, hc, value_of_mem_scan ht rfl hc⟩

end QueryBatch.Token
