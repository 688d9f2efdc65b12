import QueryBatch.Proofs.Token.Cut

/-!
# The scan as a loop

The scan joins garbage from the right, and counts characters. A loop that runs along the text once and counts bytes
gives the same tokens.

* `gather`: such a loop over what stands at each place. It keeps the offset where garbage started, and puts the garbage
  out in front of the next token or at the end of the text. `gather_scanFrom`: its tokens are those of the scan.
* `scanBytes`: the body of a block string, byte by byte. `scanBytes_bytes`: it reaches as far as the characters do. No
  byte of a character beyond ASCII is a quote or a backslash.
-/

namespace QueryBatch

open Text

/-! ## Garbage -/

namespace Token

/-- The class and the place of a token. -/
def mark (t : Token) : TokenKind × Span := (t.kind, t.span)

/-- The garbage that started at an offset and ends at `stop`, if there is any. -/
def flush (started : Option Nat) (stop : Nat) : List (TokenKind × Span) :=
  started.toList.map fun start => (.garbage, ⟨start, stop⟩)

/-- The tokens of a text from left to right, once garbage that is not put out yet has `started`. -/
def gather (textEnd : Nat) : (started : Option Nat) → List Token → List (TokenKind × Span)
  | started, [] => flush started textEnd
  | started, t :: ts =>
    if t.kind = .garbage then gather textEnd (started.or (some t.span.start)) ts
    else flush started t.span.start ++ t.mark :: gather textEnd none ts

section Gather

variable {t u : Token} {ts : List Token}

theorem flush_of_garbage (ht : t.kind = .garbage) : flush (some t.span.start) t.span.stop = [t.mark] := by
  rw [mark, ht]
  rfl

theorem cons_of_kind_ne (hu : u.kind ≠ .garbage) (ts : List Token) : cons u ts = u :: ts := by
  cases ts with
  | nil => rfl
  | cons v ts => exact if_neg fun h => hu h.1

theorem cons_cons_of_kind_ne (hu : u.kind ≠ .garbage) (t : Token) (ts : List Token) :
    cons t (u :: ts) = t :: u :: ts := if_neg fun h => hu h.2

/-- Two tokens of garbage in front of others are one from the start of the first. -/
theorem map_mark_cons_cons (ht : t.kind = .garbage) (hu : u.kind = .garbage) (text : String) :
    (cons t (cons u ts)).map mark = (cons ⟨.garbage, text, ⟨t.span.start, u.span.stop⟩⟩ ts).map mark := by
  cases ts with
  | nil => simp [cons, ht, hu, mark]
  | cons v ts => by_cases hv : v.kind = .garbage <;> simp [cons, ht, hu, hv, mark]

/-- Garbage may be joined from the right or kept until it ends. -/
theorem gather_eq_foldr {start stop : Nat} (h : Tiles start ts stop) :
    gather stop none ts = (ts.foldr cons []).map mark ∧
      ∀ t : Token, t.kind = .garbage → t.span.stop = start →
        gather stop (some t.span.start) ts = (cons t (ts.foldr cons [])).map mark := by
  induction ts generalizing start with
  | nil =>
    obtain rfl : start = stop := h
    exact ⟨rfl, fun t ht hstop => hstop ▸ flush_of_garbage ht⟩
  | cons u ts ih =>
    obtain ⟨rfl, -, htiles⟩ := h
    obtain ⟨hnone, hsome⟩ := ih htiles
    by_cases hu : u.kind = .garbage
    · rw [List.foldr_cons]
      refine ⟨?_, fun t ht _ => ?_⟩
      · rw [gather, if_pos hu]
        exact hsome u hu rfl
      · rw [gather, if_pos hu, map_mark_cons_cons ht hu ""]
        exact hsome ⟨.garbage, "", ⟨t.span.start, u.span.stop⟩⟩ rfl rfl
    · rw [List.foldr_cons, cons_of_kind_ne hu]
      refine ⟨?_, fun t ht hstop => ?_⟩
      · rw [gather, if_neg hu, hnone]
        rfl
      · rw [gather, if_neg hu, cons_cons_of_kind_ne hu, hnone, ← hstop, flush_of_garbage ht]
        rfl

end Gather

/-- The loop finds the classes and the places of the tokens of a text. -/
theorem gather_scanFrom (text : String) :
    gather text.utf8ByteSize none (scanFrom 0 0 text.toList) = (scan text).map mark := by
  have htiles := (cuts_scanFrom 0 0 text.toList).tiles
  rw [Nat.zero_add, List.drop_zero, byteLength_toList] at htiles
  exact (gather_eq_foldr htiles).1

end Token

/-! ## Bytes -/

namespace Text.BlockString

/-- The bytes of characters. -/
def bytes (cs : List Char) : List UInt8 := cs.flatMap String.utf8EncodeChar

/-- The number of bytes up to and including the closing quotes, or of all bytes if nothing closes. -/
def scanBytes : List UInt8 → Nat
  | 92 :: 34 :: 34 :: 34 :: rest => 4 + scanBytes rest
  | 34 :: 34 :: 34 :: _ => 3
  | _ :: rest => 1 + scanBytes rest
  | [] => 0

section Bytes

variable {b : UInt8} {bs : List UInt8} {c : Char} {cs : List Char}

theorem bytes_cons (c : Char) (cs : List Char) : bytes (c :: cs) = String.utf8EncodeChar c ++ bytes cs :=
  List.flatMap_cons

theorem utf8EncodeChar_of_lt (hc : c.toNat < 128) : String.utf8EncodeChar c = [UInt8.ofNat c.toNat] := by
  have hle : c.val.toNat ≤ 127 := Nat.le_of_lt_succ hc
  rw [String.utf8EncodeChar, if_pos hle]
  rfl

theorem le_of_mem_utf8EncodeChar (hc : ¬c.toNat < 128) (hb : b ∈ String.utf8EncodeChar c) : 128 ≤ b.toNat := by
  have hlt : ¬c.val.toNat ≤ 127 := fun h => hc (Nat.lt_succ_of_le h)
  rw [String.utf8EncodeChar, if_neg hlt] at hb
  split_ifs at hb <;> simp only [List.mem_cons, List.not_mem_nil, or_false] at hb
  · rcases hb with rfl | rfl <;> rw [UInt8.toNat_ofNat'] <;> omega
  · rcases hb with rfl | rfl | rfl <;> rw [UInt8.toNat_ofNat'] <;> omega
  · rcases hb with rfl | rfl | rfl | rfl <;> rw [UInt8.toNat_ofNat'] <;> omega

/-- A byte that is a quote is a quote among the characters. -/
theorem exists_of_bytes_eq_quote (h : bytes cs = 34 :: bs) : ∃ rest, cs = '"' :: rest ∧ bytes rest = bs := by
  cases cs with
  | nil => cases h
  | cons c cs =>
    rw [bytes_cons] at h
    by_cases hc : c.toNat < 128
    · rw [utf8EncodeChar_of_lt hc] at h
      obtain ⟨hquote, rfl⟩ := List.cons.inj h
      have hnat : c.toNat = 34 := by
        have hmod := congrArg UInt8.toNat hquote
        rw [UInt8.toNat_ofNat', Nat.mod_eq_of_lt (by omega)] at hmod
        exact hmod
      exact ⟨cs, by rw [show c = '"' from Char.toNat_inj.1 hnat], rfl⟩
    · obtain ⟨b, more, hmore⟩ := List.exists_cons_of_ne_nil (String.utf8EncodeChar_ne_nil (c := c))
      have hb := le_of_mem_utf8EncodeChar hc (hmore ▸ List.mem_cons_self)
      rw [hmore] at h
      obtain ⟨rfl, -⟩ := List.cons.inj h
      exact absurd hb (by decide)

theorem scanBytes_of_le (hb : 128 ≤ b.toNat) (bs : List UInt8) : scanBytes (b :: bs) = 1 + scanBytes bs := by
  rw [scanBytes]
  · rintro rest rfl
    exact absurd hb (by decide)
  · rintro rest rfl
    exact absurd hb (by decide)

theorem scanBytes_append (hbs : ∀ b ∈ bs, 128 ≤ b.toNat) (more : List UInt8) :
    scanBytes (bs ++ more) = bs.length + scanBytes more := by
  induction bs with
  | nil => rw [List.nil_append, List.length_nil, Nat.zero_add]
  | cons b bs ih =>
    obtain ⟨hb, hbs⟩ := List.forall_mem_cons.1 hbs
    rw [List.cons_append, scanBytes_of_le hb, ih hbs, List.length_cons]
    omega

/-- A character that starts no quotes, escaped or not, is passed over with all of its bytes. -/
theorem scanBytes_bytes_cons (hescaped : ∀ rest, c = '\\' → cs = '"' :: '"' :: '"' :: rest → False)
    (hquotes : ∀ rest, c = '"' → cs = '"' :: '"' :: rest → False) :
    scanBytes (bytes (c :: cs)) = c.utf8Size + scanBytes (bytes cs) := by
  rw [bytes_cons]
  by_cases hc : c.toNat < 128
  · have hsize := String.length_utf8EncodeChar c
    rw [utf8EncodeChar_of_lt hc] at hsize ⊢
    have hnat : (UInt8.ofNat c.toNat).toNat = c.toNat := by rw [UInt8.toNat_ofNat', Nat.mod_eq_of_lt (by omega)]
    rw [← hsize, List.singleton_append, scanBytes, List.length_singleton]
    · intro rest hb hrest
      obtain ⟨first, rfl, hfirst⟩ := exists_of_bytes_eq_quote hrest
      obtain ⟨second, rfl, hsecond⟩ := exists_of_bytes_eq_quote hfirst
      obtain ⟨third, rfl, -⟩ := exists_of_bytes_eq_quote hsecond
      rw [hb] at hnat
      exact hescaped third (Char.toNat_inj.1 hnat.symm) rfl
    · intro rest hb hrest
      obtain ⟨first, rfl, hfirst⟩ := exists_of_bytes_eq_quote hrest
      obtain ⟨second, rfl, -⟩ := exists_of_bytes_eq_quote hfirst
      rw [hb] at hnat
      exact hquotes second (Char.toNat_inj.1 hnat.symm) rfl
  · rw [scanBytes_append fun b hb => le_of_mem_utf8EncodeChar hc hb, String.length_utf8EncodeChar]

end Bytes

/-- Byte by byte the body of a block string reaches as far as character by character. -/
theorem scanBytes_bytes (cs : List Char) : scanBytes (bytes cs) = byteLength (cs.take (scanBody cs)) := by
  fun_induction scanBody cs with
  | case1 rest ih =>
    show 4 + scanBytes (bytes rest) = _
    rw [ih, Nat.add_comm 4 (scanBody rest)]
    show 4 + _ = 1 + (1 + (1 + (1 + byteLength (rest.take (scanBody rest)))))
    omega
  | case2 rest => rfl
  | case3 c rest hescaped hquotes ih =>
    rw [scanBytes_bytes_cons (fun more hc hrest => hescaped more hc hrest) fun more hc hrest => hquotes more hc hrest,
      ih, Nat.add_comm 1, List.take_succ_cons, byteLength]
  | case4 => rfl

end Text.BlockString

end QueryBatch
