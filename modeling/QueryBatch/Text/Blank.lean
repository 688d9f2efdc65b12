/-!
# White space

The characters with the Unicode property White_Space, and trimming at both ends of a text.
-/

namespace QueryBatch.Text

/-- The code points with the property White_Space, as closed ranges. -/
def blankRanges : List (Nat × Nat) :=
  [(0x9, 0xD), (0x20, 0x20), (0x85, 0x85), (0xA0, 0xA0), (0x1680, 0x1680), (0x2000, 0x200A), (0x2028, 0x2029),
    (0x202F, 0x202F), (0x205F, 0x205F), (0x3000, 0x3000)]

/-- Whether a character is white space. -/
def isBlank (c : Char) : Bool := blankRanges.any fun (first, last) => first ≤ c.toNat && c.toNat ≤ last

/-- Drops the characters at both ends for which `p` holds. -/
def trimBoth (p : Char → Bool) (cs : List Char) : List Char :=
  ((cs.dropWhile p).reverse.dropWhile p).reverse

/-- Drops the white space at both ends. -/
def trimBlank (cs : List Char) : List Char := trimBoth isBlank cs

theorem length_dropWhile_le (p : Char → Bool) (cs : List Char) : (cs.dropWhile p).length ≤ cs.length :=
  (List.dropWhile_suffix p).length_le

theorem length_trimBlank_le (cs : List Char) : (trimBlank cs).length ≤ cs.length := by
  have outer := length_dropWhile_le isBlank (cs.dropWhile isBlank).reverse
  have inner := length_dropWhile_le isBlank cs
  simp only [trimBlank, trimBoth, List.length_reverse] at *
  omega

end QueryBatch.Text
