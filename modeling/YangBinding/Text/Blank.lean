/-!
# Blank characters

Numbers may be surrounded by blanks wherever the library reads one from text. Blank means the whole
Unicode class `White_Space`, not only its ASCII part: a no-break space around a number is as good as
a plain one, while a zero-width space is not blank at all.

Main statement: `isBlank_of_isWhitespace`, every character that core counts as white space is blank.
-/

namespace YangBinding.Text

/-- The ranges of the Unicode class `White_Space`, first and last code point of each. -/
def blankRanges : List (Nat × Nat) :=
  [(0x09, 0x0D), (0x20, 0x20), (0x85, 0x85), (0xA0, 0xA0), (0x1680, 0x1680), (0x2000, 0x200A),
    (0x2028, 0x2029), (0x202F, 0x202F), (0x205F, 0x205F), (0x3000, 0x3000)]

/-- A code point lies in one of the given ranges. -/
def inRanges (ranges : List (Nat × Nat)) (point : Nat) : Bool :=
  ranges.any fun range => decide (range.1 ≤ point) && decide (point ≤ range.2)

/-- A character is blank when it belongs to the Unicode class `White_Space`. -/
def isBlank (c : Char) : Bool :=
  inRanges blankRanges c.toNat

/-- Leading blanks are dropped. -/
def trimLeft (cs : List Char) : List Char :=
  cs.dropWhile isBlank

/-- Blanks are dropped at both ends. -/
def trim (cs : List Char) : List Char :=
  (trimLeft (trimLeft cs).reverse).reverse

/-- Every character that core counts as white space is blank. -/
theorem isBlank_of_isWhitespace {c : Char} (h : c.isWhitespace = true) : isBlank c = true := by
  simp only [Char.isWhitespace, Bool.or_eq_true, decide_eq_true_eq] at h
  rcases h with ((rfl | rfl) | rfl) | rfl <;> decide

/-- A character is blank exactly when some listed range holds its code point. -/
theorem isBlank_iff {c : Char} :
    isBlank c = true ↔ ∃ range ∈ blankRanges, range.1 ≤ c.toNat ∧ c.toNat ≤ range.2 := by
  simp [isBlank, inRanges]

end YangBinding.Text
