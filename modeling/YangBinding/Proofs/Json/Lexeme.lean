import YangBinding.Json.Reader
import YangBinding.Json.Writer
import YangBinding.Proofs.Text.Integers

/-!
# Literals and numerals that are read back

A string literal that is written is scanned as the one token of its text: each character comes back
as itself, by way of a short escape or of its number where it may not stand for itself. The numeral of
an integer of 64 bits is scanned as the token of the integer, up to the first character that cannot
continue a numeral.

## Main definitions

* `Json.unitOf` — what the written form of a character is read as
* `Json.Ends` — a text that does not continue a numeral

## Main results

* `Json.scanChars?_literal` — scanning a string literal
* `Json.scanChars?_integer` — scanning a numeral
-/

namespace YangBinding

namespace Text

/-! ### Decimal digits -/

theorem digitChar_ne_zero : ∀ d < 10, d ≠ 0 → Nat.digitChar d ≠ '0' := by decide

/-- Only the number zero has a leading zero. -/
theorem head?_toDigits {n : Nat} (h : n ≠ 0) : (Nat.toDigits 10 n).head? ≠ some '0' := by
  induction n using Nat.strongRecOn with
  | ind n ih =>
    by_cases hn : n < 10
    · rw [Nat.toDigits_of_lt_base hn, List.head?_cons]
      exact fun heq => digitChar_ne_zero n hn h (Option.some.inj heq)
    · have hhead := ih (n / 10) (by omega) (by omega)
      rw [Nat.toDigits_of_base_le (by omega) (by omega)]
      cases hd : Nat.toDigits 10 (n / 10) with
      | nil => exact absurd hd Nat.toDigits_ne_nil
      | cons d ds => simpa [hd] using hhead

end Text

namespace Json

open Token

variable {c : Char} {cs rest tail : List Char} {t : Token} {n : Nat}

/-! ### Scanning one token -/

theorem scanChars?_space (h : isSpace c = true) : scanChars? (c :: rest) = scanChars? rest := by
  rw [scanChars?, if_pos h]

theorem scanChars?_next (hs : isSpace c = false) (h : next? c rest = some (t, tail)) :
    scanChars? (c :: rest) = (scanChars? tail).map (t :: ·) := by
  rw [scanChars?, if_neg (by simp [hs])]
  split
  · next t' tail' h' =>
    rw [h] at h'
    cases h'
    rfl
  · next h' =>
    rw [h] at h'
    cases h'

/-! ### String literals -/

/-- What the written form of a character is read as: control characters without a short escape are
given by number. -/
def unitOf (c : Char) : StringUnit :=
  if c.toNat < 0x20 ∧ c ∉ ['\x08', '\t', '\n', '\x0c', '\r'] then .code c.toNat else .char c

theorem numberOf?_hexByte :
    ∀ n < 0x20, Text.numberOf? 16 ('0' :: '0' :: Text.hexByte n.toUInt8) = some n := by decide

theorem stringUnits?_short {e : Char} (hu : e ≠ 'u') (he : shortEscape? e = some c) :
    stringUnits? ('\\' :: e :: rest) = (stringUnits? rest).map fun p => (.char c :: p.1, p.2) := by
  rw [stringUnits?.eq_4 _ _ (by simp [hu]), he]
  cases stringUnits? rest <;> rfl

theorem stringUnits?_code {a b c d : Char} (h : Text.numberOf? 16 [a, b, c, d] = some n) :
    stringUnits? ('\\' :: 'u' :: a :: b :: c :: d :: rest) =
      (stringUnits? rest).map fun p => (.code n :: p.1, p.2) := by
  rw [stringUnits?, h]
  cases stringUnits? rest <;> rfl

theorem stringUnits?_char (hquote : c ≠ '"') (hslash : c ≠ '\\') (hc : ¬ c.toNat < 0x20) :
    stringUnits? (c :: rest) = (stringUnits? rest).map fun p => (.char c :: p.1, p.2) := by
  rw [stringUnits?.eq_5 _ _ (by simp [hquote]) (by simp [hslash]) (by simp [hslash]),
    if_neg (by simp [hslash, hc])]
  cases stringUnits? rest <;> rfl

/-- The written form of a character is one unit of a literal. -/
theorem stringUnits?_escapedChar (c : Char) (rest : List Char) :
    stringUnits? (escapedChar c ++ rest) =
      (stringUnits? rest).map fun p => (unitOf c :: p.1, p.2) := by
  by_cases hshort : c ∈ ['"', '\\', '\x08', '\t', '\n', '\x0c', '\r']
  · -- One of the seven characters that have a short escape.
    simp only [List.mem_cons, List.not_mem_nil, or_false] at hshort
    rcases hshort with rfl | rfl | rfl | rfl | rfl | rfl | rfl <;>
      exact stringUnits?_short (by decide) (by decide)
  · simp only [List.mem_cons, List.not_mem_nil, or_false, not_or] at hshort
    obtain ⟨hquote, hslash, hb, ht, hn, hf, hr⟩ := hshort
    have hplain : c ∉ ['\x08', '\t', '\n', '\x0c', '\r'] := by simp [hb, ht, hn, hf, hr]
    simp only [escapedChar, if_neg hquote, if_neg hslash, if_neg hb, if_neg ht, if_neg hn,
      if_neg hf, if_neg hr]
    -- Any other control character is given by number, and the rest stands for itself.
    by_cases hc : c.toNat < 0x20
    · rw [if_pos hc, unitOf, if_pos ⟨hc, hplain⟩]
      exact stringUnits?_code (numberOf?_hexByte _ hc)
    · rw [if_neg hc, unitOf, if_neg fun h => hc h.1]
      exact stringUnits?_char hquote hslash hc

theorem unitChars?_char (c : Char) (units : List StringUnit) :
    unitChars? (.char c :: units) = (unitChars? units).map (c :: ·) := by
  rw [unitChars?]
  cases unitChars? units <;> rfl

/-- A number below the surrogates denotes its character whatever follows. -/
theorem unitChars?_code (hn : n < 0xD800) (units : List StringUnit) :
    unitChars? (.code n :: units) = (unitChars? units).map (Char.ofNat n :: ·) := by
  have hlead : isLeading n = false := by
    simp only [isLeading, Bool.and_eq_false_imp, decide_eq_true_eq, decide_eq_false_iff_not]
    omega
  have htrail : isTrailing n = false := by
    simp only [isTrailing, Bool.and_eq_false_imp, decide_eq_true_eq, decide_eq_false_iff_not]
    omega
  rw [unitChars?.eq_def]
  simp only [hlead, htrail]
  cases unitChars? units <;> rfl

/-- The unit of a character denotes the character. -/
theorem unitChars?_unitOf (c : Char) (units : List StringUnit) :
    unitChars? (unitOf c :: units) = (unitChars? units).map (c :: ·) := by
  unfold unitOf
  split
  · next h => rw [unitChars?_code (by omega), Char.ofNat_toNat]
  · exact unitChars?_char c units

theorem unitChars?_map_unitOf (cs : List Char) : unitChars? (cs.map unitOf) = some cs := by
  induction cs with
  | nil => rfl
  | cons c cs ih => rw [List.map_cons, unitChars?_unitOf, ih, Option.map_some]

theorem stringUnits?_flatMap_escapedChar (cs rest : List Char) :
    stringUnits? (cs.flatMap escapedChar ++ '"' :: rest) = some (cs.map unitOf, rest) := by
  induction cs with
  | nil => rw [List.flatMap_nil, List.nil_append, stringUnits?, List.map_nil]
  | cons c cs ih =>
    rw [List.flatMap_cons, List.append_assoc, stringUnits?_escapedChar, ih]
    rfl

/-- A literal is scanned as the token of its text. -/
theorem scanChars?_literal (s : String) (rest : List Char) :
    scanChars? (literal s ++ rest) = (scanChars? rest).map (.string s :: ·) := by
  have htoken : ofUnits (s.toList.map unitOf) = .string s := by
    rw [ofUnits, unitChars?_map_unitOf]
    exact congrArg Token.string String.ofList_toList
  have hnext : next? '"' (s.toList.flatMap escapedChar ++ '"' :: rest) =
      some (.string s, rest) := by
    change (stringUnits? _).map _ = _
    rw [stringUnits?_flatMap_escapedChar, Option.map_some, htoken]
  rw [literal, List.cons_append, List.append_assoc]
  exact scanChars?_next rfl hnext

/-! ### Numerals -/

/-- A text that does not continue a numeral. -/
def Ends (cs : List Char) : Prop :=
  ∀ c ∈ cs.head?, c.isDigit = false ∧ c ∉ ['.', 'e', 'E']

theorem Ends.nil : Ends [] := fun _ h => by cases h

theorem Ends.cons (hdigit : c.isDigit = false) (hc : c ∉ ['.', 'e', 'E']) : Ends (c :: cs) := by
  intro d hd
  cases Option.some.inj hd
  exact ⟨hdigit, hc⟩

theorem Ends.takeWhile_append (hrest : Ends rest) (hcs : ∀ c ∈ cs, c.isDigit = true) :
    (cs ++ rest).takeWhile Char.isDigit = cs := by
  rw [List.takeWhile_append_of_pos hcs]
  cases rest with
  | nil => simp
  | cons d ds => simp [(hrest d rfl).1]

theorem Ends.dropWhile_append (hrest : Ends rest) (hcs : ∀ c ∈ cs, c.isDigit = true) :
    (cs ++ rest).dropWhile Char.isDigit = rest := by
  rw [List.dropWhile_append_of_pos hcs]
  cases rest with
  | nil => rfl
  | cons d ds => rw [List.dropWhile_cons_of_neg (by simp [(hrest d rfl).1])]

theorem Ends.fraction? (hrest : Ends rest) : Token.fraction? rest = some ([], rest) := by
  unfold Token.fraction?
  split
  · exact absurd (hrest '.' rfl).2 (by decide)
  · rfl

theorem Ends.exponent? (hrest : Ends rest) : Token.exponent? rest = some ([], rest) := by
  unfold Token.exponent?
  split
  · rfl
  · next e tail =>
    have he := (hrest e rfl).2
    simp only [List.mem_cons, List.not_mem_nil, or_false, not_or] at he
    rw [if_neg (by simp [he])]

/-- The digits of a number, up to a character that is no part of a numeral, are one numeral. -/
theorem numeral?_toDigits (negative : Bool) (n : Nat) (hrest : Ends rest) :
    numeral? negative (Nat.toDigits 10 n ++ rest) =
      some (ofDigits negative (Nat.toDigits 10 n), rest) := by
  have hdigits : ∀ c ∈ Nat.toDigits 10 n, c.isDigit = true :=
    fun c hc => Nat.isDigit_of_mem_toDigits (by decide) (by decide) hc
  have hstart : ¬(Nat.toDigits 10 n = [] ∨
      (Nat.toDigits 10 n).head? = some '0' ∧ (Nat.toDigits 10 n).length ≠ 1) := by
    rintro (hnil | ⟨hzero, hlength⟩)
    · exact Nat.toDigits_ne_nil hnil
    · -- A leading zero is that of the number zero, which has no other digit.
      by_cases hn : n = 0
      · exact hlength (by rw [hn]; rfl)
      · exact Text.head?_toDigits hn hzero
  simp only [numeral?, hrest.takeWhile_append hdigits, hrest.dropWhile_append hdigits]
  rw [if_neg hstart, hrest.fraction?]
  simp only [Option.bind_eq_bind, Option.bind_some, hrest.exponent?]
  rfl

theorem next?_of_isDigit (h : c.isDigit = true) (rest : List Char) :
    next? c rest = numeral? false (c :: rest) := by
  have hne : ∀ d : Char, d.isDigit = false → c ≠ d := by
    rintro d hd rfl
    rw [h] at hd
    cases hd
  have hpunctuation : punctuation? c = none := by
    simp only [punctuation?, if_neg (hne '[' rfl), if_neg (hne ']' rfl), if_neg (hne '\x7b' rfl),
      if_neg (hne '\x7d' rfl), if_neg (hne ',' rfl), if_neg (hne ':' rfl)]
  simp only [next?, hpunctuation, if_neg (hne '"' rfl), if_neg (hne '-' rfl), if_pos h]

theorem isSpace_of_isDigit (h : c.isDigit = true) : isSpace c = false := by
  simp only [isSpace, Bool.or_eq_false_iff, beq_eq_false_iff_ne]
  refine ⟨⟨⟨?_, ?_⟩, ?_⟩, ?_⟩ <;> rintro rfl <;> cases h

/-- The numeral of a natural number of 64 bits. -/
theorem scanChars?_natural (hn : n < 18446744073709551616) (hrest : Ends rest) :
    scanChars? (Nat.toDigits 10 n ++ rest) = (scanChars? rest).map (.integer n :: ·) := by
  have hnumeral := numeral?_toDigits false n hrest
  have hdigits : ∀ c ∈ Nat.toDigits 10 n, c.isDigit = true :=
    fun c hc => Nat.isDigit_of_mem_toDigits (by decide) (by decide) hc
  have htoken : ofDigits false (Nat.toDigits 10 n) = .integer n := by
    simp only [ofDigits, Text.digitsValue_toDigits]
    rw [if_neg (by decide), if_pos hn]
  rw [htoken] at hnumeral
  cases hd : Nat.toDigits 10 n with
  | nil => exact absurd hd Nat.toDigits_ne_nil
  | cons c cs =>
    rw [hd] at hnumeral hdigits
    have hc := hdigits c List.mem_cons_self
    exact scanChars?_next (isSpace_of_isDigit hc) ((next?_of_isDigit hc _).trans hnumeral)

/-- The numeral of the opposite of a positive number of 63 bits, or of `-2^63`. -/
theorem scanChars?_negative (hpos : n ≠ 0) (hn : n ≤ 9223372036854775808) (hrest : Ends rest) :
    scanChars? ('-' :: (Nat.toDigits 10 n ++ rest)) =
      (scanChars? rest).map (.integer (-n) :: ·) := by
  have htoken : ofDigits true (Nat.toDigits 10 n) = .integer (-n) := by
    simp only [ofDigits, Text.digitsValue_toDigits, if_true]
    rw [if_neg (by omega)]
  apply scanChars?_next rfl
  change numeral? true _ = _
  rw [numeral?_toDigits true n hrest, htoken]

/-- The numeral of an integer of 64 bits, signed or unsigned, is scanned as the token of the
integer. -/
theorem scanChars?_integer {z : Int} (hlow : -9223372036854775808 ≤ z)
    (hhigh : z < 18446744073709551616) (hrest : Ends rest) :
    scanChars? ((toString z).toList ++ rest) = (scanChars? rest).map (.integer z :: ·) := by
  rw [Text.toList_toString]
  split
  · next hz =>
    obtain ⟨n, rfl⟩ := Int.eq_ofNat_of_zero_le hz
    exact scanChars?_natural (by omega) hrest
  · next hz =>
    obtain ⟨n, hn⟩ := Int.eq_ofNat_of_zero_le (show 0 ≤ -z by omega)
    obtain rfl : z = -n := by omega
    rw [Int.neg_neg]
    exact scanChars?_negative (by omega) (by omega) hrest

end Json

end YangBinding
