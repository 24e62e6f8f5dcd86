import Mathlib.Data.List.Induction
import Mathlib.Data.List.TakeWhile
import Mathlib.Tactic.IntervalCases
import YangBinding.Text.Blank
import YangBinding.Text.Numeral

/-!
# What numerals denote

A numeral is read digit by digit, and what it denotes is defined in the same way: a further digit at
the end makes ten times as much as before, and its own value. Leading zeros do not count. Around an
integer blanks are dropped at both ends, which leaves the numeral itself since no part of a numeral
is blank.

## Main definitions

* `Text.Decimal` — digits denote a number
* `Text.Integral` — digits behind at most one sign denote an integer
* `Text.Padded` — a text has nothing but blanks around another

## Main results

* `Text.natural?_eq_some_iff_decimal`, `Text.integer?_trim_eq_some_iff` — what is read is what is
  denoted
* `Text.integral_toString` — the decimal text of an integer denotes it
-/

namespace YangBinding.Text

variable {c : Char} {cs core before after : List Char} {n d : Nat} {z : Int} {signed : Bool}

/-! ### Digits -/

theorem digitsValue_concat (digits : List Char) (c : Char) :
    digitsValue (digits ++ [c]) = 10 * digitsValue digits + digitValue c := by
  rw [digitsValue, List.foldl_append]
  rfl

theorem digitValue_digitChar : ∀ d < 10, digitValue (Nat.digitChar d) = d := by decide

theorem isDigit_digitChar : ∀ d < 10, (Nat.digitChar d).isDigit = true := by decide

theorem isDigit_iff : c.isDigit = true ↔ 48 ≤ c.toNat ∧ c.toNat ≤ 57 := by
  simp only [Char.isDigit, Bool.and_eq_true, decide_eq_true_eq]
  rfl

/-- A digit is the character of its value. -/
theorem digitChar_digitValue (h : c.isDigit = true) :
    digitValue c < 10 ∧ Nat.digitChar (digitValue c) = c := by
  obtain ⟨hlow, hhigh⟩ := isDigit_iff.1 h
  have hc : c = Char.ofNat c.toNat := (Char.ofNat_toNat c).symm
  generalize c.toNat = k at hc hlow hhigh
  subst hc
  interval_cases k <;> decide

/-- The digits of a number stand for it. -/
theorem digitsValue_toDigits (n : Nat) : digitsValue (Nat.toDigits 10 n) = n := by
  induction n using Nat.strongRecOn with
  | ind n ih =>
    by_cases h : n < 10
    · rw [Nat.toDigits_of_lt_base h]
      simp [digitsValue, digitValue_digitChar n h]
    · rw [Nat.toDigits_of_base_le (by omega) (by omega), digitsValue_concat, ih (n / 10) (by omega),
        digitValue_digitChar (n % 10) (by omega)]
      omega

/-- Digits denote a number: one digit its value, and each further one ten times as much as those
before it, and its value. -/
inductive Decimal : List Char → Nat → Prop
  | digit {d : Nat} (hd : d < 10) : Decimal [Nat.digitChar d] d
  | concat {cs : List Char} {n d : Nat} (init : Decimal cs n) (hd : d < 10) :
      Decimal (cs ++ [Nat.digitChar d]) (10 * n + d)

/-- What is read as a natural number is what digits denote. -/
theorem natural?_eq_some_iff_decimal : natural? cs = some n ↔ Decimal cs n := by
  rw [natural?_eq_some_iff]
  constructor
  · rintro ⟨hne, hdigits, rfl⟩
    -- The last digit counts for itself, so the induction goes from the other end.
    induction cs using List.reverseRecOn with
    | nil => exact absurd rfl hne
    | append_singleton cs c ih =>
      obtain ⟨hlt, hchar⟩ := digitChar_digitValue (hdigits c (by simp))
      rw [digitsValue_concat]
      by_cases hcs : cs = []
      · subst hcs
        have hone := Decimal.digit hlt
        rw [hchar] at hone
        simpa [digitsValue] using hone
      · have hinit := ih hcs fun c hc => hdigits c (by simp [hc])
        have hall := hinit.concat hlt
        rwa [hchar] at hall
  · intro h
    induction h with
    | digit hd => simp [isDigit_digitChar _ hd, digitsValue, digitValue_digitChar _ hd]
    | concat _ hd ih =>
      obtain ⟨-, hdigits, rfl⟩ := ih
      refine ⟨by simp, ?_, by rw [digitsValue_concat, digitValue_digitChar _ hd]⟩
      simpa [isDigit_digitChar _ hd, or_imp, forall_and] using hdigits

theorem Decimal.ne_nil (h : Decimal cs n) : cs ≠ [] :=
  (natural?_eq_some_iff.1 (natural?_eq_some_iff_decimal.2 h)).1

theorem Decimal.isDigit (h : Decimal cs n) : ∀ c ∈ cs, c.isDigit = true :=
  (natural?_eq_some_iff.1 (natural?_eq_some_iff_decimal.2 h)).2.1

theorem decimal_toDigits (n : Nat) : Decimal (Nat.toDigits 10 n) n :=
  natural?_eq_some_iff_decimal.1 <| natural?_eq_some_iff.2
    ⟨Nat.toDigits_ne_nil, fun _ hc => Nat.isDigit_of_mem_toDigits (by decide) (by decide) hc,
      digitsValue_toDigits n⟩

/-! ### Signs -/

/-- Digits behind at most one sign denote an integer; a minus sign only where integers are signed.
-/
inductive Integral (signed : Bool) : List Char → Int → Prop
  | plain {cs : List Char} {n : Nat} (digits : Decimal cs n) : Integral signed cs n
  | plus {cs : List Char} {n : Nat} (digits : Decimal cs n) : Integral signed ('+' :: cs) n
  | minus {cs : List Char} {n : Nat} (allowed : signed = true) (digits : Decimal cs n) :
      Integral signed ('-' :: cs) (-n)

theorem integer?_eq_some_iff_integral : integer? signed cs = some z ↔ Integral signed cs z := by
  simp only [integer?_eq_some_iff, natural?_eq_some_iff_decimal]
  constructor
  · rintro (⟨n, h | ⟨ds, rfl, h⟩, rfl⟩ | ⟨hsigned, n, ds, rfl, h, rfl⟩)
    · exact .plain h
    · exact .plus h
    · exact .minus hsigned h
  · rintro (h | h | ⟨hsigned, h⟩)
    · exact .inl ⟨_, .inl h, rfl⟩
    · exact .inl ⟨_, .inr ⟨_, rfl, h⟩, rfl⟩
    · exact .inr ⟨hsigned, _, _, rfl, h, rfl⟩

/-! ### Blanks -/

/-- A text has nothing but blanks around its core. -/
def Padded (cs core : List Char) : Prop :=
  ∃ before after, cs = before ++ core ++ after ∧ (∀ c ∈ before, isBlank c = true) ∧
    ∀ c ∈ after, isBlank c = true

theorem takeWhile_append_trimLeft (cs : List Char) : cs.takeWhile isBlank ++ trimLeft cs = cs :=
  List.takeWhile_append_dropWhile

/-- What is trimmed away are blanks. -/
theorem padded_trim (cs : List Char) : Padded cs (trim cs) := by
  refine ⟨cs.takeWhile isBlank, ((trimLeft cs).reverse.takeWhile isBlank).reverse, ?_, ?_, ?_⟩
  · rw [List.append_assoc, trim, ← List.reverse_append, takeWhile_append_trimLeft,
      List.reverse_reverse, takeWhile_append_trimLeft]
  · exact fun c hc => List.mem_takeWhile_imp hc
  · exact fun c hc => List.mem_takeWhile_imp (List.mem_reverse.1 hc)

theorem trimLeft_append (hbefore : ∀ c ∈ before, isBlank c = true)
    (hcore : ∀ c ∈ core, isBlank c = false) (hne : core ≠ []) :
    trimLeft (before ++ (core ++ after)) = core ++ after := by
  obtain ⟨c, core, rfl⟩ := List.exists_cons_of_ne_nil hne
  rw [trimLeft, List.dropWhile_append_of_pos hbefore, List.cons_append,
    List.dropWhile_cons_of_neg (by simp [hcore c (by simp)])]

/-- Trimming leaves a core in which nothing is blank. -/
theorem trim_of_padded (h : Padded cs core) (hcore : ∀ c ∈ core, isBlank c = false)
    (hne : core ≠ []) : trim cs = core := by
  obtain ⟨before, after, rfl, hbefore, hafter⟩ := h
  have hcore' : ∀ c ∈ core.reverse, isBlank c = false := by simpa using hcore
  have hafter' : ∀ c ∈ after.reverse, isBlank c = true := by simpa using hafter
  -- The right end is trimmed as the left end of the reversed text.
  have hright : trimLeft (after.reverse ++ (core.reverse ++ [])) = core.reverse ++ [] :=
    trimLeft_append hafter' hcore' (by simpa using hne)
  rw [List.append_nil] at hright
  rw [trim, List.append_assoc, trimLeft_append hbefore hcore hne, List.reverse_append, hright,
    List.reverse_reverse]

theorem isBlank_of_isDigit (h : c.isDigit = true) : isBlank c = false := by
  obtain ⟨hlow, hhigh⟩ := isDigit_iff.1 h
  refine Bool.eq_false_iff.2 fun hblank => ?_
  obtain ⟨range, hrange, hfrom, hto⟩ := isBlank_iff.1 hblank
  simp only [blankRanges, List.mem_cons, List.not_mem_nil, or_false] at hrange
  rcases hrange with rfl | rfl | rfl | rfl | rfl | rfl | rfl | rfl | rfl | rfl <;> omega

/-- No part of the text of an integer is blank. -/
theorem Integral.not_isBlank (h : Integral signed cs z) :
    cs ≠ [] ∧ ∀ c ∈ cs, isBlank c = false := by
  have digits {cs : List Char} {n : Nat} (h : Decimal cs n) : ∀ c ∈ cs, isBlank c = false :=
    fun c hc => isBlank_of_isDigit (h.isDigit c hc)
  cases h with
  | plain h => exact ⟨h.ne_nil, digits h⟩
  | plus h => exact ⟨by simp, List.forall_mem_cons.2 ⟨by decide, digits h⟩⟩
  | minus _ h => exact ⟨by simp, List.forall_mem_cons.2 ⟨by decide, digits h⟩⟩

/-- What is read as an integer between blanks is what it denotes there. -/
theorem integer?_trim_eq_some_iff :
    integer? signed (trim cs) = some z ↔ ∃ core, Padded cs core ∧ Integral signed core z := by
  rw [integer?_eq_some_iff_integral]
  constructor
  · exact fun h => ⟨_, padded_trim cs, h⟩
  · rintro ⟨core, hpadded, h⟩
    rwa [trim_of_padded hpadded h.not_isBlank.2 h.not_isBlank.1]

/-! ### Decimal texts -/

theorem toList_repr (n : Nat) : n.repr.toList = Nat.toDigits 10 n := by
  rw [Nat.repr_eq_ofList_toDigits, String.toList_ofList]

/-- The decimal text of an integer has its digits, behind a minus sign if it is negative. -/
theorem toList_toString (z : Int) : (toString z).toList =
    if 0 ≤ z then Nat.toDigits 10 z.toNat else '-' :: Nat.toDigits 10 (-z).toNat := by
  have hrepr : toString z = z.repr := rfl
  rw [hrepr, Int.repr_eq_if]
  split
  · rw [toList_repr]
  · rw [String.toList_append, toList_repr]
    rfl

/-- The decimal text of an integer denotes it; a negative one only where integers are signed. -/
theorem integral_toString (h : signed = true ∨ 0 ≤ z) : Integral signed (toString z).toList z := by
  rw [toList_toString]
  split
  · next hz =>
    have hplain : Integral signed _ _ := .plain (decimal_toDigits z.toNat)
    rwa [Int.toNat_of_nonneg hz] at hplain
  · next hz =>
    have hminus := Integral.minus (h.resolve_right hz) (decimal_toDigits (-z).toNat)
    rwa [Int.toNat_of_nonneg (by omega), Int.neg_neg] at hminus

end YangBinding.Text
