import Mathlib.Data.Nat.Digits.Defs
import YangBinding.Calendar.Date
import YangBinding.Proofs.Outcome
import YangBinding.Proofs.Text.Integers

/-!
# Days are read back from their written form

Reading is lenient in what it takes for a day: blanks before a number, single digits, any number of
digits behind a sign. The written form uses none of this. Its year has four digits, or a sign that
lifts the limit on their number, and month and day have two, so that each number ends where a hyphen
or the text does.

## Main definitions

* `Calendar.Date.Delimits` — a text at which the digits before it end

## Main results

* `Calendar.Date.readNumber_append` — digits are read as one number up to the first other character
* `Calendar.Date.readYear_yearChars` — a year with or without a sign
* `Calendar.Date.read?_text` — the written form of a day denotes the day
-/

namespace YangBinding.Calendar.Date

open Text (digitsValue)

variable {c : Char} {digits rest : List Char} {width : Option Nat} {w n last : Nat}

/-! ### Numbers -/

/-- The text does not start with a digit, so that a number before it ends there. -/
def Delimits (rest : List Char) : Prop :=
  ∀ c, rest.head? = some c → c.isDigit = false

theorem delimits_nil : Delimits [] := by
  rintro _ ⟨⟩

theorem delimits_hyphen (rest : List Char) : Delimits ('-' :: rest) := by
  rintro _ ⟨⟩
  decide

/-- Digits, up to a character that is none or to the end of the text, are one number, as long as
they are not too many. -/
theorem readNumber_append (hne : digits ≠ []) (hdigits : ∀ c ∈ digits, c.isDigit = true)
    (hwidth : ∀ w, width = some w → digits.length ≤ w)
    (hrest : Delimits rest) :
    readNumber width (digits ++ rest) = .ok (digitsValue digits, rest) := by
  have stops (m : Nat) : (rest.take m).takeWhile Char.isDigit = [] := by
    cases rest with
    | nil => simp
    | cons c rest => cases m <;> simp [hrest c rfl]
  have hleading : leadingDigits width (digits ++ rest) = digits := by
    cases width with
    | none =>
      have hnone := stops rest.length
      rw [List.take_length] at hnone
      change (digits ++ rest).takeWhile Char.isDigit = digits
      rw [List.takeWhile_append_of_pos hdigits, hnone, List.append_nil]
    | some w =>
      change ((digits ++ rest).take w).takeWhile Char.isDigit = digits
      rw [List.take_append, List.take_of_length_le (hwidth w rfl),
        List.takeWhile_append_of_pos hdigits, stops, List.append_nil]
  rw [readNumber, hleading]
  split
  · exact absurd rfl hne
  · rw [List.drop_left]

theorem digitsValue_replicate_zero (m : Nat) (digits : List Char) :
    digitsValue (List.replicate m '0' ++ digits) = digitsValue digits := by
  induction m with
  | zero => rfl
  | succ m ih => exact ih

theorem digitsValue_zeroPadded (width n : Nat) : digitsValue (zeroPadded width n) = n := by
  rw [zeroPadded, digitsValue_replicate_zero, Text.digitsValue_toDigits]

theorem isDigit_of_mem_zeroPadded (h : c ∈ zeroPadded w n) : c.isDigit = true := by
  rcases List.mem_append.1 h with h | h
  · rw [List.eq_of_mem_replicate h]
    decide
  · exact Nat.isDigit_of_mem_toDigits (by decide) (by decide) h

theorem zeroPadded_ne_nil (width n : Nat) : zeroPadded width n ≠ [] :=
  List.append_ne_nil_of_right_ne_nil _ Nat.toDigits_ne_nil

/-- A number that fits into its width is filled up to just that width. -/
theorem length_zeroPadded (hw : 0 < w) (hn : n < 10 ^ w) : (zeroPadded w n).length = w := by
  have hlength := Nat.toDigits_length 10 n w hw hn
  rw [zeroPadded, List.length_append, List.length_replicate]
  omega

theorem readNumber_zeroPadded (hwidth : ∀ v, width = some v → (zeroPadded w n).length ≤ v)
    (hrest : Delimits rest) :
    readNumber width (zeroPadded w n ++ rest) = .ok (n, rest) := by
  rw [readNumber_append (zeroPadded_ne_nil w n) (fun _ => isDigit_of_mem_zeroPadded) hwidth hrest,
    digitsValue_zeroPadded]

/-- No blanks stand before the digits of a number. -/
theorem trimLeft_zeroPadded (width n : Nat) (rest : List Char) :
    Text.trimLeft (zeroPadded width n ++ rest) = zeroPadded width n ++ rest := by
  change Text.trimLeft ([] ++ (zeroPadded width n ++ rest)) = _
  exact Text.trimLeft_append (List.forall_mem_nil _)
    (fun _ hc => Text.isBlank_of_isDigit (isDigit_of_mem_zeroPadded hc)) (zeroPadded_ne_nil width n)

/-! ### The parts of a day -/

/-- A year is followed by a hyphen, at which its digits end. -/
theorem readYear_yearChars {year : Int} (hlow : yearRange.1 ≤ year) (hhigh : year ≤ yearRange.2)
    (rest : List Char) :
    readYear (yearChars year ++ '-' :: rest) = .ok (year, '-' :: rest) := by
  have hfits : -2147483648 ≤ year ∧ year < 2147483648 := by
    simp only [yearRange] at hlow hhigh
    omega
  have hchecked : (if -2147483648 ≤ year ∧ year < 2147483648 then pure (year, '-' :: rest)
      else throw .outOfRange : Except DateError (Int × List Char)) = .ok (year, '-' :: rest) :=
    if_pos hfits
  by_cases hfour : 0 ≤ year ∧ year ≤ 9999
  · have hlength : ∀ v, some 4 = some v → (zeroPadded 4 year.toNat).length ≤ v := by
      rintro _ ⟨⟩
      rw [length_zeroPadded (by decide) (by omega)]
    have hyear : ((year.toNat : Nat) : Int) = year := by omega
    -- The first character is a digit, hence no sign.
    obtain ⟨c, digits, hcs⟩ := List.exists_cons_of_ne_nil (zeroPadded_ne_nil 4 year.toNat)
    have hc : c.isDigit = true := isDigit_of_mem_zeroPadded (hcs ▸ List.mem_cons_self)
    rw [yearChars, if_pos hfour, readYear, trimLeft_zeroPadded]
    split
    · next h =>
      rw [hcs] at h
      obtain ⟨rfl, -⟩ := List.cons.inj h
      exact absurd hc (by decide)
    · next h =>
      rw [hcs] at h
      obtain ⟨rfl, -⟩ := List.cons.inj h
      exact absurd hc (by decide)
    · refine Except.bind_eq_ok_iff.2 ⟨_, readNumber_zeroPadded hlength (delimits_hyphen rest), ?_⟩
      simpa only [hyear, pure_bind] using hchecked
  · have hnumber : readNumber none (zeroPadded 4 year.natAbs ++ '-' :: rest) =
        .ok (year.natAbs, '-' :: rest) := readNumber_zeroPadded (by simp) (delimits_hyphen rest)
    by_cases hneg : year < 0
    · have hyear : -(year.natAbs : Int) = year := by omega
      rw [yearChars, if_neg hfour, if_pos hneg]
      refine Except.bind_eq_ok_iff.2 ⟨_, hnumber, ?_⟩
      simpa only [hyear, pure_bind] using hchecked
    · have hyear : (year.natAbs : Int) = year := by omega
      rw [yearChars, if_neg hfour, if_neg hneg]
      refine Except.bind_eq_ok_iff.2 ⟨_, hnumber, ?_⟩
      simpa only [hyear, pure_bind] using hchecked

/-- A part of two digits ends at a character that is no digit, or with the text. -/
theorem readPart_zeroPadded (hn : 1 ≤ n) (hlast : n ≤ last) (hlarge : last < 100)
    (hrest : Delimits rest) :
    readPart last (zeroPadded 2 n ++ rest) = .ok (n, rest) := by
  have hlength : ∀ v, some 2 = some v → (zeroPadded 2 n).length ≤ v := by
    rintro _ ⟨⟩
    rw [length_zeroPadded (by decide) (by omega)]
  rw [readPart, trimLeft_zeroPadded, readNumber_zeroPadded hlength hrest]
  exact if_pos ⟨hn, hlast⟩

/-! ### Days -/

/-- Every day is in one of twelve months, which have at most 31 days. -/
theorem month_day_le {year : Int} {month day : Nat} (h : IsDay year month day) :
    1 ≤ month ∧ month ≤ 12 ∧ 1 ≤ day ∧ day ≤ 31 := by
  obtain ⟨-, -, hday, hlast⟩ := h
  unfold daysInMonth at hlast
  split at hlast <;> first | omega | (split at hlast <;> omega)

/-- The written form of a day denotes the day, whatever its year. -/
theorem read?_text (d : Date) : read? d.text = .ok d := by
  obtain ⟨year, month, day, hd⟩ := d
  obtain ⟨hmonth, hmonths, hday, hdays⟩ := month_day_le hd
  have hyear := readYear_yearChars hd.1 hd.2.1 (zeroPadded 2 month ++ '-' :: zeroPadded 2 day)
  have hmonth := readPart_zeroPadded hmonth hmonths (by decide) (delimits_hyphen (zeroPadded 2 day))
  have hday : readPart 31 (zeroPadded 2 day ++ []) = .ok (day, []) :=
    readPart_zeroPadded hday hdays (by decide) delimits_nil
  rw [List.append_nil] at hday
  rw [read?, text, String.toList_ofList, ofChars?, chars]
  simp only [hyear, readHyphen, hmonth, hday, bind, Except.bind, pure, Except.pure, ne_eq,
    not_true, if_false, hd, dif_pos]

example : text ⟨-44, 3, 15, by decide⟩ = "-0044-03-15" := by decide

end YangBinding.Calendar.Date
