import YangBinding.Text.Blank
import YangBinding.Text.Numeral

/-!
# Revision dates

A module revision is a day of the Gregorian calendar, extended to all years from -262143 to 262142.
It is written `YYYY-MM-DD`; a year outside 0 to 9999 carries a sign. Reading is lenient where the
written form is not: each number may follow blanks, month and day may have one digit, and a signed
year may have any number of digits.

## Main definitions

* `Date`: a day that exists
* `Date.read?`: the day a text denotes, or what is wrong with the text
* `Date.text`: the written form
-/

namespace YangBinding.Calendar

/-- Every fourth year is a leap year, except centuries that are not a multiple of 400. -/
def isLeapYear (year : Int) : Bool :=
  decide (year % 4 = 0) && (decide (year % 100 ≠ 0) || decide (year % 400 = 0))

/-- The number of days of a month; 0 for a month that does not exist. -/
def daysInMonth (year : Int) : Nat → Nat
  | 1 | 3 | 5 | 7 | 8 | 10 | 12 => 31
  | 4 | 6 | 9 | 11 => 30
  | 2 => if isLeapYear year then 29 else 28
  | _ => 0

/-- The first and the last year of the calendar. -/
def yearRange : Int × Int := (-262143, 262142)

/-- A day that exists in the calendar. -/
def IsDay (year : Int) (month day : Nat) : Prop :=
  yearRange.1 ≤ year ∧ year ≤ yearRange.2 ∧ 1 ≤ day ∧ day ≤ daysInMonth year month

instance (year : Int) (month day : Nat) : Decidable (IsDay year month day) :=
  inferInstanceAs (Decidable (_ ∧ _ ∧ _ ∧ _))

/-- A day of the calendar. -/
structure Date where
  year : Int
  month : Nat
  day : Nat
  isDay : IsDay year month day := by decide
  deriving DecidableEq, Repr

/-- What is wrong with a text that should be a date. -/
inductive DateError where
  /-- The text ends where a number or a hyphen is expected. -/
  | premature
  /-- Another character stands where a number or a hyphen is expected. -/
  | badCharacter
  /-- A number is too large, or the day does not exist. -/
  | outOfRange
  /-- Text is left over after the day. -/
  | trailing
  deriving DecidableEq, Repr

/-- The wording of an error. -/
def DateError.message : DateError → String
  | .premature => "premature end of input"
  | .badCharacter => "input contains invalid characters"
  | .outOfRange => "input is out of range"
  | .trailing => "trailing input"

namespace Date

/-- Days are ordered by year, then month, then day. -/
instance : Ord Date where
  compare := compareLex (compareOn year) (compareLex (compareOn month) (compareOn day))

/-! ## Reading -/

/-- The digits at the head of a text, at most `width` of them where a width is given. -/
def leadingDigits (width : Option Nat) (cs : List Char) : List Char :=
  ((width.map fun w => cs.take w).getD cs).takeWhile Char.isDigit

/-- A number of at least one digit, and the text after it. -/
def readNumber (width : Option Nat) (cs : List Char) : Except DateError (Nat × List Char) :=
  match leadingDigits width cs with
  | [] => .error (if cs.isEmpty then .premature else .badCharacter)
  | digits => .ok (Text.digitsValue digits, cs.drop digits.length)

/-- The text after a hyphen that has to come first. -/
def readHyphen : List Char → Except DateError (List Char)
  | [] => .error .premature
  | '-' :: rest => .ok rest
  | _ => .error .badCharacter

/-- A year has at most four digits unless a sign stands in front. A year beyond 32 bits is refused
at once, any other only after the whole text has been read. -/
def readYear (cs : List Char) : Except DateError (Int × List Char) := do
  let (year, rest) ← match Text.trimLeft cs with
    | '-' :: signed => do
      let (n, rest) ← readNumber none signed
      pure (-(n : Int), rest)
    | '+' :: signed => do
      let (n, rest) ← readNumber none signed
      pure ((n : Int), rest)
    | unsigned => do
      let (n, rest) ← readNumber (some 4) unsigned
      pure ((n : Int), rest)
  if -2147483648 ≤ year ∧ year < 2147483648 then pure (year, rest) else throw .outOfRange

/-- A number of one or two digits from 1 to `last`, possibly after blanks. -/
def readPart (last : Nat) (cs : List Char) : Except DateError (Nat × List Char) := do
  let (n, rest) ← readNumber (some 2) (Text.trimLeft cs)
  if 1 ≤ n ∧ n ≤ last then pure (n, rest) else throw .outOfRange

/-- The day denoted by a sequence of characters. The first fault from the left is reported; that no
such day exists is found last. -/
def ofChars? (cs : List Char) : Except DateError Date := do
  let (year, rest) ← readYear cs
  let rest ← readHyphen rest
  let (month, rest) ← readPart 12 rest
  let rest ← readHyphen rest
  let (day, rest) ← readPart 31 rest
  if rest ≠ [] then throw .trailing
  if h : IsDay year month day then pure ⟨year, month, day, h⟩ else throw .outOfRange

/-- The day denoted by a text. -/
def read? (s : String) : Except DateError Date :=
  ofChars? s.toList

/-! ## Writing -/

/-- The decimal digits of a number, filled on the left with zeros. -/
def zeroPadded (width n : Nat) : List Char :=
  let digits := Nat.toDigits 10 n
  List.replicate (width - digits.length) '0' ++ digits

/-- A year of four digits stands alone; any other carries a sign. -/
def yearChars (year : Int) : List Char :=
  if 0 ≤ year ∧ year ≤ 9999 then zeroPadded 4 year.toNat
  else (if year < 0 then '-' else '+') :: zeroPadded 4 year.natAbs

/-- The written form of a day, as characters. -/
def chars (d : Date) : List Char :=
  yearChars d.year ++ '-' :: (zeroPadded 2 d.month ++ '-' :: zeroPadded 2 d.day)

/-- The written form of a day. -/
def text (d : Date) : String :=
  String.ofList d.chars

end Date

end YangBinding.Calendar
