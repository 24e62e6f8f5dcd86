import YangBinding.Text.Numeral

/-!
# Decimal numerals

A real number in text is a run of digits with a point somewhere in it, and perhaps a power of ten
behind it. It denotes the double that is nearest to it.

## Main definitions

* `Scientific`: a decimal numeral
* `Scientific.ofChars?`: the numeral that a text spells
* `Scientific.toFloat`: the nearest double
* `real?`: the double that a text denotes, infinities and not-a-number included
-/

namespace YangBinding.Decimal

/-- A decimal numeral: a run of digits, read as one number, times a power of ten. -/
structure Scientific where
  negative : Bool := false
  digits : List Char
  exponent : Int
  deriving DecidableEq, Repr

/-- A text without its sign, and whether the sign is a minus. -/
def splitSign : List Char → Bool × List Char
  | '-' :: cs => (true, cs)
  | '+' :: cs => (false, cs)
  | cs => (false, cs)

namespace Scientific

/-- The power of ten that a text gives: none is zero, any other stands behind the letter `e`. -/
def exponent? : List Char → Option Int
  | [] => some 0
  | c :: cs => if c = 'e' ∨ c = 'E' then Text.integer? true cs else none

/-- The digits behind a point, and the text after them. -/
def fraction : List Char → List Char × List Char
  | '.' :: cs => (cs.takeWhile Char.isDigit, cs.dropWhile Char.isDigit)
  | cs => ([], cs)

/-- The numeral that a text without sign spells. There must be a digit before or behind the
point. -/
def unsigned? (cs : List Char) : Option Scientific := do
  let whole := cs.takeWhile Char.isDigit
  let (part, rest) := fraction (cs.dropWhile Char.isDigit)
  if whole = [] ∧ part = [] then none
  let exponent ← exponent? rest
  pure { digits := whole ++ part, exponent := exponent - part.length }

/-- The numeral that a text spells. -/
def ofChars? (cs : List Char) : Option Scientific :=
  (unsigned? (splitSign cs).2).map fun s => { s with negative := (splitSign cs).1 }

/-- The positive infinity. -/
def infinity : Float := Float.ofBits 0x7FF0000000000000

/-- The double without sign. Where the leading digit alone tells that the number is beyond the
range of doubles, the power of ten is not computed. -/
def magnitude (s : Scientific) : Float :=
  let n := Text.digitsValue s.digits
  let place := s.exponent + (Nat.toDigits 10 n).length
  if n = 0 ∨ place < -330 then Float.ofBits 0
  else if 310 < place then infinity
  else Float.ofScientific n (decide (s.exponent < 0)) s.exponent.natAbs

/-- The nearest double. -/
def toFloat (s : Scientific) : Float :=
  if s.negative then -s.magnitude else s.magnitude

end Scientific

/-- The doubles that have a name, letters of either case. -/
def named? (cs : List Char) : Option Float :=
  let name := String.ofList (cs.map Char.toLower)
  if name = "nan" then some (Float.ofBits 0x7FF8000000000000)
  else if name = "inf" ∨ name = "infinity" then some Scientific.infinity
  else none

/-- The double that a text denotes. -/
def real? (cs : List Char) : Option Float :=
  match named? (splitSign cs).2 with
  | some x => some (if (splitSign cs).1 then -x else x)
  | none => (Scientific.ofChars? cs).map Scientific.toFloat

end YangBinding.Decimal
