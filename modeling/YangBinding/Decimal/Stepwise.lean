import YangBinding.Decimal.Scientific

/-!
# Real numbers in steps of double arithmetic

A numeral can be turned into a double with a few operations on doubles: its leading digits, as many
as fit 64 bits, are taken as a whole number, and that is multiplied or divided by a power of ten.
Each step rounds, so the result may miss the nearest double by a little; in exchange there is no
arithmetic on long numbers.

## Main definitions

* `Leading`: the leading digits of a numeral
* `scaled?`: a number times a power of ten, in double arithmetic
* `stepwise?`: the double for a numeral
-/

namespace YangBinding.Decimal

/-- The leading digits of a numeral as one number, and the power of ten that belongs to it. -/
structure Leading where
  number : Nat := 0
  exponent : Int := 0
  /-- A digit did not fit. -/
  full : Bool := false
  deriving DecidableEq, Repr

namespace Leading

/-- A number that fits 64 bits. -/
def fits (n : Nat) : Bool := decide (n < 18446744073709551616)

/-- One more digit before the point. From the first that does not fit on, digits only count as
places. -/
def addWhole (s : Leading) (c : Char) : Leading :=
  let n := 10 * s.number + Text.digitValue c
  if s.full || !fits n then { s with exponent := s.exponent + 1, full := true }
  else { s with number := n }

/-- One more digit behind the point. From the first that does not fit on, digits do not count. -/
def addPart (s : Leading) (c : Char) : Leading :=
  let n := 10 * s.number + Text.digitValue c
  if s.full || !fits n then { s with full := true }
  else { s with number := n, exponent := s.exponent - 1 }

/-- The leading digits of a numeral whose digits before and behind the point are given. Whether a
digit fits is asked anew behind the point. -/
def ofDigits (whole part : List Char) : Leading :=
  part.foldl addPart { whole.foldl addWhole {} with full := false }

end Leading

/-- A power of ten as a double. -/
def powerOfTen (n : Nat) : Float := Float.ofScientific 1 false n

/-- A number times a power of ten, in steps that double arithmetic can do. None if the result is
beyond the range of doubles. Four steps take every number of 64 bits down to zero. -/
def scaled? : Nat → Float → Int → Option Float
  | 0, x, _ => some x
  | steps + 1, x, exponent =>
    if exponent.natAbs ≤ 308 then
      if 0 ≤ exponent then some (x * powerOfTen exponent.natAbs) |>.filter (!·.isInf)
      else some (x / powerOfTen exponent.natAbs)
    else if x == 0 then some x
    else if 0 ≤ exponent then none
    else scaled? steps (x / powerOfTen 308) (exponent + 308)

/-- The double for a numeral without sign. -/
def stepwiseMagnitude? (cs : List Char) : Option Float := do
  let (part, rest) := Scientific.fraction (cs.dropWhile Char.isDigit)
  let leading := Leading.ofDigits (cs.takeWhile Char.isDigit) part
  let exponent ← Scientific.exponent? rest
  scaled? 8 (UInt64.ofNat leading.number).toFloat (leading.exponent + exponent)

/-- The double for a numeral. -/
def stepwise? (cs : List Char) : Option Float :=
  let (negative, cs) := splitSign cs
  (stepwiseMagnitude? cs).map fun x => if negative then -x else x

end YangBinding.Decimal
