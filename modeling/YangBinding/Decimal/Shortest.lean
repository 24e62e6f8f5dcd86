/-!
# The shortest text of a double

A double is written with the fewest digits that denote it and no other double. Of several such
texts the nearest to the double is taken, and of two equally near ones the greater. The digits are
found by exact arithmetic: for every count of digits there is a grid of decimals, and only the two
neighbours of the double on it have to be looked at.

## Main definitions

* `Grid`: the decimals with a given place of the last digit, seen from a double
* `shortest`: the digits and the power of ten of the shortest text
* `text`: the text, always positional
-/

namespace YangBinding.Decimal

/-- The decimals whose last digit stands at a given place, measured against the interval of numbers
that are rounded to a double. A grid point of number `d` is compared with a bound `b` of the
interval as `d * step` with `b * unit`. -/
structure Grid where
  step : Nat
  unit : Nat
  lower : Nat
  value : Nat
  upper : Nat
  /-- The bounds belong to the interval. -/
  closed : Bool

namespace Grid

/-- The grid point is rounded to the double. -/
def holds (g : Grid) (d : Nat) : Bool :=
  if g.closed then g.lower * g.unit ≤ d * g.step && d * g.step ≤ g.upper * g.unit
  else g.lower * g.unit < d * g.step && d * g.step < g.upper * g.unit

/-- The grid point next to the double, of the two around it that are rounded to it; a tie goes
up. -/
def hit? (g : Grid) : Option Nat :=
  let d := g.value * g.unit / g.step
  match g.holds d, g.holds (d + 1) with
  | true, true => some (if 2 * (g.value * g.unit) < (2 * d + 1) * g.step then d else d + 1)
  | true, false => some d
  | false, true => some (d + 1)
  | false, false => none

/-- What is selected denotes the double. -/
theorem holds_of_hit? {g : Grid} {d : Nat} (h : g.hit? = some d) : g.holds d = true := by
  simp only [hit?] at h
  split at h
  · cases h
    split <;> assumption
  · cases h
    assumption
  · cases h
    assumption
  · cases h

end Grid

/-- The least significand of doubles that have a full one, two to the power of 52. -/
def leastFull : Nat := 4503599627370496

/-- The fields of the bits of a double: its significand and the power of two of its last place. -/
def parts (bits : UInt64) : Nat × Int :=
  let fraction : Nat := bits.toNat % leastFull
  let exponent : Nat := bits.toNat / leastFull % 2048
  if exponent = 0 then (fraction, -1074) else (leastFull + fraction, (exponent : Int) - 1075)

/-- The sign bit of a double is set. -/
def isNegative (bits : UInt64) : Bool :=
  2048 ≤ bits.toNat / leastFull

/-- The grid of decimals at a power of ten. Bounds are counted in quarters of the last place, since
the next smaller double is only half as far away at a power of two. -/
def gridAt (significand : Nat) (power : Int) (place : Int) : Grid :=
  let quarter := power - 2
  { step := Nat.pow 10 place.toNat * Nat.pow 2 (-quarter).toNat
    unit := Nat.pow 2 quarter.toNat * Nat.pow 10 (-place).toNat
    lower := 4 * significand - (if significand = leastFull ∧ power ≠ -1074 then 1 else 2)
    value := 4 * significand
    upper := 4 * significand + 2
    closed := significand % 2 = 0 }

/-- The place of the leading digit of a positive double. -/
def leadingPlace (significand : Nat) (power : Int) : Int :=
  let scaled := significand * Nat.pow 2 power.toNat * Nat.pow 10 400 / Nat.pow 2 (-power).toNat
  (Nat.toDigits 10 scaled).length - 401

/-- A last digit zero is not written; there is one when the digit before it was carried up. -/
def withoutZero (digits : Nat) (place : Int) : Nat × Int :=
  if digits % 10 = 0 then (digits / 10, place + 1) else (digits, place)

/-- The digits of a positive double as one number, and the power of ten of the last one. Seventeen
digits are always enough. -/
def shortest (significand : Nat) (power : Int) : Nat × Int :=
  let leading := leadingPlace significand power
  let hits := (List.range 17).findSome? fun n : Nat =>
    let place := leading - n
    ((gridAt significand power place).hit?).map fun d => withoutZero d place
  hits.getD (0, 0)

/-- A decimal in positional notation. -/
def positional (digits : Nat) (place : Int) : List Char :=
  let shown := Nat.toDigits 10 digits
  if 0 ≤ place then shown ++ List.replicate place.toNat '0'
  else
    let decimals := (-place).toNat
    let filled := List.replicate (decimals + 1 - shown.length) '0' ++ shown
    filled.take (filled.length - decimals) ++ '.' :: filled.drop (filled.length - decimals)

/-- The text of a double. -/
def text (x : Float) : String :=
  if x.isNaN then "NaN"
  else
    let bits := x.toBits
    let sign := if isNegative bits then "-" else ""
    let (significand, power) := parts bits
    if x.isInf then sign ++ "inf"
    else if significand = 0 then sign ++ "0"
    else
      let (digits, place) := shortest significand power
      sign ++ String.ofList (positional digits place)

end YangBinding.Decimal
