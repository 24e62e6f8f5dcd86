/-!
# Numerals in other bases

Digits beyond nine are letters of either case when they are read, and lower-case letters when they
are written.

## Main definitions

* `digitOf?`, `numberOf?`: the value of a digit, and of a run of digits in a base
* `hexDigits`, `hexByte`: a number, and a byte, in base sixteen
-/

namespace YangBinding.Text

/-- The value of a hexadecimal digit of either case. -/
def digitOf? (c : Char) : Option Nat :=
  if c.isDigit then some (c.toNat - '0'.toNat)
  else if 'a' ≤ c ∧ c ≤ 'f' then some (c.toNat - 'a'.toNat + 10)
  else if 'A' ≤ c ∧ c ≤ 'F' then some (c.toNat - 'A'.toNat + 10)
  else none

/-- The number that a run of at least one digit denotes in a base of at most sixteen. -/
def numberOf? (base : Nat) (digits : List Char) : Option Nat := do
  let values ← digits.mapM digitOf?
  if values ≠ [] ∧ values.all fun d => d < base then
    some (values.foldl (fun n d => base * n + d) 0)
  else none

/-- The lower-case hexadecimal digits of a number, without leading zeros. -/
def hexDigits (n : Nat) : List Char :=
  Nat.toDigits 16 n

/-- Two lower-case hexadecimal digits of a byte. -/
def hexByte (b : UInt8) : List Char :=
  [Nat.digitChar (b.toNat / 16), Nat.digitChar (b.toNat % 16)]

end YangBinding.Text
