/-!
# Decimal numerals

Reading of decimal integers from text: a non-empty run of ASCII digits, with any number of leading
zeros, after at most one sign. A plus sign is always allowed; a minus sign only where negative
numbers are, and there `-0` is zero like any other spelling of it.

Main statements: `natural?_eq_some_iff` and `integer?_eq_some_iff` give the exact texts that denote
a number.
-/

namespace YangBinding.Text

/-- The number that a digit stands for. -/
def digitValue (c : Char) : Nat :=
  c.toNat - '0'.toNat

/-- The number that a run of digits stands for, most significant digit first. -/
def digitsValue (digits : List Char) : Nat :=
  digits.foldl (fun value c => 10 * value + digitValue c) 0

/-- A text of at least one ASCII digit, and nothing else, denotes a natural number. -/
def natural? (cs : List Char) : Option Nat :=
  if cs ≠ [] ∧ cs.all Char.isDigit then some (digitsValue cs) else none

/-- The integer denoted by a text. `signed` tells whether a minus sign may stand in front. -/
def integer? (signed : Bool) : List Char → Option Int
  | '+' :: digits => (natural? digits).map Int.ofNat
  | '-' :: digits => if signed then (natural? digits).map fun n : Nat => -(n : Int) else none
  | digits => (natural? digits).map Int.ofNat

/-- Exactly the non-empty runs of ASCII digits denote a natural number. -/
theorem natural?_eq_some_iff {cs : List Char} {n : Nat} :
    natural? cs = some n ↔ cs ≠ [] ∧ (∀ c ∈ cs, c.isDigit = true) ∧ digitsValue cs = n := by
  simp [natural?, and_assoc]

theorem natural?_of_head {c : Char} (h : c.isDigit = false) (cs : List Char) :
    natural? (c :: cs) = none := by
  simp [natural?, h]

/-- Exactly the digit runs, signed by `+` or (where allowed) by `-`, denote an integer. -/
theorem integer?_eq_some_iff {signed : Bool} {cs : List Char} {n : Int} :
    integer? signed cs = some n ↔
      (∃ m : Nat, (natural? cs = some m ∨ ∃ ds, cs = '+' :: ds ∧ natural? ds = some m) ∧
          (m : Int) = n) ∨
        (signed = true ∧ ∃ m : Nat, ∃ ds, cs = '-' :: ds ∧ natural? ds = some m ∧
          -(m : Int) = n) := by
  unfold integer?
  split
  · next ds => simp [natural?_of_head (show '+'.isDigit = false by decide) ds]
  · next ds =>
    cases signed <;> simp [natural?_of_head (show '-'.isDigit = false by decide) ds, and_comm]
  · next h₁ h₂ =>
    have plus : ∀ ds, cs ≠ '+' :: ds := fun ds e => h₁ ds e
    have minus : ∀ ds, cs ≠ '-' :: ds := fun ds e => h₂ ds e
    simp [plus, minus]

end YangBinding.Text
