import YangBinding.Decimal.Scientific
import YangBinding.Leaf.Scalar
import YangBinding.Text.Radix
import YangBinding.Toml.Moment
import YangBinding.Toml.Value

/-!
# Numbers, words and moments in TOML

Every scalar that is no string is a run of letters, digits and a few signs; only a day and a time
may have a space between them. The run as a whole has to be one of the forms. Digits may be grouped
by single underscores, decimal numbers start with no zero, and integers have 64 bits.

Main definition: `readScalar`, the scalar at the head of a text.
-/

namespace YangBinding.Toml

/-- The characters of scalars. -/
def isScalarChar (c : Char) : Bool :=
  c.isAlphanum || c = '+' || c = '-' || c = '_' || c = '.' || c = ':'

/-! ## Integers -/

/-- Digits without the underscores between them. An underscore has a digit on either side. -/
def ungrouped? (isDigit : Char → Bool) : List Char → Option (List Char)
  | [] => none
  | [c] => if isDigit c then some [c] else none
  | c :: '_' :: cs => if isDigit c then (ungrouped? isDigit cs).map (c :: ·) else none
  | c :: cs => if isDigit c then (ungrouped? isDigit cs).map (c :: ·) else none

/-- Decimal digits of a whole number. -/
def whole? (cs : List Char) : Option (List Char) := do
  let digits ← ungrouped? Char.isDigit cs
  if digits.head? = some '0' ∧ digits ≠ ['0'] then none
  pure digits

/-- A number in a base other than ten. -/
def based? (base : Nat) (cs : List Char) : Option Int := do
  let n ← Text.numberOf? base (← ungrouped? (fun c => (Text.digitOf? c).any (· < base)) cs)
  pure n

/-- The integer that a text denotes. -/
def integer? (cs : List Char) : Option Int := do
  let n ← match cs with
    | '0' :: 'x' :: cs => based? 16 cs
    | '0' :: 'o' :: cs => based? 8 cs
    | '0' :: 'b' :: cs => based? 2 cs
    | cs =>
      let (negative, cs) := Decimal.splitSign cs
      (whole? cs).map fun digits =>
        let n : Int := Text.digitsValue digits
        if negative then -n else n
  if Scalar.FitsSigned .w64 n then some n else none

/-! ## Reals -/

/-- The digits behind the exponent sign of a real. -/
def exponentDigits? : List Char → Option (List Char)
  | [] => some []
  | c :: cs =>
    if c = 'e' ∨ c = 'E' then ungrouped? Char.isDigit (Decimal.splitSign cs).2 else none

/-- A text without sign has the form of a real: a whole number, then a fraction or an exponent or
both. -/
def isRealForm (cs : List Char) : Bool :=
  let part := fun c : Char => c.isDigit || c = '_'
  let behind := cs.dropWhile part
  (whole? (cs.takeWhile part)).isSome &&
    match behind with
    | '.' :: behind =>
      (ungrouped? Char.isDigit (behind.takeWhile part)).isSome &&
        (exponentDigits? (behind.dropWhile part)).isSome
    | [] => false
    | behind => (exponentDigits? behind).isSome

/-- The double that a text denotes. A positive number beyond the range of doubles is none. -/
def real? (cs : List Char) : Option Float :=
  let (_, body) := Decimal.splitSign cs
  if body = ['i', 'n', 'f'] ∨ body = ['n', 'a', 'n'] then Decimal.real? cs
  else if isRealForm body then
    ((Decimal.real? (cs.filter (· ≠ '_'))).filter fun x => !(x.isInf && 0 < x))
  else none

/-! ## Scalars -/

/-- The scalar that a text denotes. -/
def scalar? (cs : List Char) : Option Value :=
  if cs = ['t', 'r', 'u', 'e'] then some (.boolean true)
  else if cs = ['f', 'a', 'l', 's', 'e'] then some (.boolean false)
  else (moment? cs).map (fun text => .moment (String.ofList text)) <|>
    (integer? cs).map .integer <|> (real? cs).map .real

/-- The run of scalar characters at the head of a text, and what follows. A day goes on behind a
space if a digit stands there. -/
def scalarRun (cs : List Char) : List Char × List Char :=
  let run := cs.takeWhile isScalarChar
  let rest := cs.dropWhile isScalarChar
  match rest with
  | ' ' :: c :: more =>
    if run.length = 10 ∧ (day? run).isSome ∧ c.isDigit then
      (run ++ ' ' :: (c :: more).takeWhile isScalarChar, (c :: more).dropWhile isScalarChar)
    else (run, rest)
  | _ => (run, rest)

/-- The scalar at the head of a text. -/
def readScalar (cs : List Char) : Option (Value × List Char) :=
  (scalar? (scalarRun cs).1).map fun value => (value, (scalarRun cs).2)

end YangBinding.Toml
