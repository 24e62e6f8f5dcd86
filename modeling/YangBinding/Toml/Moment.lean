import YangBinding.Calendar.Date

/-!
# Dates and times in TOML

A moment is a day, a time of day, or a day with a time and perhaps an offset from universal time.
Its normal text has a capital `T` between day and time and no zeros at the end of a fraction of a
second, of which nine digits count.

Main definition: `moment?`, the normal text of the moment that a text denotes.
-/

namespace YangBinding.Toml

/-- A number of a fixed count of digits and of at most a given value, as text, and what follows. -/
def field? (count last : Nat) (cs : List Char) : Option (List Char × List Char) :=
  let digits := cs.take count
  if digits.length = count ∧ digits.all Char.isDigit ∧ Text.digitsValue digits ≤ last then
    some (digits, cs.drop count)
  else none

/-- The text behind a character that has to come first. -/
def after? (c : Char) : List Char → Option (List Char)
  | head :: rest => if head = c then some rest else none
  | [] => none

/-- A day that exists. -/
def day? (cs : List Char) : Option (List Char × List Char) := do
  let (year, cs) ← field? 4 9999 cs
  let (month, cs) ← field? 2 12 (← after? '-' cs)
  let (day, cs) ← field? 2 31 (← after? '-' cs)
  let days := Calendar.daysInMonth (Text.digitsValue year) (Text.digitsValue month)
  if 1 ≤ Text.digitsValue day ∧ Text.digitsValue day ≤ days then
    pure (year ++ '-' :: month ++ '-' :: day, cs)
  else none

/-- The digits of a fraction of a second as far as they count, with the point before them. -/
def normalFraction (digits : List Char) : List Char :=
  let counted := ((digits.take 9).reverse.dropWhile (· == '0')).reverse
  if counted.isEmpty then [] else '.' :: counted

/-- A fraction of a second, if there is one. -/
def fraction? : List Char → Option (List Char × List Char)
  | '.' :: cs =>
    let digits := cs.takeWhile Char.isDigit
    if digits.isEmpty then none else some (normalFraction digits, cs.dropWhile Char.isDigit)
  | cs => some ([], cs)

/-- A time of day. The sixtieth second is a leap second. -/
def time? (cs : List Char) : Option (List Char × List Char) := do
  let (hour, cs) ← field? 2 23 cs
  let (minute, cs) ← field? 2 59 (← after? ':' cs)
  let (second, cs) ← field? 2 60 (← after? ':' cs)
  let (fraction, cs) ← fraction? cs
  pure (hour ++ ':' :: minute ++ ':' :: second ++ fraction, cs)

/-- An offset from universal time, or none, up to the end of the text. A zero offset is written
with a plus. -/
def offset? : List Char → Option (List Char)
  | [] => some []
  | ['Z'] | ['z'] => some ['Z']
  | sign :: cs => do
    if sign ≠ '+' ∧ sign ≠ '-' then none
    let (hour, cs) ← field? 2 23 cs
    let (minute, cs) ← field? 2 59 (← after? ':' cs)
    let zero := Text.digitsValue hour = 0 ∧ Text.digitsValue minute = 0
    if cs.isEmpty then pure ((if zero then '+' else sign) :: hour ++ ':' :: minute) else none

/-- The normal text of the moment that a text denotes. -/
def moment? (cs : List Char) : Option (List Char) :=
  match day? cs with
  | some (day, []) => some day
  | some (day, delimiter :: cs) => do
    if delimiter ≠ 'T' ∧ delimiter ≠ 't' ∧ delimiter ≠ ' ' then none
    let (time, cs) ← time? cs
    pure (day ++ 'T' :: time ++ (← offset? cs))
  | none =>
    match time? cs with
    | some (time, []) => some time
    | _ => none

end YangBinding.Toml
