import YangBinding.Leaf.Scalar
import YangBinding.Settings.Value
import YangBinding.Text.Radix

/-!
# Settings in JSON5

JSON5 is JSON with the ease of a programming language: comments, names without quotes, strings
between single quotes, a comma behind the last item, and more forms of numbers.

## Main definitions

* `Json5.readValue`: the value at the head of a text
* `Json5.table?`: the table that a text denotes
-/

namespace YangBinding.Settings.Json5

/-! ## Between the tokens -/

/-- The characters that end a line. -/
def isLineEnd (c : Char) : Bool :=
  c = '\n' || c = '\r' || c = '\u2028' || c = '\u2029'

/-- The characters that may stand between tokens. -/
def isSpace (c : Char) : Bool :=
  (Text.isBlank c && c ≠ '\u0085') || c = '\uFEFF'

/-- The text behind the end of a comment. -/
def behindComment? : List Char → Option (List Char)
  | '*' :: '/' :: cs => some cs
  | _ :: cs => behindComment? cs
  | [] => none

/-- The text behind spaces and comments, as far as the fuel reaches. -/
def skipSpace : Nat → List Char → Option (List Char)
  | 0, _ => none
  | fuel + 1, cs =>
    match cs.dropWhile isSpace with
    | '/' :: '/' :: cs => skipSpace fuel (cs.dropWhile fun c => !isLineEnd c)
    | '/' :: '*' :: cs => (behindComment? cs).bind (skipSpace fuel)
    | cs => some cs

/-- The text from the next token on. -/
def nextToken (cs : List Char) : Option (List Char) := skipSpace (cs.length + 1) cs

/-! ## Strings -/

/-- The code unit that a run of hexadecimal digits gives, and the text behind it. -/
def codeUnit? (count : Nat) (cs : List Char) : Option (Nat × List Char) :=
  if count ≤ cs.length then
    (Text.numberOf? 16 (cs.take count)).map fun n => (n, cs.drop count)
  else none

/-- The character that one code unit gives, or a pair of surrogates. -/
def readUnicode (cs : List Char) : Option (Char × List Char) := do
  let (n, rest) ← codeUnit? 4 cs
  if n.isValidChar then pure (Char.ofNat n, rest)
  else if 0xDC00 ≤ n then none
  else match rest with
    | '\\' :: 'u' :: rest => do
      let (m, rest) ← codeUnit? 4 rest
      if 0xDC00 ≤ m ∧ m ≤ 0xDFFF then
        pure (Char.ofNat (0x10000 + (n - 0xD800) * 0x400 + (m - 0xDC00)), rest)
      else none
    | _ => none

/-- The characters that have a short escape. -/
def shortEscapes : List (Char × Char) :=
  [('b', '\x08'), ('f', '\x0c'), ('n', '\n'), ('r', '\r'), ('t', '\t'), ('v', '\x0b'), ('0', '\x00')]

/-- The characters that an escape stands for, and the text behind it. An escaped line end stands
for nothing, and a character without a meaning of its own for itself. -/
def readEscape : List Char → Option (List Char × List Char)
  | [] => none
  | '\r' :: '\n' :: cs => some ([], cs)
  | 'x' :: cs => (codeUnit? 2 cs).map fun p => ([Char.ofNat p.1], p.2)
  | 'u' :: cs => (readUnicode cs).map fun p => ([p.1], p.2)
  | c :: cs =>
    if isLineEnd c then some ([], cs)
    else match shortEscapes.lookup c with
      | some meant => some ([meant], cs)
      | none => if c.isDigit then none else some ([c], cs)

/-- The rest of a string up to its closing quote. -/
def readString (quote : Char) : Nat → List Char → Option (List Char × List Char)
  | 0, _ | _, [] => none
  | fuel + 1, c :: cs =>
    if c = quote then some ([], cs)
    else if c = '\\' then do
      let (meant, cs) ← readEscape cs
      let (text, rest) ← readString quote fuel cs
      pure (meant ++ text, rest)
    else if isLineEnd c then none
    else (readString quote fuel cs).map fun p => (c :: p.1, p.2)

/-! ## Names -/

/-- The characters that a name without quotes starts with. Beyond ASCII every character counts as a
letter that is neither blank nor a line end. -/
def isNameStart (c : Char) : Bool :=
  c.isAlpha || c = '$' || c = '_' || (0x80 ≤ c.toNat && !Text.isBlank c && c ≠ '\uFEFF')

/-- The rest of a name without quotes. -/
def readNameRest : Nat → List Char → Option (List Char × List Char)
  | 0, _ => none
  | fuel + 1, cs =>
    match cs with
    | '\\' :: 'u' :: cs => do
      let (c, cs) ← readUnicode cs
      let (text, rest) ← readNameRest fuel cs
      pure (c :: text, rest)
    | c :: cs =>
      if isNameStart c || c.isDigit then
        (readNameRest fuel cs).map fun p => (c :: p.1, p.2)
      else some ([], c :: cs)
    | [] => some ([], [])

/-- The name of a member, with or without quotes. -/
def readName : List Char → Option (List Char × List Char)
  | [] => none
  | c :: cs =>
    if c = '"' ∨ c = '\'' then readString c (cs.length + 1) cs
    else if isNameStart c || c = '\\' then readNameRest (cs.length + 2) (c :: cs)
    else none

/-! ## Numbers -/

/-- An exponent at the head of a text, and what follows. -/
def exponentRun (cs : List Char) : List Char × List Char :=
  match cs with
  | [] => ([], [])
  | e :: rest =>
    let sign := rest.take 1 |>.filter fun c => c = '+' || c = '-'
    let digits := (rest.drop sign.length).takeWhile Char.isDigit
    if (e = 'e' ∨ e = 'E') ∧ digits ≠ [] then
      (e :: (sign ++ digits), (rest.drop sign.length).dropWhile Char.isDigit)
    else ([], cs)

/-- The whole digits at the head of a text: a zero alone, or digits that start with no zero. -/
def wholeRun (cs : List Char) : List Char × List Char :=
  match cs with
  | '0' :: rest => (['0'], rest)
  | cs => (cs.takeWhile Char.isDigit, cs.dropWhile Char.isDigit)

/-- The decimal numeral without sign at the head of a text, and what follows. -/
def decimalRun? (cs : List Char) : Option (List Char × List Char) :=
  let (whole, rest) := wholeRun cs
  match rest with
  | '.' :: behind =>
    let part := behind.takeWhile Char.isDigit
    if whole = [] ∧ part = [] then none
    else
      let (exponent, rest) := exponentRun (behind.dropWhile Char.isDigit)
      some (whole ++ '.' :: (part ++ exponent), rest)
  | rest =>
    if whole = [] then none
    else some (whole ++ (exponentRun rest).1, (exponentRun rest).2)

/-- A hexadecimal digit. -/
def isHexDigit (c : Char) : Bool := (Text.digitOf? c).isSome

/-- The numeral without sign at the head of a text, and what follows. -/
def numeralRun? : List Char → Option (List Char × List Char)
  | 'I' :: 'n' :: 'f' :: 'i' :: 'n' :: 'i' :: 't' :: 'y' :: cs => some ("Infinity".toList, cs)
  | 'N' :: 'a' :: 'N' :: cs => some ("NaN".toList, cs)
  | '0' :: x :: cs =>
    let digits := cs.takeWhile isHexDigit
    if (x = 'x' ∨ x = 'X') ∧ digits ≠ [] then some ('0' :: x :: digits, cs.dropWhile isHexDigit)
    else decimalRun? ('0' :: x :: cs)
  | cs => decimalRun? cs

/-- The integer of a numeral without point and exponent: hexadecimal ones have no sign and up to 32
bits, decimal ones 64. -/
def integer? : List Char → Option Int
  | '0' :: x :: digits =>
    if x = 'x' ∨ x = 'X' then
      ((Text.numberOf? 16 digits).filter (· < 4294967296)).map Int.ofNat
    else none
  | cs => (Text.integer? true cs).filter fun n => decide (Scalar.FitsSigned .w64 n)

/-- The value of a numeral with its sign. -/
def numeral? (cs : List Char) : Option Value :=
  let isHexadecimal := cs.length > 2 && (cs.take 2 == ['0', 'x'] || cs.take 2 == ['0', 'X'])
  let hasExponent := cs.any fun c => c = 'e' || c = 'E'
  match Decimal.splitSign cs with
  | (_, 'I' :: _) | (_, 'N' :: _) => if cs.head? = some '+' then none else (Decimal.real? cs).map .real
  | _ =>
    if !cs.contains '.' && (isHexadecimal || !hasExponent) then (integer? cs).map .integer
    else ((Decimal.real? cs).filter fun x => !x.isInf).map .real

/-- The number at the head of a text. -/
def readNumber (cs : List Char) : Option (Value × List Char) := do
  let sign := cs.take 1 |>.filter fun c => c = '+' || c = '-'
  let (run, rest) ← numeralRun? (cs.drop sign.length)
  pure (← numeral? (sign ++ run), rest)

/-! ## Values -/

mutual

/-- The value at the head of a text. -/
def readValue : Nat → List Char → Option (Value × List Char)
  | 0, _ => none
  | fuel + 1, cs =>
    match cs with
    | 'n' :: 'u' :: 'l' :: 'l' :: cs => some (.absent, cs)
    | 't' :: 'r' :: 'u' :: 'e' :: cs => some (.boolean true, cs)
    | 'f' :: 'a' :: 'l' :: 's' :: 'e' :: cs => some (.boolean false, cs)
    | '[' :: cs => do
      let (items, rest) ← readItems fuel (← nextToken cs)
      pure (.array items, rest)
    | '\x7b' :: cs => do
      let (entries, rest) ← readMembers fuel [] (← nextToken cs)
      pure (.table entries, rest)
    | '"' :: cs => (readString '"' (cs.length + 1) cs).map fun p => (.text (String.ofList p.1), p.2)
    | '\'' :: cs =>
      (readString '\'' (cs.length + 1) cs).map fun p => (.text (String.ofList p.1), p.2)
    | cs => readNumber cs

/-- The items of an array from a token on, up to the closing bracket. -/
def readItems : Nat → List Char → Option (List Value × List Char)
  | 0, _ => none
  | fuel + 1, cs =>
    match cs with
    | ']' :: rest => some ([], rest)
    | cs => do
      let (item, rest) ← readValue fuel cs
      match ← nextToken rest with
      | ']' :: rest => pure ([item], rest)
      | ',' :: rest => (readItems fuel (← nextToken rest)).map fun p => (item :: p.1, p.2)
      | _ => none

/-- The members of an object from a token on, up to the closing brace, added to those before
them. -/
def readMembers : Nat → Table → List Char → Option (Table × List Char)
  | 0, _, _ => none
  | fuel + 1, entries, cs =>
    match cs with
    | '\x7d' :: rest => some (entries, rest)
    | cs => do
      let (name, rest) ← readName cs
      let ':' :: rest ← nextToken rest | none
      let (value, rest) ← readValue fuel (← nextToken rest)
      let entries := Table.set entries (String.ofList name) value
      match ← nextToken rest with
      | '\x7d' :: rest => pure (entries, rest)
      | ',' :: rest => readMembers fuel entries (← nextToken rest)
      | _ => none

end

/-- The table that a text denotes. -/
def table? (s : String) : Option Table := do
  let cs ← nextToken s.toList
  let (value, rest) ← readValue (2 * cs.length + 2) cs
  let [] ← nextToken rest | none
  value.table?

end YangBinding.Settings.Json5
