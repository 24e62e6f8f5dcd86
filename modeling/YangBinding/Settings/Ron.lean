import YangBinding.Leaf.Scalar
import YangBinding.Settings.Value
import YangBinding.Text.Radix

/-!
# Settings in RON

RON is a notation for records: the fields of a record stand between parentheses, perhaps behind its
name. Tuples, lists, maps and optional values have notations too. Names of records do not matter
here, and a record without fields says nothing.

## Main definitions

* `Ron.readNumber`, `Ron.readText`, `Ron.readValue`: what is at the head of a text
* `Ron.table?`: the table that a text denotes
-/

namespace YangBinding.Settings.Ron

/-! ## Between the tokens -/

/-- The characters that may stand between tokens. -/
def isSpace (c : Char) : Bool := c = ' ' || c = '\t' || c = '\n' || c = '\r'

/-- The text behind the end of a comment. The number tells how many more are open around it. -/
def behindComment? : Nat → List Char → Option (List Char)
  | 0, '*' :: '/' :: cs => some cs
  | around + 1, '*' :: '/' :: cs => behindComment? around cs
  | around, '/' :: '*' :: cs => behindComment? (around + 1) cs
  | around, _ :: cs => behindComment? around cs
  | _, [] => none

/-- The text behind spaces and comments, as far as the fuel reaches. -/
def skipSpace : Nat → List Char → Option (List Char)
  | 0, _ => none
  | fuel + 1, cs =>
    match cs.dropWhile isSpace with
    | '/' :: '/' :: cs => skipSpace fuel (cs.dropWhile (· ≠ '\n'))
    | '/' :: '*' :: cs => (behindComment? 0 cs).bind (skipSpace fuel)
    | '/' :: _ => none
    | cs => some cs

/-- The text from the next token on. -/
def nextToken (cs : List Char) : Option (List Char) := skipSpace (cs.length + 1) cs

/-- The text from the next token on, behind a comma if there is one. -/
def behindComma (cs : List Char) : Option (List Char) := do
  match ← nextToken cs with
  | ',' :: rest => nextToken rest
  | rest => pure rest

/-! ## Names -/

/-- The characters of names. -/
def isNameChar (c : Char) : Bool := c.isAlphanum || c = '_'

/-- The characters of raw names. -/
def isRawChar (c : Char) : Bool := isNameChar c || c = '.' || c = '+' || c = '-'

/-- The name at the head of a text. A raw name bears a mark; where a name without it is followed by
a character that only raw names have, there is no name. -/
def readName (cs : List Char) : Option (List Char × List Char) :=
  match cs with
  | 'r' :: '#' :: cs =>
    let name := cs.takeWhile isRawChar
    if name.isEmpty then none else some (name, cs.dropWhile isRawChar)
  | cs =>
    let name := cs.takeWhile isNameChar
    let rest := cs.dropWhile isNameChar
    if (name.head?.any fun c => c.isAlpha || c = '_') && !rest.head?.any isRawChar &&
        !(name == ['r'] && rest.head? == some '"') then
      some (name, rest)
    else none

/-- The text behind a word that stands on its own. -/
def behindWord? (word : String) (cs : List Char) : Option (List Char) :=
  let rest := cs.drop word.length
  if word.toList.isPrefixOf cs && !rest.head?.any isNameChar then some rest else none

/-! ## Numbers -/

/-- The characters of integers. -/
def isIntegerChar (c : Char) : Bool := (Text.digitOf? c).isSome || c = '_'

/-- The characters of reals. -/
def isRealChar (c : Char) : Bool :=
  c.isDigit || c = 'e' || c = 'E' || c = '.' || c = '+' || c = '-' || c = '_'

/-- The base of an integer, and its digits. -/
def baseOf : List Char → Nat × List Char
  | '0' :: 'x' :: cs => (16, cs)
  | '0' :: 'o' :: cs => (8, cs)
  | '0' :: 'b' :: cs => (2, cs)
  | cs => (10, cs)

/-- The integer without sign at the head of a text. Underscores may stand behind its first digit. -/
def readNatural (cs : List Char) : Option (Nat × List Char) :=
  let (base, cs) := baseOf cs
  let digits := cs.takeWhile isIntegerChar
  if digits.head? = some '_' then none
  else (Text.numberOf? base (digits.filter (· ≠ '_'))).map fun n => (n, cs.dropWhile isIntegerChar)

/-- The integer at the head of a text. With a sign it has 64 bits, sign included. -/
def readInteger : List Char → Option (Value × List Char)
  | '-' :: cs => readSigned (-1) cs
  | '+' :: cs => readSigned 1 cs
  | cs => (readNatural cs).bind fun (n, rest) =>
    if n < 18446744073709551616 then some (.ofInteger n, rest) else none
where
  /-- The integer behind a sign. -/
  readSigned (sign : Int) (cs : List Char) : Option (Value × List Char) :=
    (readNatural cs).bind fun (n, rest) =>
      if Scalar.FitsSigned .w64 (sign * n) then some (.integer (sign * n), rest) else none

/-- The real at the head of a text. -/
def readReal (cs : List Char) : Option (Value × List Char) :=
  (Decimal.real? (cs.takeWhile isRealChar)).map fun x => (.real x, cs.dropWhile isRealChar)

/-- The number at the head of a text. What does not read as an integer may still be a real. -/
def readNumber (cs : List Char) : Option (Value × List Char) :=
  let body := if cs.head? = some '+' ∨ cs.head? = some '-' then cs.drop 1 else cs
  if (body.takeWhile isIntegerChar).length < (body.takeWhile isRealChar).length then readReal cs
  else readInteger cs <|> readReal cs

/-! ## Texts -/

/-- The characters that have a short escape. -/
def shortEscapes : List (Char × Char) :=
  [('\'', '\''), ('"', '"'), ('\\', '\\'), ('n', '\n'), ('r', '\r'), ('t', '\t'), ('0', '\x00')]

/-- The character that an escape stands for, and the text behind it. -/
def readEscape : List Char → Option (Char × List Char)
  | 'x' :: cs =>
    if cs.length < 2 then none
    else (Text.numberOf? 16 (cs.take 2)).map fun n => (Char.ofNat n, cs.drop 2)
  | 'u' :: '\x7b' :: cs => do
    let digits := cs.takeWhile (· ≠ '\x7d')
    let n ← Text.numberOf? 16 digits
    if digits.length ≤ 6 ∧ n.isValidChar ∧ digits.length < cs.length then
      pure (Char.ofNat n, cs.drop (digits.length + 1))
    else none
  | c :: cs => (shortEscapes.lookup c).map fun meant => (meant, cs)
  | [] => none

/-- The rest of a string up to its closing quote. -/
def readString : Nat → List Char → Option (List Char × List Char)
  | 0, _ | _, [] => none
  | fuel + 1, c :: cs =>
    if c = '"' then some ([], cs)
    else do
      let (meant, cs) ← if c = '\\' then readEscape cs else some (c, cs)
      let (text, rest) ← readString fuel cs
      pure (meant :: text, rest)

/-- The rest of a raw string, which ends with a quote and as many marks as it starts with. -/
def readRaw (marks : List Char) : List Char → Option (List Char × List Char)
  | [] => none
  | c :: cs =>
    if c = '"' ∧ marks.isPrefixOf cs then some ([], cs.drop marks.length)
    else (readRaw marks cs).map fun p => (c :: p.1, p.2)

/-- The rest of a character up to its closing quote. -/
def readChar (cs : List Char) : Option (List Char × List Char) := do
  let (c, rest) ← match cs with
    | '\\' :: cs => readEscape cs
    | '\'' :: _ | [] => none
    | c :: cs => some (c, cs)
  match rest with
  | '\'' :: rest => pure ([c], rest)
  | _ => none

/-- The string or the character at the head of a text. -/
def readText : List Char → Option (String × List Char)
  | '"' :: cs => (readString (cs.length + 1) cs).map fun p => (String.ofList p.1, p.2)
  | '\'' :: cs => (readChar cs).map fun p => (String.ofList p.1, p.2)
  | 'r' :: cs =>
    let marks := cs.takeWhile (· = '#')
    match cs.dropWhile (· = '#') with
    | '"' :: cs => (readRaw marks cs).map fun p => (String.ofList p.1, p.2)
    | _ => none
  | _ => none

/-! ## Values -/

/-- The words that are values. -/
def words : List (String × Value) :=
  [("true", .boolean true), ("false", .boolean false), ("None", .absent),
    ("inf", .real Decimal.Scientific.infinity), ("-inf", .real (-Decimal.Scientific.infinity)),
    ("NaN", .real (Float.ofBits 0x7FF8000000000000))]

/-- The value that a word at the head of a text is, and the text behind it. -/
def readWord? (cs : List Char) : Option (Value × List Char) :=
  words.findSome? fun (word, value) => (behindWord? word cs).map fun rest => (value, rest)

/-- A name and a colon are at the head of a text. -/
def startsField (cs : List Char) : Bool :=
  ((readName cs).bind fun p => nextToken p.2).any fun rest => rest.head? == some ':'

/-- How deep values may be nested, where a collection and an item in it count apart. -/
def levels : Nat := 128

/-- One level deeper, if there is room for it. -/
def deeper? : Nat → Option Nat
  | 0 => none
  | room + 1 => some room

mutual

/-- The value at the head of a text, with room for some levels in it. -/
def readValue : Nat → Nat → List Char → Option (Value × List Char)
  | 0, _, _ => none
  | fuel + 1, room, cs =>
    match readWord? cs, behindWord? "Some" cs, readName cs with
    | some p, _, _ => some p
    | none, some rest, _ => do
      let '(' :: rest ← nextToken rest | none
      let (value, rest) ← readValue fuel (← deeper? room) (← nextToken rest)
      let ')' :: rest ← behindComma rest | none
      pure (value, rest)
    | none, none, some (_, rest) => do
      match ← nextToken rest with
      | '(' :: rest => readRecord fuel room (← nextToken rest)
      | rest => pure (.absent, rest)
    | none, none, none =>
      match cs with
      | '(' :: ')' :: rest => some (.absent, rest)
      | '(' :: rest => (nextToken rest).bind (readRecord fuel room)
      | '[' :: rest => do
        let (items, rest) ← readItems ']' fuel (← deeper? room) (← nextToken rest)
        pure (.array items, rest)
      | '\x7b' :: rest => do
        let (entries, rest) ← readEntries '\x7d' readText fuel (← deeper? room) [] (← nextToken rest)
        pure (.table entries, rest)
      | c :: _ =>
        if c.isDigit || c = '+' || c = '-' then readNumber cs
        else if c = '.' then readReal cs
        else (readText cs).map fun p => (.text p.1, p.2)
      | [] => none

/-- The record whose opening parenthesis has been read: a table if its fields have names, and an
array otherwise. -/
def readRecord : Nat → Nat → List Char → Option (Value × List Char)
  | 0, _, _ => none
  | fuel + 1, room, cs => do
    let room ← deeper? room
    if startsField cs then
      let readKey (cs : List Char) := (readName cs).map fun p => (String.ofList p.1, p.2)
      let (entries, rest) ← readEntries ')' readKey fuel room [] cs
      pure (.table entries, rest)
    else
      let (items, rest) ← readItems ')' fuel room cs
      pure (.array items, rest)

/-- The items from a token on, up to the closing character. -/
def readItems (close : Char) : Nat → Nat → List Char → Option (List Value × List Char)
  | 0, _, _ | _, _, [] => none
  | fuel + 1, room, c :: cs =>
    if c = close then some ([], cs)
    else do
      let (item, rest) ← readValue fuel (← deeper? room) (c :: cs)
      match ← nextToken rest with
      | ',' :: rest => (readItems close fuel room (← nextToken rest)).map fun p => (item :: p.1, p.2)
      | d :: rest => if d = close then pure ([item], rest) else none
      | [] => none

/-- The entries from a token on, up to the closing character, added to those before them. -/
def readEntries (close : Char) (readKey : List Char → Option (String × List Char)) :
    Nat → Nat → Table → List Char → Option (Table × List Char)
  | 0, _, _, _ | _, _, _, [] => none
  | fuel + 1, room, entries, c :: cs =>
    if c = close then some (entries, cs)
    else do
      let (key, rest) ← readKey (c :: cs)
      let ':' :: rest ← nextToken rest | none
      let (value, rest) ← readValue fuel (← deeper? room) (← nextToken rest)
      let entries := Table.set entries key value
      match ← nextToken rest with
      | ',' :: rest => readEntries close readKey fuel room entries (← nextToken rest)
      | d :: rest => if d = close then pure (entries, rest) else none
      | [] => none

end

/-! ## Files -/

/-- The extensions that a file may ask for. None of them matters to a value whose shape is not
known beforehand. -/
def extensions : List String :=
  ["unwrap_newtypes", "implicit_some", "unwrap_variant_newtypes"]

/-- The text behind some characters that may have spaces and comments in front of each. -/
def behindMarks? : List Char → List Char → Option (List Char)
  | [], cs => some cs
  | mark :: marks, cs => do
    let c :: cs ← nextToken cs | none
    if c = mark then behindMarks? marks cs else none

/-- The text behind the names of extensions. -/
def skipExtensions : Nat → List Char → Option (List Char)
  | 0, _ => none
  | fuel + 1, cs => do
    let (name, rest) ← readName cs
    if !extensions.contains (String.ofList name) then none
    match ← nextToken rest with
    | ',' :: rest =>
      let rest ← nextToken rest
      if rest.head?.any isNameChar then skipExtensions fuel rest else pure rest
    | rest => pure rest

/-- The text from the first value on: behind the attributes, each of which asks for extensions. -/
def skipAttributes : Nat → List Char → Option (List Char)
  | 0, _ => none
  | fuel + 1, cs => do
    match ← nextToken cs with
    | '#' :: cs =>
      let cs ← behindMarks? ['!', '['] cs
      let cs ← behindWord? "enable" (← nextToken cs)
      let cs ← skipExtensions fuel (← nextToken (← behindMarks? ['('] cs))
      skipAttributes fuel (← behindMarks? [')', ']'] cs)
    | cs => pure cs

/-- The table that a text denotes. -/
def table? (s : String) : Option Table := do
  let cs ← skipAttributes (s.length + 1) s.toList
  let (value, rest) ← readValue (2 * cs.length + 2) levels cs
  let [] ← nextToken rest | none
  value.table?

end YangBinding.Settings.Ron
