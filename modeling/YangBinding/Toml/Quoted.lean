import YangBinding.Text.Radix

/-!
# Strings in TOML

A string stands between double quotes, with escapes, or between single quotes, as it is. Three
quotes instead of one delimit a string that may run over several lines; a line break right behind
the opening quotes is not part of it, and up to two quotes may stand directly before the closing
ones.

## Main definitions

* `readString`: the string at the head of a text, in any of the four forms
* `readKeyString`: the same for keys, which keep to one line
-/

namespace YangBinding.Toml

/-- A character that may stand in comments and strings: the tab and all that is no control. -/
def isPlain (c : Char) : Bool :=
  c = '\t' || (32 ≤ c.toNat && c.toNat ≠ 127)

/-- Spaces and tabs. -/
def isSpace (c : Char) : Bool := c = ' ' || c = '\t'

/-- The text behind leading spaces and tabs. -/
def skipSpace (cs : List Char) : List Char := cs.dropWhile isSpace

/-- The text behind a line break. -/
def lineBreak? : List Char → Option (List Char)
  | '\n' :: cs => some cs
  | '\r' :: '\n' :: cs => some cs
  | _ => none

/-- The character of a code point given by hexadecimal digits. -/
def codePoint? (digits : List Char) : Option Char := do
  let n ← Text.numberOf? 16 digits
  if n.isValidChar then some (Char.ofNat n) else none

/-- The character that an escape stands for, and the text after the escape. -/
def readEscape : List Char → Option (Char × List Char)
  | 'b' :: cs => some ('\x08', cs)
  | 't' :: cs => some ('\t', cs)
  | 'n' :: cs => some ('\n', cs)
  | 'f' :: cs => some ('\x0c', cs)
  | 'r' :: cs => some ('\r', cs)
  | '"' :: cs => some ('"', cs)
  | '\\' :: cs => some ('\\', cs)
  | 'u' :: cs =>
    if 4 ≤ cs.length then (codePoint? (cs.take 4)).map fun c => (c, cs.drop 4) else none
  | 'U' :: cs =>
    if 8 ≤ cs.length then (codePoint? (cs.take 8)).map fun c => (c, cs.drop 8) else none
  | _ => none

/-! ## One line -/

/-- The rest of a string between double quotes. -/
def readBasic : Nat → List Char → Option (List Char × List Char)
  | 0, _ | _, [] => none
  | _ + 1, '"' :: cs => some ([], cs)
  | fuel + 1, '\\' :: cs => do
    let (c, cs) ← readEscape cs
    let (text, rest) ← readBasic fuel cs
    pure (c :: text, rest)
  | fuel + 1, c :: cs =>
    if isPlain c then (readBasic fuel cs).map fun p => (c :: p.1, p.2) else none

/-- The rest of a string between single quotes. -/
def readLiteral : List Char → Option (List Char × List Char)
  | [] => none
  | '\'' :: cs => some ([], cs)
  | c :: cs => if isPlain c then (readLiteral cs).map fun p => (c :: p.1, p.2) else none

/-! ## Several lines -/

/-- The text behind an opening delimiter, without a line break right behind it. -/
def firstLine (cs : List Char) : List Char :=
  (lineBreak? cs).getD cs

/-- The quotes at the head of a text, as content and rest: fewer than three are content, three to
five close the string and all but three of them are content. -/
def readQuotes (quote : Char) (cs : List Char) : List Char × Option (List Char) :=
  let count := (cs.takeWhile (· == quote)).length
  if count < 3 then (List.replicate count quote, none)
  else (List.replicate (min count 5 - 3) quote, some (cs.drop (min count 5)))

/-- The text behind an escaped line break: blanks and line breaks do not count. -/
def skipLines (cs : List Char) : List Char :=
  cs.dropWhile fun c => isSpace c || c = '\n' || c = '\r'

/-- A carriage return never stands without its line feed. -/
def carriageReturnsOk : List Char → Bool
  | [] => true
  | '\r' :: '\n' :: cs => carriageReturnsOk cs
  | '\r' :: _ => false
  | _ :: cs => carriageReturnsOk cs

/-- The text behind a backslash at the end of a line: this line break, and all blanks and line
breaks that follow, are left out. -/
def continued? (cs : List Char) : Option (List Char) :=
  (lineBreak? (skipSpace cs)).bind fun rest =>
    let after := skipLines rest
    if carriageReturnsOk (rest.take (rest.length - after.length)) then some after else none

/-- The rest of a string between three double quotes, or three single quotes. Escapes count only
between double quotes. -/
def readLong (quote : Char) : Nat → List Char → Option (List Char × List Char)
  | 0, _ | _, [] => none
  | fuel + 1, c :: cs =>
    if c = quote then
      match readQuotes quote (c :: cs) with
      | (content, some rest) => some (content, rest)
      | (content, none) =>
        (readLong quote fuel ((c :: cs).drop content.length)).map fun p => (content ++ p.1, p.2)
    else if c = '\\' ∧ quote = '"' then
      match continued? cs with
      | some rest => readLong quote fuel rest
      | none => do
        let (c, cs) ← readEscape cs
        let (text, rest) ← readLong quote fuel cs
        pure (c :: text, rest)
    else
      match lineBreak? (c :: cs) with
      | some rest => (readLong quote fuel rest).map fun p => ('\n' :: p.1, p.2)
      | none =>
        if isPlain c then (readLong quote fuel cs).map fun p => (c :: p.1, p.2) else none

/-! ## All forms -/

/-- The string of one line at the head of a text. -/
def readKeyString : List Char → Option (List Char × List Char)
  | '"' :: cs => readBasic (cs.length + 1) cs
  | '\'' :: cs => readLiteral cs
  | _ => none

/-- The string at the head of a text. -/
def readString : List Char → Option (List Char × List Char)
  | '"' :: '"' :: '"' :: cs => readLong '"' (cs.length + 1) (firstLine cs)
  | '\'' :: '\'' :: '\'' :: cs => readLong '\'' (cs.length + 1) (firstLine cs)
  | cs => readKeyString cs

end YangBinding.Toml
