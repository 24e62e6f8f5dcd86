import YangBinding.Toml.Document
import YangBinding.Toml.Quoted
import YangBinding.Toml.Scalar

/-!
# Reading TOML

A document is a sequence of lines: blank ones, comments, headers and entries. Arrays may run over
several lines, inline tables may not.

## Main definitions

* `readValue`: the value at the head of a text
* `readLines`: the document that lines build
* `Table.ofText?`: the table that a text denotes
-/

namespace YangBinding.Toml

/-- How deep arrays and inline tables may nest, and how many parts a key may have. -/
def levels : Nat := 79

/-! ## Comments and line ends -/

/-- The text behind a comment, which ends with its line. -/
def skipComment : List Char → Option (List Char)
  | '#' :: cs =>
    let rest := cs.dropWhile isPlain
    if rest.isEmpty || (lineBreak? rest).isSome then some rest else none
  | cs => some cs

/-- The next line, if nothing but a comment is left of this one. -/
def endLine? (cs : List Char) : Option (List Char) :=
  (skipComment (skipSpace cs)).bind fun rest => if rest.isEmpty then some [] else lineBreak? rest

/-- The text behind blanks, comments and line breaks, as far as the fuel reaches. -/
def skipLayout : Nat → List Char → Option (List Char)
  | 0, _ => none
  | fuel + 1, cs => do
    let rest ← skipComment (skipSpace cs)
    match lineBreak? rest with
    | some rest => skipLayout fuel rest
    | none => pure rest

/-! ## Keys -/

/-- The characters of keys without quotes. -/
def isBareChar (c : Char) : Bool :=
  c.isAlphanum || c = '-' || c = '_'

/-- One part of a key. -/
def readKeyPart (cs : List Char) : Option (String × List Char) :=
  if cs.head?.any fun c => c = '"' || c = '\'' then
    (readKeyString cs).map fun p => (String.ofList p.1, p.2)
  else
    let bare := cs.takeWhile isBareChar
    if bare.isEmpty then none else some (String.ofList bare, cs.dropWhile isBareChar)

/-- A key: parts with points between them, of a limited number. -/
def readKey : Nat → List Char → Option (List String × List Char)
  | 0, _ => none
  | fuel + 1, cs => do
    let (part, rest) ← readKeyPart (skipSpace cs)
    match skipSpace rest with
    | '.' :: rest => (readKey fuel rest).map fun p => (part :: p.1, p.2)
    | rest => pure ([part], rest)

/-- The key of an entry and the text of its value. -/
def readEntryKey (cs : List Char) : Option (List String × List Char) := do
  let (path, rest) ← readKey levels cs
  pure (path, skipSpace (← after? '=' rest))

/-! ## Values -/

mutual

/-- The value at the head of a text, in which a number of levels may still be opened. -/
def readValue : Nat → Nat → List Char → Option (Value × List Char)
  | 0, _, _ => none
  | fuel + 1, depth, cs =>
    match cs, depth with
    | '[' :: cs, depth + 1 => (readItems fuel depth cs).map fun p => (.array p.1, p.2)
    | '\x7b' :: cs, depth + 1 => (readPairs fuel depth true [] cs).map fun p =>
        (.table (Item.toTable p.1), p.2)
    | '"' :: _, _ | '\'' :: _, _ => (readString cs).map fun p => (.string (String.ofList p.1), p.2)
    | cs, _ => readScalar cs

/-- The items of an array up to its closing bracket; a comma may stand behind the last. -/
def readItems : Nat → Nat → List Char → Option (List Value × List Char)
  | 0, _, _ => none
  | fuel + 1, depth, cs => do
    match ← skipLayout (cs.length + 1) cs with
    | ']' :: rest => pure ([], rest)
    | cs =>
      let (item, rest) ← readValue fuel depth cs
      match ← skipLayout (rest.length + 1) rest with
      | ']' :: rest => pure ([item], rest)
      | ',' :: rest => (readItems fuel depth rest).map fun p => (item :: p.1, p.2)
      | _ => none

/-- The entries of an inline table up to its closing brace, added to those before them. Only a
table without entries may end where an entry can begin. -/
def readPairs : Nat → Nat → Bool → Entries → List Char → Option (Entries × List Char)
  | 0, _, _, _, _ => none
  | fuel + 1, depth, empty, entries, cs => do
    match skipSpace cs, empty with
    | '\x7d' :: rest, true => pure (entries, rest)
    | cs, _ =>
      let (path, rest) ← readEntryKey cs
      let (value, rest) ← readValue fuel depth rest
      let (_, entries) ← Entries.set path.dropLast (← path.getLast?) value .header entries
      match skipSpace rest with
      | '\x7d' :: rest => pure (entries, rest)
      | ',' :: rest => readPairs fuel depth false entries rest
      | _ => none

end

/-- The value at the head of a text. Every second step takes a character. -/
def readDeepValue (cs : List Char) : Option (Value × List Char) :=
  readValue (2 * cs.length + 2) levels cs

/-! ## Lines -/

/-- A document after one more line that is not blank, and the text behind the line. -/
def readLine (d : Document) : List Char → Option (Document × List Char)
  | '[' :: '[' :: cs => do
    let (path, rest) ← readKey levels cs
    let rest ← after? ']' (← after? ']' rest)
    pure (← d.openElement path, ← endLine? rest)
  | '[' :: cs => do
    let (path, rest) ← readKey levels cs
    let rest ← after? ']' rest
    pure (← d.openTable path, ← endLine? rest)
  | cs => do
    let (path, rest) ← readEntryKey cs
    let (value, rest) ← readDeepValue rest
    pure (← d.set path value, ← endLine? rest)

/-- The document that lines build. Every line takes a character. -/
def readLines : Nat → Document → List Char → Option Document
  | 0, _, _ => none
  | fuel + 1, d, cs => do
    match ← skipLayout (cs.length + 1) cs with
    | [] => pure d
    | cs =>
      let (d, rest) ← readLine d cs
      readLines fuel d rest

/-- The table that a text denotes. A byte order mark in front does not count. -/
def Table.ofText? (s : String) : Option Table :=
  let cs := match s.toList with
    | '\uFEFF' :: cs => cs
    | cs => cs
  (readLines (cs.length + 1) {} cs).map Document.toTable

end YangBinding.Toml
