import YangBinding.Settings.Value
import YangBinding.Text.Blank
import YangBinding.Text.Radix

/-!
# Settings in INI files

An INI file holds properties, a key and a text on either side of an equals sign or a colon. The
properties behind the name of a section between brackets belong to that section, those in front of
the first to the file. A comment starts with a semicolon or a number sign in the first column.

## Main definitions

* `Ini.readProperty`, `Ini.readSection`: the parts of a file
* `Ini.table?`: the table that a text denotes, with a table for each section
-/

namespace YangBinding.Settings.Ini

/-- The characters that have a short escape. -/
def shortEscapes : List (Char × Char) :=
  [('0', '\x00'), ('a', '\x07'), ('b', '\x08'), ('t', '\t'), ('r', '\r'), ('n', '\n')]

/-- The character of four hexadecimal digits. -/
def codePoint? (digits : List Char) : Option Char := do
  let n ← Text.numberOf? 16 digits
  if digits.length = 4 ∧ n.isValidChar then some (Char.ofNat n) else none

/-- What an escape stands for, and the text behind it. An escaped line break stands for nothing,
and a character without a meaning of its own for itself. -/
def readEscape : List Char → Option (List Char × List Char)
  | [] => none
  | '\n' :: cs => some ([], cs)
  | 'x' :: cs => (codePoint? (cs.take 4)).map fun c => ([c], cs.drop 4)
  | c :: cs => some ([(shortEscapes.lookup c).getD c], cs)

/-- The text up to the first of some characters, and the text from that on. -/
def readUntil (isEnd : Char → Bool) : Nat → List Char → Option (List Char × List Char)
  | 0, _ => none
  | _ + 1, [] => some ([], [])
  | fuel + 1, c :: cs =>
    if isEnd c then some ([], c :: cs)
    else if c = '\\' then do
      let (meant, cs) ← readEscape cs
      let (text, rest) ← readUntil isEnd fuel cs
      pure (meant ++ text, rest)
    else (readUntil isEnd fuel cs).map fun p => (c :: p.1, p.2)

/-- The text up to a character that has to be there, and the text from that on. -/
def readTo (isEnd : Char → Bool) (cs : List Char) : Option (List Char × List Char) :=
  (readUntil isEnd (cs.length + 1) cs).filter fun p => !p.2.isEmpty

/-- The characters that end a line. -/
def isLineEnd (c : Char) : Bool := c = '\n' || c = '\r'

/-- The text up to the end of the line, and the text from that on. -/
def readLine (cs : List Char) : Option (List Char × List Char) :=
  readUntil isLineEnd (cs.length + 1) cs

/-- The value behind the sign of a property. It may start with a part between quotes, which may run
over several lines. -/
def readValue (cs : List Char) : Option (List Char × List Char) :=
  match cs.dropWhile fun c => Text.isBlank c && !isLineEnd c with
  | [] => some ([], [])
  | c :: cs =>
    if c = '"' ∨ c = '\'' then do
      let (quoted, rest) ← readTo (· == c) cs
      let (behind, rest) ← readLine (rest.drop 1)
      pure (quoted ++ behind, rest)
    else readLine (c :: cs)

/-- The property at the head of a text. -/
def readProperty (cs : List Char) : Option ((String × Value) × List Char) := do
  let (key, rest) ← readTo (fun c => c = '=' || c = ':') cs
  if (Text.trim key).isEmpty then none
  let (value, rest) ← readValue (rest.drop 1)
  pure ((String.ofList (Text.trim key), .text (String.ofList (Text.trim value))), rest)

/-- The name of a section whose opening bracket has been read. -/
def readSection (cs : List Char) : Option (String × List Char) := do
  let (name, rest) ← readTo (· == ']') cs
  pure (String.ofList (Text.trim name), rest.drop 1)

/-- A file in which some lines have been read. -/
structure Draft where
  /-- The properties in front of the first section, and the sections that are closed. -/
  entries : Table := []
  /-- The section that is open, with its properties. -/
  open? : Option (String × Table) := none

namespace Draft

/-- The draft without an open section. A section takes the place of one of the same name. -/
def close (d : Draft) : Table :=
  match d.open? with
  | some (name, properties) => d.entries.set name (.table properties)
  | none => d.entries

/-- The draft with a section opened. -/
def enter (d : Draft) (name : String) : Draft :=
  { entries := d.close, open? := some (name, []) }

/-- The draft with one more property. -/
def add (d : Draft) (name : String) (value : Value) : Draft :=
  match d.open? with
  | some (current, properties) => { d with open? := some (current, Table.set properties name value) }
  | none => { d with entries := d.entries.set name value }

end Draft

/-- The draft after the rest of a file. Whether a comment may start depends on whether the text so
far ends with a line. -/
def readLines : Nat → Draft → Bool → List Char → Option Draft
  | 0, _, _, _ => none
  | fuel + 1, d, atStart, cs =>
    let blanks := cs.takeWhile Text.isBlank
    let atStart := if blanks.isEmpty then atStart else blanks.getLast? == some '\n'
    match cs.dropWhile Text.isBlank with
    | [] => some d
    | '[' :: cs => do
      let (name, rest) ← readSection cs
      readLines fuel (d.enter name) false rest
    | c :: cs =>
      if c = ';' ∨ c = '#' then
        if atStart then readLines fuel d true ((cs.dropWhile (· ≠ '\n')).drop 1) else none
      else do
        let ((name, value), rest) ← readProperty (c :: cs)
        readLines fuel (d.add name value) false rest

/-- The table that a text denotes. -/
def table? (s : String) : Option Table :=
  (readLines (s.toList.length + 1) {} true s.toList).map Draft.close

end YangBinding.Settings.Ini
