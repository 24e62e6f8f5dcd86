import YangBinding.Json.Basic
import YangBinding.Text.Quoted

/-!
# Writing JSON

Two layouts of the same tokens: the compact one has no blanks at all, the pretty one puts every
item and member on a line of its own, two spaces deeper than its brackets, and a space after each
colon. Empty arrays and objects stay on one line in both. Only quotes, backslashes and control
characters below U+0020 are escaped.

## Main definitions

* `Json.compact`: the compact text
* `Json.pretty`: the pretty text
-/

namespace YangBinding.Json

/-- One character of a string literal. -/
def escapedChar (c : Char) : List Char :=
  if c = '"' then ['\\', '"']
  else if c = '\\' then ['\\', '\\']
  else if c = '\x08' then ['\\', 'b']
  else if c = '\t' then ['\\', 't']
  else if c = '\n' then ['\\', 'n']
  else if c = '\x0c' then ['\\', 'f']
  else if c = '\r' then ['\\', 'r']
  else if c.toNat < 0x20 then '\\' :: 'u' :: '0' :: '0' :: Text.hexByte c.toNat.toUInt8
  else [c]

/-- The literal of a text, quotes included. -/
def literal (s : String) : List Char :=
  '"' :: (s.toList.flatMap escapedChar ++ ['"'])

/-- The depth of indentation, or none in the compact layout. -/
abbrev Layout := Option Nat

/-- What stands before an item or a closing bracket: nothing, or a new line and its indentation. -/
def lineBreak : Layout → List Char
  | none => []
  | some depth => '\n' :: List.replicate (2 * depth) ' '

/-- What stands between a key and its value. -/
def colonChars : Layout → List Char
  | none => [':']
  | some _ => [':', ' ']

/-- The layout one level deeper. -/
def deeper (layout : Layout) : Layout :=
  layout.map (· + 1)

mutual

/-- The text of a value in a layout. -/
def write (layout : Layout) : Json → List Char
  | .null => "null".toList
  | .bool b => (if b then "true" else "false").toList
  | .integer n => (toString n).toList
  | .real digits => digits.toList
  | .string s => literal s
  | .broken => literal ""
  | .array [] => ['[', ']']
  | .array (item :: items) =>
    '[' :: (lineBreak (deeper layout) ++ write (deeper layout) item ++
      writeItems (deeper layout) items ++ lineBreak layout ++ [']'])
  | .object [] => ['\x7b', '\x7d']
  | .object ((key, value) :: members) =>
    '\x7b' :: (lineBreak (deeper layout) ++ literal key ++ colonChars layout ++
      write (deeper layout) value ++ writeMembers (deeper layout) members ++ lineBreak layout ++
      ['\x7d'])

/-- The text of the items after the first, each behind a comma. -/
def writeItems (layout : Layout) : List Json → List Char
  | [] => []
  | item :: items => ',' :: (lineBreak layout ++ write layout item ++ writeItems layout items)

/-- The text of the members after the first, each behind a comma. -/
def writeMembers (layout : Layout) : List (String × Json) → List Char
  | [] => []
  | (key, value) :: members =>
    ',' :: (lineBreak layout ++ literal key ++ colonChars layout ++ write layout value ++
      writeMembers layout members)

end

/-- The text of a value without any blanks. -/
def compact (j : Json) : String :=
  String.ofList (j.write none)

/-- The text of a value with one item or member a line. -/
def pretty (j : Json) : String :=
  String.ofList (j.write (some 0))

end YangBinding.Json
