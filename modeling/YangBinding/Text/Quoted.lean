import YangBinding.Text.Blank
import YangBinding.Text.Radix

/-!
# Quoted text in diagnostics

A text shown in a diagnostic stands between double quotes. Quotes, backslashes and the common
control characters have short escapes; every other character that would not be visible is written
by its code point, so that two texts that look alike on the screen never look alike when quoted.
-/

namespace YangBinding.Text

/-- The ranges of invisible characters: controls, separators other than the plain space, format
characters, surrogates, private use and non-characters. -/
def invisibleRanges : List (Nat × Nat) :=
  [(0x00, 0x1F), (0x7F, 0xA0), (0xAD, 0xAD), (0x378, 0x379), (0x600, 0x605), (0x61C, 0x61C),
    (0x6DD, 0x6DD), (0x70F, 0x70F), (0x890, 0x891), (0x8E2, 0x8E2), (0x1680, 0x1680),
    (0x180E, 0x180E), (0x2000, 0x200F), (0x2028, 0x202F), (0x205F, 0x206F), (0x2072, 0x2073),
    (0x3000, 0x3000), (0xD7FC, 0xF8FF), (0xFEFF, 0xFEFF), (0xFFF0, 0xFFFB), (0xFFFE, 0xFFFF),
    (0x110BD, 0x110BD), (0x110CD, 0x110CD), (0x13430, 0x1343F), (0x1BCA0, 0x1BCA3),
    (0x1D173, 0x1D17A), (0x1FFFE, 0x1FFFF), (0xE0000, 0x10FFFF)]

/-- A character is invisible when its code point lies in one of the listed ranges. -/
def isInvisible (c : Char) : Bool :=
  inRanges invisibleRanges c.toNat

/-- One character between the quotes of a diagnostic. -/
def quotedChar (c : Char) : List Char :=
  if c = '"' then ['\\', '"']
  else if c = '\\' then ['\\', '\\']
  else if c = '\n' then ['\\', 'n']
  else if c = '\r' then ['\\', 'r']
  else if c = '\t' then ['\\', 't']
  else if c.toNat = 0 then ['\\', '0']
  else if isInvisible c then '\\' :: 'u' :: '\x7b' :: (hexDigits c.toNat ++ ['\x7d'])
  else [c]

/-- A text as diagnostics show it, quotes included. -/
def quoted (s : String) : String :=
  String.ofList ('"' :: (s.toList.flatMap quotedChar ++ ['"']))

end YangBinding.Text
