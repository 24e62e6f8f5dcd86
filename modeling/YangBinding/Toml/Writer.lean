import YangBinding.Toml.Quoted

/-!
# Writing strings in TOML

A string is written in the plainest form that can hold it: between double quotes if nothing has to
be escaped, between single quotes if it keeps to one line, then in the forms for several lines, and
with escapes only if there is no other way. The tab is the one character that is escaped between
double quotes without speaking against them.

Main definition: `quoted`, the written form of a string.
-/

namespace YangBinding.Toml

/-- The length of the longest run of a character. -/
def longestRun (c : Char) (cs : List Char) : Nat :=
  (cs.foldl (fun (best, run) d =>
    let run := if d = c then run + 1 else 0
    (max best run, run)) (0, 0)).1

/-- The character needs an escape in every form: a control character other than tab and line
feed. -/
def isHidden (c : Char) : Bool :=
  c ≠ '\n' && !isPlain c

/-- The escape of a character. -/
def escapeOf (c : Char) : List Char :=
  if c = '\x08' then ['\\', 'b']
  else if c = '\t' then ['\\', 't']
  else if c = '\n' then ['\\', 'n']
  else if c = '\x0c' then ['\\', 'f']
  else if c = '\r' then ['\\', 'r']
  else if c = '"' ∨ c = '\\' then ['\\', c]
  else '\\' :: 'u' :: '0' :: '0' ::
    (Text.hexByte c.toNat.toUInt8).map Char.toUpper

/-- The character is escaped between double quotes, of which a number may stand in the text before
it. In the form for several lines, line feeds and up to two quotes in a row stand as they are. -/
def mustEscape (long : Bool) (quotes : Nat) (c : Char) : Bool :=
  if c = '"' then !long || 2 ≤ quotes
  else if c = '\n' then !long
  else c = '\\' || c = '\t' || isHidden c

/-- The content between double quotes, behind a number of quotes that were left as they are. -/
def escaped (long : Bool) : Nat → List Char → List Char
  | _, [] => []
  | quotes, c :: cs =>
    if mustEscape long quotes c then escapeOf c ++ escaped long 0 cs
    else c :: escaped long (if c = '"' then quotes + 1 else 0) cs

/-- A content between delimiters of three quotes; several lines start on one of their own. -/
def long (quote : Char) (content : List Char) : List Char :=
  let delimiter := [quote, quote, quote]
  delimiter ++ (if content.contains '\n' then ['\n'] else []) ++ content ++ delimiter

/-- The written form of a string. -/
def quotedChars (cs : List Char) : List Char :=
  let hidden := cs.any isHidden
  let lines := cs.contains '\n'
  let slashes := cs.contains '\\'
  if !hidden && !slashes && !lines && !cs.contains '"' then '"' :: escaped false 0 cs ++ ['"']
  else if !hidden && !lines && !cs.contains '\'' then '\'' :: cs ++ ['\'']
  else if !hidden && !slashes && longestRun '"' cs ≤ 2 then long '"' (escaped true 0 cs)
  else if !hidden && longestRun '\'' cs ≤ 2 then long '\'' cs
  else if lines then long '"' (escaped true 0 cs)
  else '"' :: escaped false 0 cs ++ ['"']

/-- The written form of a string. -/
def quoted (s : String) : String :=
  String.ofList (quotedChars s.toList)

end YangBinding.Toml
