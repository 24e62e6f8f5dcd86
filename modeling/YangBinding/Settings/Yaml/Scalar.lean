import YangBinding.Leaf.Scalar
import YangBinding.Settings.Value
import YangBinding.Text.Radix

/-!
# Scalars in YAML

Where a character stands matters in YAML, so a text is read as characters with their places. A scalar
is plain, quoted, or a block of indented lines. Its lines are joined by spaces, except in a literal
block; a line break stays where a line is left empty.

## Main definitions

* `Glyph`, `glyphs`: the characters of a text with their places
* `nextToken`: the text from the next token on
* `readPlain`, `readQuoted`, `readBlockText`: the text of a scalar
* `plainValue?`, `taggedValue?`: what a plain scalar says
-/

namespace YangBinding.Settings.Yaml

/-! ## Places -/

/-- A character and its place. -/
structure Glyph where
  char : Char
  line : Nat
  column : Nat
  deriving DecidableEq, Repr

/-- The characters from a place on. The three line ends of YAML become one. -/
def glyphsFrom (line column : Nat) : List Char → List Glyph
  | [] => []
  | '\r' :: '\n' :: cs | '\r' :: cs | '\n' :: cs => ⟨'\n', line, column⟩ :: glyphsFrom (line + 1) 0 cs
  | c :: cs => ⟨c, line, column⟩ :: glyphsFrom line (column + 1) cs

/-- The characters of a text with their places. -/
def glyphs (s : String) : List Glyph := glyphsFrom 0 0 s.toList

/-- A space or a tab. -/
def isBlank (c : Char) : Bool := c = ' ' || c = '\t'

/-- The characters of flow collections. -/
def isFlowMark (c : Char) : Bool :=
  c = ',' || c = '[' || c = ']' || c = '\x7b' || c = '\x7d'

/-- The text starts with a blank or a line break, or is at its end. -/
def startsBlank (gs : List Glyph) : Bool :=
  gs.head?.all fun g => isBlank g.char || g.char = '\n'

/-- The next character is a given one. -/
def startsWith (c : Char) (gs : List Glyph) : Bool :=
  gs.head?.any fun g => g.char = c

/-- The next character is in a given line. -/
def isInLine (line : Nat) (gs : List Glyph) : Bool :=
  gs.head?.any fun g => g.line = line

/-- The text starts with a mark between documents, such as `---`. -/
def startsMark (mark : List Char) (gs : List Glyph) : Bool :=
  gs.head?.any (fun g => g.column = 0) && (gs.take 3).map Glyph.char == mark && startsBlank (gs.drop 3)

/-- The text starts with a mark between documents of either kind. -/
def startsAnyMark (gs : List Glyph) : Bool :=
  startsMark ['-', '-', '-'] gs || startsMark ['.', '.', '.'] gs

/-- The text from the next token on. Comments are skipped, and so are tabs, except that between
block collections none may stand at the start of a line. -/
def skipGap (isFlow tabs inComment : Bool) : List Glyph → List Glyph
  | [] => []
  | g :: gs =>
    if g.char = '\n' then skipGap isFlow isFlow false gs
    else if inComment || g.char = ' ' || (tabs && g.char = '\t') then
      skipGap isFlow tabs inComment gs
    else if g.char = '#' then skipGap isFlow tabs true gs
    else g :: gs

/-- The text from the next token on, between block collections. -/
def nextToken (gs : List Glyph) : List Glyph := skipGap false true false gs

/-- The text from the next token on, inside a flow collection. -/
def nextFlowToken (gs : List Glyph) : List Glyph := skipGap true true false gs

/-! ## Joined lines -/

/-- What a run of blanks and line breaks inside a scalar stands for: a single line break for a space,
several for all but the first. -/
def folded (gap : List Char) : List Char :=
  match gap.count '\n' with
  | 0 => gap
  | 1 => [' ']
  | n + 1 => List.replicate n '\n'

/-! ## Plain scalars -/

/-- A plain scalar ends in front of a character. -/
def endsPlain (isFlow : Bool) (parent : Int) (gap : List Char) (g : Glyph) (gs : List Glyph) : Bool :=
  (g.char = '#' && !gap.isEmpty) ||
  (g.char = ':' && (startsBlank gs || (isFlow && gs.head?.any fun h => isFlowMark h.char))) ||
  (isFlow && isFlowMark g.char) ||
  (gap.contains '\n' && ((!isFlow && decide ((g.column : Int) ≤ parent)) || startsAnyMark (g :: gs)))

/-- The text of a plain scalar, which goes on in lines that stand deeper than its parent, and what
follows. -/
def readPlain (isFlow : Bool) (parent : Int) (gap : List Char) :
    List Glyph → List Char × List Glyph
  | [] => ([], [])
  | g :: gs =>
    if isBlank g.char || g.char = '\n' then readPlain isFlow parent (gap ++ [g.char]) gs
    else if endsPlain isFlow parent gap g gs then ([], g :: gs)
    else
      let (text, rest) := readPlain isFlow parent [] gs
      (folded gap ++ g.char :: text, rest)

/-- The characters that no plain scalar starts with. -/
def reserved : List Char :=
  ['#', '&', '*', '!', '|', '>', '\'', '"', '%', '@', '\x60', '\t', '\n']

/-- A plain scalar may start here. -/
def startsPlain : List Glyph → Bool
  | [] => false
  | g :: gs =>
    if g.char = '-' ∨ g.char = '?' ∨ g.char = ':' then !startsBlank gs
    else !isFlowMark g.char && !reserved.contains g.char

/-- An integer of 64 bits in some base, which may have a sign. -/
def integerOfBase? (base : Nat) (cs : List Char) : Option Int := do
  let n : Int ← Text.numberOf? base (Decimal.splitSign cs).2
  let n := if (Decimal.splitSign cs).1 then -n else n
  if Scalar.FitsSigned .w64 n then some n else none

/-- The integer that a plain scalar spells. A plus sign may stand in front of any other. -/
def integer? (cs : List Char) : Option Int :=
  let based := match cs with
    | '0' :: 'x' :: cs => integerOfBase? 16 cs
    | '0' :: 'o' :: cs => integerOfBase? 8 cs
    | '+' :: cs => Text.integer? true cs
    | _ => none
  (based <|> Text.integer? true cs).filter fun n => decide (Scalar.FitsSigned .w64 n)

/-- The spellings of infinities and of not-a-number that only YAML has. They are reals, but none that
can be read. -/
def ownReals : List String :=
  [".inf", ".Inf", ".INF", "+.inf", "+.Inf", "+.INF", "-.inf", "-.Inf", "-.INF", ".nan", ".NAN"]

/-- The real that a plain scalar spells. -/
def real? (cs : List Char) : Option Value :=
  (Decimal.real? cs).map .real

/-- What a plain scalar without a tag says. -/
def plainValue? (cs : List Char) : Option Value :=
  let text := String.ofList cs
  match integer? cs with
  | some n => some (.integer n)
  | none =>
    if text = "~" ∨ text = "null" then some .absent
    else if text = "true" then some (.boolean true)
    else if text = "false" then some (.boolean false)
    else if ownReals.contains text then none
    else some ((real? cs).getD (.text text))

/-- What a plain scalar with a tag says. A text that the tag does not fit says nothing, and a tag that
is not known makes a text of it. -/
def taggedValue? (tag : String) (cs : List Char) : Option Value :=
  let text := String.ofList cs
  if tag = "!!bool" then
    some (if text = "true" then .boolean true else if text = "false" then .boolean false else .absent)
  else if tag = "!!int" then
    let n := (Text.integer? true cs).filter fun n => decide (Scalar.FitsSigned .w64 n)
    some ((n.map .integer).getD .absent)
  else if tag = "!!float" then
    if ownReals.contains text then none else some ((real? cs).getD .absent)
  else if tag = "!!null" then some .absent
  else some (.text text)

/-! ## Quoted scalars -/

/-- The rest of a text between single quotes. Two quotes stand for one. -/
def readSingle (gap : List Char) : List Glyph → Option (List Char × List Glyph)
  | [] => none
  | g :: gs =>
    if isBlank g.char || g.char = '\n' then readSingle (gap ++ [g.char]) gs
    else if g.char ≠ '\'' then (readSingle [] gs).map fun p => (folded gap ++ g.char :: p.1, p.2)
    else match gs with
      | ⟨'\'', _, _⟩ :: gs => (readSingle [] gs).map fun p => (folded gap ++ '\'' :: p.1, p.2)
      | gs => some (folded gap, gs)

/-- The characters that have a short escape. -/
def shortEscapes : List (Char × Char) :=
  [('0', '\x00'), ('a', '\x07'), ('b', '\x08'), ('t', '\t'), ('\t', '\t'), ('n', '\n'), ('v', '\x0b'),
    ('f', '\x0c'), ('r', '\r'), ('e', '\x1b'), (' ', ' '), ('"', '"'), ('\'', '\''), ('/', '/'),
    ('\\', '\\'), ('N', '\u0085'), ('_', '\u00a0'), ('L', '\u2028'), ('P', '\u2029')]

/-- The digits of a code point after each letter that announces one. -/
def digitCounts : List (Char × Nat) := [('x', 2), ('u', 4), ('U', 8)]

/-- The character that an escape stands for, and what follows. -/
def readEscape : List Glyph → Option (Char × List Glyph)
  | [] => none
  | g :: gs =>
    match digitCounts.lookup g.char with
    | some count => do
      let n ← Text.numberOf? 16 ((gs.take count).map Glyph.char)
      if count ≤ gs.length ∧ n.isValidChar then some (Char.ofNat n, gs.drop count) else none
    | none => (shortEscapes.lookup g.char).map fun meant => (meant, gs)

/-- The rest of a text between double quotes. Behind an escaped line break blanks count for nothing
and every line break counts. -/
def readDouble : Nat → Bool → List Char → List Glyph → Option (List Char × List Glyph)
  | 0, _, _, _ | _, _, _, [] => none
  | fuel + 1, escaped, gap, g :: gs =>
    let before := if escaped then gap.filter (· = '\n') else folded gap
    if isBlank g.char || g.char = '\n' then readDouble fuel escaped (gap ++ [g.char]) gs
    else if g.char = '"' then some (before, gs)
    else if g.char = '\\' ∧ startsWith '\n' gs then
      (readDouble fuel true [] (gs.drop 1)).map fun p => (before ++ p.1, p.2)
    else do
      let (c, gs) ← if g.char = '\\' then readEscape gs else some (g.char, gs)
      let (text, rest) ← readDouble fuel false [] gs
      pure (before ++ c :: text, rest)

/-- The text of a quoted scalar, and what follows. -/
def readQuoted : List Glyph → Option (List Char × List Glyph)
  | ⟨'\'', _, _⟩ :: gs => readSingle [] gs
  | ⟨'"', _, _⟩ :: gs => readDouble (gs.length + 1) false [] gs
  | _ => none

/-! ## Blocks of lines -/

/-- How a block of lines is to be read. -/
structure BlockStyle where
  /-- Line breaks stay. -/
  literal : Bool
  /-- The end of the last line and the empty lines behind it: none of them counts, only the first,
  or all. -/
  kept : Option Bool := some false
  /-- By how much the lines are indented, if the header says so. -/
  deeper : Option Nat := none

/-- The style with the indicators of a header, and the lines below it. -/
def readHeader (style : BlockStyle) : List Glyph → Option (BlockStyle × List Glyph)
  | [] => some (style, [])
  | g :: gs =>
    if g.char = '+' then readHeader { style with kept := some true } gs
    else if g.char = '-' then readHeader { style with kept := none } gs
    else if g.char.isDigit ∧ g.char ≠ '0' then
      readHeader { style with deeper := some (g.char.toNat - '0'.toNat) } gs
    else
      match (g :: gs).dropWhile fun h => isBlank h.char with
      | [] => some (style, [])
      | h :: hs =>
        if h.char = '\n' then some (style, hs)
        else if h.char = '#' then some (style, ((h :: hs).dropWhile fun h => h.char ≠ '\n').drop 1)
        else none

/-- The lines of a block, each with a mark if a line break follows it, and what follows the block.
Lines of spaces alone may be shorter than the indentation. -/
def blockLines (indent : Nat) : Nat → List Glyph → List (List Char × Bool) × List Glyph
  | 0, gs => ([], gs)
  | _ + 1, [] => ([], [])
  | fuel + 1, gs =>
    let spaces := (gs.takeWhile fun g => g.char = ' ').length
    let body := gs.drop (min spaces indent)
    let line := body.takeWhile fun g => g.char ≠ '\n'
    let rest := body.dropWhile fun g => g.char ≠ '\n'
    if indent ≤ spaces || line.isEmpty then
      let (lines, behind) := blockLines indent fuel (rest.drop 1)
      ((line.map Glyph.char, !rest.isEmpty) :: lines, behind)
    else ([], gs)

/-- The line starts with a blank. -/
def startsWithBlank (line : List Char) : Bool := line.head?.any isBlank

/-- The lines of a block as one text, without the end of the last. The line before is given, and how
many line breaks came after it. -/
def joinLines (literal : Bool) (before : Option (List Char)) (breaks : Nat) :
    List (List Char) → List Char
  | [] => []
  | [] :: lines => joinLines literal before (breaks + 1) lines
  | line :: lines =>
    let joins := !literal && before.any fun b => !startsWithBlank b && !startsWithBlank line
    let gap := if joins then folded (List.replicate breaks '\n') else List.replicate breaks '\n'
    gap ++ line ++ joinLines literal (some line) 1 lines

/-- The text of a block whose lines are deeper than its parent, and what follows. -/
def readBlockText (parent : Int) (gs : List Glyph) : Option (List Char × List Glyph) := do
  let g :: gs := gs | none
  let (style, gs) ← readHeader { literal := g.char = '|' } gs
  let first := gs.find? fun g => g.char ≠ ' ' && g.char ≠ '\n'
  let least := (parent + 1).toNat
  let indent := match style.deeper with
    | some n => parent.toNat + n
    | none => max (max least 1) (first.elim 0 Glyph.column)
  let (lines, rest) := blockLines indent (gs.length + 1) gs
  let tail := lines.reverse.takeWhile fun line => line.1.isEmpty
  let body := (lines.reverse.drop tail.length).reverse
  let ended := if (body.getLast?.any Prod.snd) then 1 else 0
  let empty := (tail.filter Prod.snd).length
  let breaks := match style.kept with
    | none => 0
    | some false => ended
    | some true => ended + empty
  pure (joinLines style.literal none 0 (body.map Prod.fst) ++ List.replicate breaks '\n', rest)

end YangBinding.Settings.Yaml
