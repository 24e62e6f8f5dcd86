import YangBinding.Settings.Yaml.Scalar

/-!
# Settings in YAML

The columns in which the lines of a YAML text start say what belongs together: the entries of a
mapping, and the items of a sequence, start in one column, and what is inside them stands deeper. Flow
collections stand between brackets instead. A value may bear a tag that says how to take it, and an
anchor by which it can be used again.

## Main definitions

* `Source`: a text that is being read, with the anchors so far
* `readFlow`, `readNode`: the flow value, and the value, at the head of a text
* `table?`: the table that a text denotes
-/

namespace YangBinding.Settings.Yaml

/-! ## Properties -/

/-- What is left of a text, and the values that anchors stand for. -/
structure Source where
  rest : List Glyph
  anchors : List (String × Value) := []

namespace Source

/-- The source from the next token on. -/
def next (s : Source) : Source := { s with rest := nextToken s.rest }

/-- The source from the next token on, inside a flow collection. -/
def nextInFlow (s : Source) : Source := { s with rest := nextFlowToken s.rest }

/-- The source without some characters. -/
def drop (n : Nat) (s : Source) : Source := { s with rest := s.rest.drop n }

/-- The source with a value bound to an anchor, if there is one. -/
def bind (s : Source) (anchor : Option String) (value : Value) : Source :=
  match anchor with
  | some name => { s with anchors := (name, value) :: s.anchors }
  | none => s

end Source

/-- What stands in front of a value: its tag and its anchor. -/
structure Properties where
  tag : Option String := none
  anchor : Option String := none

/-- The characters in the names of anchors. -/
def isAnchorChar (c : Char) : Bool := c.isAlphanum || c = '_' || c = '-'

/-- The name of an anchor at the head of a text, and what follows. -/
def readAnchor (gs : List Glyph) : Option (String × List Glyph) :=
  let name := gs.takeWhile fun g => isAnchorChar g.char
  let rest := gs.dropWhile fun g => isAnchorChar g.char
  if name.isEmpty then none
  else if startsBlank rest || rest.head?.any fun g => "?:,]\x7d%@\x60".toList.contains g.char then
    some (String.ofList (name.map Glyph.char), rest)
  else none

/-- The properties at the head of a text, each at most once, and what follows them. -/
def readProperties (isFlow : Bool) : Nat → Properties → List Glyph → Option (Properties × List Glyph)
  | 0, p, gs => some (p, gs)
  | fuel + 1, p, gs =>
    let next := if isFlow then nextFlowToken else nextToken
    if startsWith '&' gs ∧ p.anchor.isNone then do
      let (name, rest) ← readAnchor (gs.drop 1)
      readProperties isFlow fuel { p with anchor := some name } (next rest)
    else if startsWith '!' gs ∧ p.tag.isNone then
      let ends (g : Glyph) : Bool := isBlank g.char || g.char = '\n'
      let tag := (gs.takeWhile fun g => !ends g).map Glyph.char
      readProperties isFlow fuel { p with tag := some (String.ofList tag) }
        (next (gs.dropWhile fun g => !ends g))
    else some (p, gs)

/-- What a plain scalar with some properties says. -/
def Properties.valueOf? (p : Properties) (cs : List Char) : Option Value :=
  match p.tag with
  | some tag => taggedValue? tag cs
  | none => plainValue? cs

/-- What is said where nothing follows some properties. -/
def Properties.empty? (p : Properties) : Option Value :=
  if p.tag.isNone ∧ p.anchor.isNone then some .absent else p.valueOf? []

/-! ## Scalars and keys -/

/-- The name that a value gives as a key. -/
def keyOf? : Value → Option String
  | .text s => some s
  | .integer n => some (toString n)
  | _ => none

/-- The scalar at the head of a text that is no block of lines, or the value of an anchor. -/
def readScalar (isFlow : Bool) (parent : Int) (p : Properties) (s : Source) :
    Option (Value × Source) :=
  if startsWith '*' s.rest then do
    let (name, rest) ← readAnchor (s.rest.drop 1)
    if p.tag.isSome ∨ p.anchor.isSome then none
    pure (← s.anchors.lookup name, { s with rest })
  else
    match readQuoted s.rest with
    | some (text, rest) =>
      let value := Value.text (String.ofList text)
      some (value, Source.bind { s with rest } p.anchor value)
    | none =>
      if startsPlain s.rest then do
        let (text, rest) := readPlain isFlow parent [] s.rest
        let value ← p.valueOf? text
        pure (value, Source.bind { s with rest } p.anchor value)
      else none

/-- The key at the head of a text, and what follows its colon. It stands in one line. -/
def readKey? (parent : Int) (s : Source) : Option (String × Source) := do
  let g :: _ := s.rest | none
  let (p, start) ← readProperties false 2 {} s.rest
  let (value, s) ← readScalar false parent p { s with rest := start }
  let rest := s.rest.dropWhile fun h => isBlank h.char
  if isInLine g.line rest && startsWith ':' rest && startsBlank (rest.drop 1) then
    (keyOf? value).map fun key => (key, { s with rest := rest.drop 1 })
  else none

/-! ## Flow collections -/

/-- A colon between a key and its value is at the head of a text. Behind a key that is not plain,
nothing need separate the colon from the value. -/
def startsFlowValue (isPlain : Bool) (gs : List Glyph) : Bool :=
  startsWith ':' gs &&
    (!isPlain || startsBlank (gs.drop 1) || (gs.drop 1).head?.any fun g => isFlowMark g.char)

/-- The end of an entry of a flow collection is at the head of a text. -/
def endsEntry (gs : List Glyph) : Bool :=
  startsWith ',' gs || startsWith ']' gs || startsWith '\x7d' gs

/-- The source behind a comma, or at the closing bracket. -/
def behindComma? (close : Char) (s : Source) : Option Source :=
  let s := s.nextInFlow
  if startsWith ',' s.rest then some (s.drop 1).nextInFlow
  else if startsWith close s.rest then some s
  else none

mutual

/-- The value at the head of a text inside a flow collection. -/
def readFlow : Nat → Source → Option (Value × Source)
  | 0, _ => none
  | fuel + 1, s => do
    let (p, rest) ← readProperties true 2 {} s.rest
    let s := { s with rest }
    if endsEntry rest then
      let value ← p.empty?
      pure (value, s.bind p.anchor value)
    else readFlowContent fuel p s

/-- The value behind its properties inside a flow collection. -/
def readFlowContent : Nat → Properties → Source → Option (Value × Source)
  | 0, _, _ => none
  | fuel + 1, p, s =>
    if startsWith '[' s.rest then do
      let (items, rest) ← readFlowItems fuel ((s.bind p.anchor .absent).drop 1).nextInFlow
      pure (.array items, rest.bind p.anchor (.array items))
    else if startsWith '\x7b' s.rest then do
      let (entries, rest) ← readFlowEntries fuel [] ((s.bind p.anchor .absent).drop 1).nextInFlow
      pure (.table entries, rest.bind p.anchor (.table entries))
    else readScalar true 0 p s

/-- The items of a flow sequence from a token on. An item with a colon behind it is a mapping of one
entry. -/
def readFlowItems : Nat → Source → Option (List Value × Source)
  | 0, _ => none
  | fuel + 1, s =>
    if startsWith ']' s.rest then some ([], s.drop 1)
    else if startsWith ',' s.rest then none
    else do
      let (item, after) ← readFlow fuel s
      let colon := after.nextInFlow
      let (item, after) ← if startsFlowValue (startsPlain s.rest) colon.rest then do
          let key ← keyOf? item
          let (value, after) ← readFlow fuel (colon.drop 1).nextInFlow
          pure (.table [(key, value)], after)
        else pure (item, after)
      let (items, after) ← readFlowItems fuel (← behindComma? ']' after)
      pure (item :: items, after)

/-- The entries of a flow mapping from a token on, added to those before them. -/
def readFlowEntries : Nat → Table → Source → Option (Table × Source)
  | 0, _, _ => none
  | fuel + 1, entries, s =>
    if startsWith '\x7d' s.rest then some (entries, s.drop 1)
    else if startsWith ',' s.rest then none
    else do
      let (key, after) ← readFlow fuel s
      let key ← keyOf? key
      let colon := after.nextInFlow
      let (value, after) ← if startsFlowValue (startsPlain s.rest) colon.rest then
          readFlow fuel (colon.drop 1).nextInFlow
        else pure (.absent, after)
      readFlowEntries fuel (entries.set key value) (← behindComma? '\x7d' after)

end

/-! ## Block collections -/

/-- A mark in front of a part of a block collection is at the head of a text. -/
def startsPart (mark : Char) (gs : List Glyph) : Bool :=
  startsWith mark gs && startsBlank (gs.drop 1)

/-- The line that a text is in. -/
def lineOf? (gs : List Glyph) : Option Nat := gs.head?.map Glyph.line

/-- A text is in a column, and not at a mark between documents. -/
def isInColumn (column : Nat) (gs : List Glyph) : Bool :=
  gs.head?.any (fun g => g.column = column) && !startsAnyMark gs

/-- A text stands deeper than a column, and not at a mark between documents. -/
def isDeeper (parent : Int) (gs : List Glyph) : Bool :=
  gs.head?.any (fun g => decide (parent < g.column)) && !startsAnyMark gs

/-- An item of a block sequence in a column is at the head of a text. -/
def isItemInColumn (column : Int) (gs : List Glyph) : Bool :=
  gs.head?.any (fun g => decide (column = g.column)) && startsPart '-' gs && !startsAnyMark gs

mutual

/-- The value from the next token on, inside a collection in the column of its parent. What does not
stand deeper does not belong to it, except that the items of a sequence in an entry of a mapping may
start in the column of the entries. A value in the line of its key, or of its properties, is no block
collection. -/
def readNode : Nat → Int → Bool → Option Nat → Properties → Source → Option (Value × Source)
  | 0, _, _, _, _, _ => none
  | fuel + 1, parent, inEntry, line, p, s =>
    let s := s.next
    let sameLine := line.isSome && line == lineOf? s.rest
    if isDeeper parent s.rest then
      -- A key comes first, because what stands in front of it in its line belongs to it.
      if !sameLine && (startsPart '?' s.rest || (readKey? parent s).isSome) then do
        let column := (s.rest.head?.map Glyph.column).getD 0
        let (entries, after) ← readEntries fuel column [] (s.bind p.anchor .absent)
        pure (.table entries, after.bind p.anchor (.table entries))
      else if !sameLine && startsPart '-' s.rest then readSequence fuel p s
      else if startsWith '&' s.rest || startsWith '!' s.rest then do
        let (p, rest) ← readProperties false 2 p s.rest
        -- No property may be given twice.
        if startsWith '&' rest || startsWith '!' rest then none
        else readNode fuel parent inEntry (lineOf? s.rest) p { s with rest }
      else if startsWith '|' s.rest || startsWith '>' s.rest then do
        let (text, rest) ← readBlockText parent s.rest
        let value := Value.text (String.ofList text)
        pure (value, Source.bind { s with rest } p.anchor value)
      else if startsWith '[' s.rest || startsWith '\x7b' s.rest then
        readFlowContent (3 * s.rest.length + 4) p s
      else readScalar false parent p s
    else if inEntry && isItemInColumn parent s.rest then readSequence fuel p s
    else do
      let value ← p.empty?
      pure (value, s.bind p.anchor value)

/-- The block sequence at the head of a text. -/
def readSequence : Nat → Properties → Source → Option (Value × Source)
  | 0, _, _ => none
  | fuel + 1, p, s => do
    let column := (s.rest.head?.map Glyph.column).getD 0
    let (items, after) ← readItems fuel column (s.bind p.anchor .absent)
    pure (.array items, after.bind p.anchor (.array items))

/-- The items of a block sequence in a column. -/
def readItems : Nat → Nat → Source → Option (List Value × Source)
  | 0, _, _ => none
  | fuel + 1, column, s =>
    if isItemInColumn column s.rest then do
      let (item, after) ← readPart fuel column false s
      let (items, after) ← readItems fuel column after.next
      pure (item :: items, after)
    else some ([], s)

/-- The value behind a mark such as that of an item. It may be a block collection in the same
line. -/
def readPart : Nat → Nat → Bool → Source → Option (Value × Source)
  | 0, _, _, _ => none
  | fuel + 1, column, inEntry, s => readNode fuel column inEntry none {} (s.drop 1)

/-- The entries of a block mapping in a column, added to those before them. A key that is not a
scalar in one line stands behind a question mark, and its value behind a colon below it. -/
def readEntries : Nat → Nat → Table → Source → Option (Table × Source)
  | 0, _, _, _ => none
  | fuel + 1, column, entries, s =>
    if !isInColumn column s.rest then some (entries, s)
    else if startsPart '?' s.rest then do
      let (key, after) ← readPart fuel column true s
      let key ← keyOf? key
      let after := after.next
      let (value, after) ← if isInColumn column after.rest && startsPart ':' after.rest then
          readPart fuel column true after
        else pure (.absent, after)
      readEntries fuel column (entries.set key value) after.next
    else do
      let (key, after) ← readKey? column s
      let (value, after) ← readNode fuel column true (lineOf? s.rest) {} after
      readEntries fuel column (entries.set key value) after.next

end

/-! ## Documents -/

/-- Nothing but a mark of the end may follow a document. -/
def isEnd (gs : List Glyph) : Bool :=
  gs.isEmpty || (startsMark ['.', '.', '.'] gs && (nextToken (gs.drop 3)).isEmpty)

/-- The text behind the directives in front of a document, and whether there were any. -/
def skipDirectives : Nat → List Glyph → List Glyph × Bool
  | 0, gs => (gs, false)
  | fuel + 1, gs =>
    if startsWith '%' gs && gs.head?.any fun g => g.column = 0 then
      ((skipDirectives fuel (nextToken (gs.dropWhile fun g => g.char ≠ '\n'))).1, true)
    else (gs, false)

/-- The table that a text denotes: that of its only document, or an empty one. -/
def table? (s : String) : Option Table :=
  let start := nextToken (glyphs s)
  let (gs, directed) := skipDirectives start.length start
  if start.isEmpty then some []
  else do
    let marked := startsMark ['-', '-', '-'] gs
    if directed ∧ !marked then none
    let line := if marked then lineOf? gs else none
    let source : Source := { rest := if marked then gs.drop 3 else gs }
    let (value, after) ← readNode (3 * gs.length + 6) (-1) false line {} source
    if isEnd after.next.rest then value.table? else none

end YangBinding.Settings.Yaml
