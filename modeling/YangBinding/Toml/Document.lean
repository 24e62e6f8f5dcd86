import YangBinding.Toml.Value

/-!
# Building TOML documents

A document is built entry by entry. A table can be filled from its header, from dotted keys, or by
being passed on the way to a table inside it, and the three do not mix: a table has at most one
header, dotted keys extend only tables that dotted keys made, and nothing enters a value from
outside. The last element of a table array stands for the array on the way to its contents.

## Main definitions

* `Item`: what a key of a document under construction holds
* `Document`: the document, and the table that the next entries belong to
* `Document.openTable`, `Document.openElement`, `Document.set`: the steps of its construction
-/

namespace YangBinding.Toml

/-- How a table came to be. -/
inductive Origin where
  /-- It has a header, or is an element of a table array. -/
  | header
  /-- A header names a table inside it. -/
  | implied
  /-- A dotted key passes through it. -/
  | dotted
  deriving DecidableEq, Repr

/-- What a key of a document under construction holds. -/
inductive Item where
  | value (value : Value)
  | table (origin : Origin) (entries : List (String × Item))
  | tables (elements : List (List (String × Item)))
  deriving Repr

/-- The entries of a table under construction. -/
abbrev Entries := List (String × Item)

namespace Item

mutual

/-- The finished value of an item. -/
def toValue : Item → Value
  | value v => v
  | table _ entries => .table (toTable entries)
  | tables elements => .array (toTables elements)

/-- The finished table of some entries. -/
def toTable : List (String × Item) → List (String × Value)
  | [] => []
  | (key, item) :: entries => (key, item.toValue) :: toTable entries

/-- The finished elements of a table array. -/
def toTables : List (List (String × Item)) → List Value
  | [] => []
  | entries :: elements => .table (toTable entries) :: toTables elements

end

end Item

namespace Entries

/-- The entries with a key set to an item. -/
def put (entries : Entries) (key : String) (item : Item) : Entries :=
  Table.alter key (fun _ => item) entries

/-- Changes the table at the end of a path below a table. A table that is not there is made on the
way; dotted keys do not pass a table with a header. -/
def descend (dotted : Bool) (change : Origin → Entries → Option (Origin × Entries)) :
    List String → Origin → Entries → Option (Origin × Entries)
  | [], origin, entries => change origin entries
  | key :: path, origin, entries => do
    let item ← match entries.lookup key with
      | none => do
        let (made, inner) ← descend dotted change path (if dotted then .dotted else .implied) []
        pure (Item.table made inner)
      | some (.table inside inner) => do
        if dotted ∧ inside = .header then none
        let (inside, inner) ← descend dotted change path inside inner
        pure (Item.table inside inner)
      | some (.tables elements) => do
        let (_, last) ← descend dotted change path .header (← elements.getLast?)
        pure (Item.tables (elements.dropLast ++ [last]))
      | some (.value _) => none
    pure (origin, put entries key item)

/-- Sets a key to a value. Dotted keys end in tables that dotted keys made, others do not, and no
key is set twice. -/
def set (path : List String) (key : String) (value : Value) (origin : Origin) (entries : Entries) :
    Option (Origin × Entries) :=
  descend true (fun origin entries =>
    if decide (origin = .dotted) = path.isEmpty ∨ (entries.lookup key).isSome then none
    else some (origin, put entries key (.value value))) path origin entries

end Entries

/-- A document under construction. -/
structure Document where
  entries : Entries := []
  /-- The path of the table that the next entries belong to. -/
  current : List String := []

namespace Document

/-- Changes the table at a path that a header gives. -/
def change (d : Document) (path : List String)
    (step : Origin → Entries → Option (Origin × Entries)) : Option Document :=
  (Entries.descend false step path .header d.entries).map fun p => { d with entries := p.2 }

/-- The header of a table: it has none yet, though other headers may have passed it. -/
def openTable (d : Document) (path : List String) : Option Document := do
  let key ← path.getLast?
  let d ← d.change path.dropLast fun origin entries =>
    match entries.lookup key with
    | none => some (origin, Entries.put entries key (.table .header []))
    | some (.table .implied inner) => some (origin, Entries.put entries key (.table .header inner))
    | some _ => none
  pure { d with current := path }

/-- The header of one more element of a table array. -/
def openElement (d : Document) (path : List String) : Option Document := do
  let key ← path.getLast?
  let d ← d.change path.dropLast fun origin entries =>
    match entries.lookup key with
    | none => some (origin, Entries.put entries key (.tables [[]]))
    | some (.tables elements) => some (origin, Entries.put entries key (.tables (elements ++ [[]])))
    | some _ => none
  pure { d with current := path }

/-- An entry of the current table. -/
def set (d : Document) (path : List String) (value : Value) : Option Document := do
  let key ← path.getLast?
  d.change d.current (Entries.set path.dropLast key value)

/-- The finished document. -/
def toTable (d : Document) : Table := Item.toTable d.entries

end Document

end YangBinding.Toml
