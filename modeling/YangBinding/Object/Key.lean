import YangBinding.Object.Field

/-!
# Keys of list entries

An entry of a list is addressed by a key of the key class of the list. All leaves of a key are set
from the start, to the default of their type.
-/

namespace YangBinding

/-- A key of a list entry. -/
structure Key where
  type : KeyClass
  values : List (String × LeafValue)
  deriving Repr

namespace Key

/-- Keys are equal when they are of the same type and have the same values. -/
instance : BEq Key where
  beq a b := a.type.typeName == b.type.typeName && a.values == b.values

/-- The field belongs to the type of the key. -/
def checkTarget (k : Key) (f : KeyField) : Except FieldError Unit :=
  if k.type.typeName = f.owner then .ok () else .error (.wrongTarget f.owner k.type.className)

/-- The value of a leaf. -/
def get (k : Key) (f : KeyField) : Except FieldError LeafValue := do
  k.checkTarget f
  pure ((k.values.lookup f.name).getD f.type.default)

/-- Sets a leaf. -/
def set (k : Key) (f : KeyField) (value : LeafValue) : Except FieldError Key := do
  k.checkTarget f
  let stored ← f.type.store value
  pure { k with values := Object.replaceEntry f.name (fun _ => stored) k.values }

/-- A value as diagnostics of keys show it. -/
def shownValue : LeafValue → String
  | .empty => "()"
  | .bool b => if b then "true" else "false"
  | .int n => toString n.toInt
  | .uint n => toString n.toNat
  | .string s => Text.quoted s
  | .binary bytes => LeafValue.bracketed (bytes.map fun b => toString b.toNat)

/-- The text of a key in diagnostics. -/
def text (k : Key) : String :=
  let shown := k.type.labels.map fun (label, name) =>
    label ++ ": " ++ ((k.values.lookup name).map shownValue).getD ""
  if shown.isEmpty then k.type.label
  else k.type.label ++ " \x7b " ++ ", ".intercalate shown ++ " \x7d"

end Key

/-- The key of a class in which every leaf has its default. -/
def KeyClass.new (c : KeyClass) : Key :=
  { type := c,
    values := (c.leaves.filter fun l => l.owner == c.typeName).map fun l =>
      (l.name, l.type.default) }

end YangBinding
