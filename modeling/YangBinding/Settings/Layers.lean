import YangBinding.Leaf.Scalar
import YangBinding.Settings.Value
import YangBinding.Text.Split

/-!
# Layers of settings

Settings come in layers, each of which adds to those before it. A table adds its entries one by one
to the table that is there; anything else replaces what is there. Names count in small letters. At
the top of a layer a name may be a path, whose names stand between points and whose positions in
arrays stand between brackets.

## Main definitions

* `put`, `putAll`: one entry, or all entries of a table, laid over a value
* `Step`, `pathOf`: the path that a name spells
* `overlay`: a layer over those before it
-/

namespace YangBinding.Settings

/-- A name in small letters. -/
def lowered (name : String) : String :=
  String.ofList (name.toList.map Char.toLower)

/-- Changes the entry of a name. What is not a table gives way to one. -/
def alterEntry (name : String) (change : Option Value → Value) (root : Value) : Value :=
  .table (Toml.Table.alter (lowered name) change root.entries)

mutual

/-- Lays a value over the entry of a name. -/
def put (root : Value) (name : String) : Value → Value
  | .table incoming => alterEntry name (fun old => putAll (old.getD (.table [])) incoming) root
  | value => alterEntry name (fun _ => value) root

/-- Lays entries over a value, one after the other. Without entries it stays what it is. -/
def putAll (root : Value) : List (String × Value) → Value
  | [] => root
  | (name, value) :: entries => putAll (put root name value) entries

end

/-! ## Paths -/

/-- A step of a path. -/
inductive Step where
  /-- To the entry of a table. -/
  | name (name : String)
  /-- To an item of an array; a negative position counts from the end. -/
  | position (index : Int)
  deriving DecidableEq, Repr

/-- The characters of the names in a path. -/
def isNameChar (c : Char) : Bool :=
  c.isAlphanum || c = '_' || c = '-' || c = ' '

/-- The characters that may stand around a position. -/
def isPadding (c : Char) : Bool :=
  c = ' ' || c = '\t'

/-- A text without padding in front. -/
def unpadded (cs : List Char) : List Char := cs.dropWhile isPadding

/-- The position in a text that ends with a closing bracket. -/
def position? (text : String) : Option Step := do
  let [inner, []] := Text.split ']' text.toList | none
  let cs := (unpadded (unpadded inner).reverse).reverse
  if cs.head? = some '+' then none
  let index ← Text.integer? true cs
  if Scalar.FitsSigned .w64 index then some (.position index) else none

/-- The steps in a text between two points: a name, and positions behind it. -/
def stepsOf? (text : String) : Option (List Step) :=
  match Text.pieces '[' text with
  | name :: positions =>
    if name != "" && name.toList.all isNameChar then
      (positions.mapM position?).map (.name name :: ·)
    else none
  | [] => none

/-- The steps of the path that a name spells. A name that spells none is a step as a whole. -/
def pathOf (name : String) : List Step :=
  match (Text.pieces '.' name).mapM stepsOf? with
  | some steps => steps.flatten
  | none => [.name name]

/-- Changes an item of a list, which is filled up to it where it is too short. -/
def alterItem {α : Type} (fill : α) (change : α → α) : Nat → List α → List α
  | 0, [] => [change fill]
  | 0, item :: items => change item :: items
  | n + 1, [] => fill :: alterItem fill change n []
  | n + 1, item :: items => item :: alterItem fill change n items

/-- The place of a position in a list of some length. -/
def placeOf (length : Nat) (index : Int) : Nat :=
  if 0 ≤ index then index.toNat else length - index.natAbs

/-- Changes what is one step away. What cannot be entered by the step gives way to what can. -/
def alterStep (step : Step) (change : Value → Value) (root : Value) : Value :=
  match step with
  | .name name => alterEntry name (fun old => change (old.getD .absent)) root
  | .position index =>
    .array (alterItem .absent change (placeOf root.items.length index) root.items)

/-- Lays a value over what is at the end of a path. -/
def putAt : List Step → Value → Value → Value
  | [], _, root => root
  | [.name name], value, root => put root name value
  | [.position index], value, root => alterStep (.position index) (fun _ => value) root
  | step :: path, value, root => alterStep step (putAt path value) root

/-- A layer over those before it. -/
def overlay (root : Value) (layer : Table) : Value :=
  layer.foldl (fun root (name, value) => putAt (pathOf name) value root) root

end YangBinding.Settings
