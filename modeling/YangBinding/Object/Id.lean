import YangBinding.Error
import YangBinding.Object.Key

/-!
# Object ids

A location in the graph of objects, addressed by class names instead of schema names. The empty id
is the root. A leaf ends an id.

## Main definitions

* `LeafId`: a leaf, addressed by the class of the object that holds it
* `Step`, `ObjectId`: a path of classes, keys and leaves
* `ObjectData`: objects and single leaves positioned by an id
-/

namespace YangBinding

/-- A leaf of the objects of a class. -/
structure LeafId where
  /-- The class of the node that holds the leaf. -/
  owner : String
  name : String
  deriving DecidableEq, Repr

def LeafId.text (l : LeafId) : String := l.owner ++ "." ++ l.name

/-- One step of an object id. -/
inductive Step where
  /-- An object that occurs at most once. -/
  | child (className : String)
  /-- An entry of a list. -/
  | entry (className : String) (key : Key)
  /-- A leaf, or a leaf-list as a whole. -/
  | leaf (leaf : LeafId)
  /-- An entry of a leaf-list. -/
  | leafEntry (leaf : LeafId) (value : LeafValue)
  deriving Repr

namespace Step

/-- The step leads to a leaf. -/
def isLeaf : Step → Bool
  | leaf _ | leafEntry .. => true
  | child _ | entry .. => false

/-- The class of the object that a step leads to; a leaf has none. -/
def className? : Step → Option String
  | child className | entry className _ => some className
  | leaf _ | leafEntry .. => none

/-- The text of a step. -/
def text : Step → String
  | child className => className
  | entry className key => className ++ "[" ++ key.text ++ "]"
  | leaf l => l.text
  | leafEntry l value => l.text ++ "[.=" ++ value.text ++ "]"

/-- Equality of steps; keys are compared by their values. -/
instance : BEq Step where
  beq
    | child a, child b => a == b
    | entry a k, entry b l => a == b && k == l
    | leaf a, leaf b => a == b
    | leafEntry a v, leafEntry b w => a == b && v == w
    | _, _ => false

end Step

/-- A path to a location in the graph of objects. -/
structure ObjectId where
  steps : List Step := []
  deriving Repr, BEq

namespace ObjectId

def root : ObjectId := {}

def isRoot (id : ObjectId) : Bool := id.steps.isEmpty

/-- The id one step further; nothing follows a leaf. -/
def push (id : ObjectId) (step : Step) : Result ObjectId :=
  match id.steps.getLast? with
  | some last =>
    if last.isLeaf then Result.refuse (.afterLeaf step.text last.text)
    else .ok ⟨id.steps ++ [step]⟩
  | none => .ok ⟨id.steps ++ [step]⟩

/-- The steps, each behind a slash; a lone slash for the root. -/
def text (id : ObjectId) : String :=
  if id.isRoot then "/" else String.join (id.steps.map fun step => "/" ++ step.text)

end ObjectId

/-- What may be positioned by an object id. -/
inductive Item where
  | object (object : Object)
  /-- A leaf with its one value, or a leaf-list with its values, outside of any object. -/
  | leaf (leaf : LeafId) (values : List LeafValue)
  deriving Repr

/-- Equality of items. -/
instance : BEq Item where
  beq
    | .object a, .object b => a == b
    | .leaf a vs, .leaf b ws => a == b && vs == ws
    | _, _ => false

/-- Objects and leaves positioned by an id. -/
structure ObjectData where
  id : ObjectId := {}
  items : List Item := []
  deriving Repr, BEq

end YangBinding
