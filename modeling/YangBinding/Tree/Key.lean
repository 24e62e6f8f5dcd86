import YangBinding.Leaf.Value
import YangBinding.Schema.Id

/-!
# Keys of data nodes

Below one parent a data node is identified by its key: the identifier of its schema node, and for
nodes that may occur many times what tells the instances apart, the key leaves of a list entry or
the value of a leaf-list entry. Keys are compared as they are: two spellings of the same value make
two keys.
-/

namespace YangBinding.Tree

/-- The value of one key leaf of a list entry. -/
structure KeyLeaf where
  id : Schema.Id
  value : LeafValue
  deriving DecidableEq, Hashable, Repr

/-- What tells the instances of a schema node apart. -/
inductive Selector where
  /-- There is nothing to tell apart. -/
  | single
  /-- An entry of a list, known by its key leaves in the order of declaration. -/
  | list (leaves : List KeyLeaf)
  /-- An entry of a leaf-list, known by its value. -/
  | leafList (value : LeafValue)
  deriving DecidableEq, Hashable, Repr

/-- The identity of a data node among its siblings. -/
structure NodeKey where
  id : Schema.Id
  selector : Selector := .single
  deriving DecidableEq, Hashable, Repr

namespace NodeKey

/-- The key that every resource id starts with. -/
def root : NodeKey := { id := .root }

def name (k : NodeKey) : String := k.id.name

def ns (k : NodeKey) : Option String := k.id.ns

/-- The key leaves of a list entry. -/
def keyLeaves? (k : NodeKey) : Option (List KeyLeaf) :=
  match k.selector with
  | .list leaves => some leaves
  | _ => none

/-- The value of a leaf-list entry. -/
def entryValue? (k : NodeKey) : Option LeafValue :=
  match k.selector with
  | .leafList value => some value
  | _ => none

/-- The name, and what tells instances apart between brackets. -/
def text (k : NodeKey) : String :=
  match k.selector with
  | .single => k.name
  | .list leaves =>
    k.name ++ String.join (leaves.map fun l => "[" ++ l.id.name ++ "=" ++ l.value.text ++ "]")
  | .leafList value => k.name ++ "[.=" ++ value.text ++ "]"

end NodeKey

end YangBinding.Tree
