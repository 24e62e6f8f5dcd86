import YangBinding.Leaf.Scalar
import YangBinding.Schema.Kind

/-!
# Classes of objects

A class describes the objects that hold the content of one schema node: the node refers to it by
its class name, and its fields are named like the children of the node. Every field belongs to a
type of objects and works on objects of that type alone, whichever class lists it.

## Main definitions

* `Field`: a named field and what it holds
* `KeyClass`: the class of the keys of a list
* `Class`: the class of an object
-/

namespace YangBinding

/-- What a field holds. Containers and lists name the type of their objects; a choice holds an
object of any type, whose class tells which case is selected. -/
inductive FieldType where
  | leaf (type : Scalar)
  | leafList (type : Scalar)
  | container (typeName : String)
  | list (typeName : String)
  | choice
  deriving DecidableEq, Repr

/-- The name of the kind of a field. -/
def FieldType.kindName : FieldType → String
  | .leaf _ => "leaf"
  | .leafList _ => "leaf-list"
  | .container _ => "container"
  | .list _ => "list"
  | .choice => "choice"

/-- A field holds what a schema node of a kind declares: a leaf holds a leaf and so on, and a
container every node that has at most one object. -/
def FieldType.suits (kind : Schema.Kind) : FieldType → Bool
  | .leaf _ => kind == .leaf
  | .leafList _ => kind == .leafList
  | .container _ => kind.isSingleObject
  | .list _ => kind == .list
  | .choice => kind == .choice

/-- A field of an object. -/
structure Field where
  /-- The name of the child of the schema node that the field stands for. -/
  name : String
  /-- The type of the objects that have the field. -/
  owner : String
  type : FieldType
  deriving DecidableEq, Repr

/-- A leaf of a key. -/
structure KeyField where
  name : String
  /-- The type of the keys that have the leaf. -/
  owner : String
  type : Scalar
  deriving DecidableEq, Repr

/-- The class of the keys of a list. -/
structure KeyClass where
  className : String
  typeName : String
  leaves : List KeyField
  /-- How diagnostics show a key of the class. -/
  label : String
  /-- The labels of the leaves in diagnostics, each with the name of its leaf. -/
  labels : List (String × String)
  deriving DecidableEq, Repr

/-- The class of an object. -/
structure Class where
  /-- The name by which schema nodes refer to the class. -/
  className : String
  /-- The type of the objects of the class. -/
  typeName : String
  fields : List Field
  /-- The class of the keys, for list entries. -/
  key : Option KeyClass := none
  deriving DecidableEq, Repr

/-- The leaf of a name. -/
def KeyClass.leaf? (c : KeyClass) (name : String) : Option KeyField :=
  c.leaves.find? fun l => l.name == name

/-- The field of a name. -/
def Class.field? (c : Class) (name : String) : Option Field :=
  c.fields.find? fun f => f.name == name

/-- The fields that objects of the class really have. -/
def Class.ownFields (c : Class) : List Field :=
  c.fields.filter fun f => f.owner == c.typeName

end YangBinding
