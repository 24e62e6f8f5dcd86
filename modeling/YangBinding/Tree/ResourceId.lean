import YangBinding.Tree.Node

/-!
# Resource ids

The path from the schema root to a data node: the keys of the nodes on the way. The root itself is
the empty path. Where an id is written as a list of keys, the root is its first key.

## Main definitions

* `ResourceId`: a path of keys
* `ResourceData`: data nodes below, or at, a resource id
* `CompositeData`: data nodes with annotations
-/

namespace YangBinding.Tree

/-- The path to a data node. -/
structure ResourceId where
  /-- The keys on the way, outermost first. -/
  segments : List NodeKey := []
  deriving DecidableEq, Repr

namespace ResourceId

/-- The schema root. -/
def root : ResourceId := {}

def isRoot (id : ResourceId) : Bool := id.segments.isEmpty

/-- The keys of the path, that of the root included. -/
def keys (id : ResourceId) : List NodeKey := .root :: id.segments

/-- The path that a list of keys spells; its first key has to be that of the root. -/
def ofKeys? : List NodeKey → Option ResourceId
  | key :: segments => if key = .root then some ⟨segments⟩ else none
  | [] => none

/-- The path one step further. -/
def push (id : ResourceId) (key : NodeKey) : ResourceId := ⟨id.segments ++ [key]⟩

/-- The key of the node itself; the root has none. -/
def lastKey? (id : ResourceId) : Option NodeKey := id.segments.getLast?

/-- The path without its last key; the root has no parent. -/
def parent? (id : ResourceId) : Option ResourceId :=
  if id.isRoot then none else some ⟨id.segments.dropLast⟩

/-- The keys, each behind a slash; a lone slash for the root. -/
def text (id : ResourceId) : String :=
  if id.isRoot then "/" else String.join (id.segments.map fun key => "/" ++ key.text)

/-- Exactly the lists of keys that start at the root spell a path. -/
theorem ofKeys?_eq_some_iff {keys : List NodeKey} {id : ResourceId} :
    ofKeys? keys = some id ↔ keys = id.keys := by
  cases keys with
  | nil => simp [ofKeys?, ResourceId.keys]
  | cons key segments =>
    cases id
    by_cases h : key = .root <;> simp [ofKeys?, ResourceId.keys, h]

theorem parent?_push (id : ResourceId) (key : NodeKey) : (id.push key).parent? = some id := by
  simp [parent?, push, isRoot]

theorem lastKey?_push (id : ResourceId) (key : NodeKey) : (id.push key).lastKey? = some key := by
  simp [lastKey?, push]

end ResourceId

/-- Data nodes positioned by a resource id. -/
structure ResourceData where
  id : ResourceId
  nodes : List Node := []
  deriving DecidableEq, Repr

/-- A remark on a data node. -/
structure Annotation where
  name : String
  value : String
  deriving DecidableEq, Repr

/-- The remarks on one data node. -/
structure AnnotatedNode where
  id : ResourceId
  annotations : List Annotation
  deriving DecidableEq, Repr

/-- Data nodes together with remarks on some of them. -/
structure CompositeData where
  data : ResourceData
  annotations : List AnnotatedNode := []
  deriving DecidableEq, Repr

end YangBinding.Tree
