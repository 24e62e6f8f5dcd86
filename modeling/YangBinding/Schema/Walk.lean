import YangBinding.Schema.Model

/-!
# Walks over a schema

Going up from a node leads through its enclosing nodes; from an augment the walk goes on at its
target, so that it passes the places where the data of the node is found and ends below a module.
Choices, cases and augments on the way have no place of their own in data.

## Main definitions

* `Ref.ancestry`: the nodes on the way up
* `Ref.enclosing`, `Ref.module`: the nodes, and the module, that a node was declared in
* `Ref.dataAncestors`, `Ref.dataParent?`: the nodes above that show up in data
* `Ref.path`, `Ref.targetPath`: the names on the way
-/

namespace YangBinding.Schema.Ref

/-- The next node on the way up: the target of an augment, the parent of any other node. -/
def up? (r : Ref) : Option Ref :=
  match r.kind with
  | .module => none
  | .augment => r.target?
  | _ => r.parent?

theorem index_lt_of_up? {r p : Ref} (h : r.up? = some p) : p.index.val < r.index.val := by
  unfold up? at h
  split at h
  · cases h
  · exact index_lt_of_earlier? h
  · exact index_lt_of_earlier? h

/-- A node and the nodes on the way up, innermost first, without the module that it ends at. -/
def ancestry (r : Ref) : List Ref :=
  if r.kind = .module then []
  else match h : r.up? with
    | none => [r]
    | some above =>
      have := index_lt_of_up? h
      r :: above.ancestry
termination_by r.index.val

/-- The nodes that a node was declared in, innermost first, the module last. -/
def enclosing (r : Ref) : List Ref :=
  match h : r.parent? with
  | none => []
  | some parent =>
    have : parent.index.val < r.index.val := index_lt_of_earlier? h
    parent :: parent.enclosing
termination_by r.index.val

/-- The module that a node was declared in. -/
def module (r : Ref) : Ref :=
  r.enclosing.getLast?.getD r

/-- The nearest class of the nodes that a node was declared in. Cases, augments and modules
count. -/
def enclosingClass? (r : Ref) : Option String :=
  r.enclosing.findSome? className

/-- Choices, cases and augments arrange the schema and never show up in data. -/
def isLayer (r : Ref) : Bool :=
  r.kind.isTransparent || r.kind == .augment

/-- The nodes above that show up in data, innermost first. -/
def dataAncestors (r : Ref) : List Ref :=
  match r.parent? with
  | some parent => parent.ancestry.filter fun a => !a.isLayer
  | none => []

/-- The nearest node above that shows up in data; top-level nodes have none. -/
def dataParent? (r : Ref) : Option Ref :=
  r.dataAncestors.head?

/-- The names from the top of the schema down to the node, separated by slashes, behind the name of
the module that it was declared in. An augment on the way is named by the path of its target. -/
def path (r : Ref) : String :=
  r.module.name ++ ":/" ++ "/".intercalate (r.ancestry.reverse.map name)

/-- The names from the top of the schema down to the node, each behind a slash, augments left
out. -/
def targetPath (r : Ref) : String :=
  "/" ++ "/".intercalate ((r.ancestry.filter fun a => a.kind != .augment).reverse.map name)

/-- No layer is ever among the ancestors of data. -/
theorem not_isLayer_of_mem_dataAncestors {r p : Ref} (h : p ∈ r.dataAncestors) :
    p.isLayer = false := by
  unfold dataAncestors at h
  split at h
  · simpa using (List.mem_filter.1 h).2
  · cases h

end YangBinding.Schema.Ref
