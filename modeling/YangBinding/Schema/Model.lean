import YangBinding.Calendar.Date
import YangBinding.Schema.Id
import YangBinding.Schema.Kind

/-!
# Schema models

A schema model is the compiled form of a set of modules: a sequence of nodes in the order of their
creation. Nodes link to each other by their place in the sequence. A node is created after its
parent, and an augment after its target, so links up lead to earlier nodes and links down to later
ones. A `Ref` is a node together with its model; it follows a link only in the right direction,
which is why every walk over a schema ends.

## Main definitions

* `Node`: one construct of a schema, with its links
* `Model`: the nodes of a set of modules
* `Ref`: a node of a model

## Main statements

* `Ref.index_lt_of_earlier?`: links up lead to earlier nodes
* `Ref.height_lt_of_mem_later`: links down lead to later nodes
-/

namespace YangBinding.Schema

open Calendar (Date)

/-- One construct of a schema. -/
structure Node where
  id : Id
  kind : Kind
  /-- The revision of a module. -/
  revision : Option Date := none
  parent : Option Nat := none
  /-- The children in the order of declaration, augments of a module among them. -/
  children : List Nat := []
  /-- The names of the key leaves of a list, in the order of declaration. -/
  keys : List String := []
  /-- The augments that target this node, in the order of compilation. -/
  augments : List Nat := []
  /-- The target of an augment. -/
  target : Option Nat := none
  /-- The class whose objects hold the content of the node. -/
  className : Option String := none
  /-- The node is configuration, not state. -/
  config : Bool := true
  deriving DecidableEq, Repr, Inhabited

/-- A set of modules that were compiled together. -/
structure Model where
  id : String
  nodes : Array Node := #[]
  /-- The module nodes in the order of declaration. -/
  modules : List Nat := []
  deriving DecidableEq, Repr, Inhabited

/-- A node of a model. -/
structure Ref where
  model : Model
  index : Fin model.nodes.size

namespace Model

/-- The node at a place of the sequence. -/
def ref? (m : Model) (i : Nat) : Option Ref :=
  if h : i < m.nodes.size then some ⟨m, i, h⟩ else none

/-- All nodes in the order of creation. -/
def refs (m : Model) : List Ref :=
  (List.finRange m.nodes.size).map fun i => ⟨m, i⟩

/-- The module nodes in the order of declaration. -/
def moduleRefs (m : Model) : List Ref :=
  m.modules.filterMap m.ref?

end Model

namespace Ref

/-- What the model says about the node. -/
def node (r : Ref) : Node := r.model.nodes[r.index]

/-- Nodes are the same when they have the same place in the same model; models that are in use
together differ in their identifiers. -/
instance : BEq Ref where
  beq a b := a.model.id == b.model.id && a.index.val == b.index.val

def id (r : Ref) : Id := r.node.id

def name (r : Ref) : String := r.id.name

def ns (r : Ref) : Option String := r.id.ns

def kind (r : Ref) : Kind := r.node.kind

def revision (r : Ref) : Option Date := r.node.revision

def keys (r : Ref) : List String := r.node.keys

def className (r : Ref) : Option String := r.node.className

/-! ## Links -/

/-- Where a link up leads; a link that does not lead to an earlier node is void. -/
def earlier? (r : Ref) (link : Option Nat) : Option Ref :=
  link.bind fun i => if h : i < r.index then some ⟨r.model, i, by omega⟩ else none

/-- Where links down lead; a link that does not lead to a later node is void. -/
def later (r : Ref) (links : List Nat) : List Ref :=
  links.filterMap fun i : Nat => if r.index.val < i then r.model.ref? i else none

/-- The number of nodes from this one to the end of its model. -/
def height (r : Ref) : Nat := r.model.nodes.size - r.index

theorem index_lt_of_earlier? {r p : Ref} {link : Option Nat} (h : r.earlier? link = some p) :
    p.index.val < r.index.val := by
  simp only [earlier?, Option.bind_eq_some_iff] at h
  obtain ⟨i, -, h⟩ := h
  split at h
  · cases h
    assumption
  · cases h

theorem model_of_earlier? {r p : Ref} {link : Option Nat} (h : r.earlier? link = some p) :
    p.model = r.model := by
  simp only [earlier?, Option.bind_eq_some_iff] at h
  obtain ⟨i, -, h⟩ := h
  split at h <;> cases h
  rfl

theorem mem_later_iff {r c : Ref} {links : List Nat} :
    c ∈ r.later links ↔ c.model = r.model ∧ c.index.val ∈ links ∧ r.index.val < c.index.val := by
  simp only [later, List.mem_filterMap, Model.ref?]
  constructor
  · rintro ⟨i, hi, h⟩
    split at h
    · split at h
      · cases h
        exact ⟨rfl, hi, by assumption⟩
      · cases h
    · cases h
  · rintro ⟨hm, hi, hlt⟩
    obtain ⟨m, i⟩ := c
    cases hm
    exact ⟨i, hi, by simp_all⟩

theorem height_lt_of_mem_later {r c : Ref} {links : List Nat} (h : c ∈ r.later links) :
    c.height < r.height := by
  obtain ⟨hm, -, hlt⟩ := mem_later_iff.1 h
  have hr := r.index.isLt
  simp only [height, hm]
  omega

/-- The node that this one was declared in; modules have none. -/
def parent? (r : Ref) : Option Ref := r.earlier? r.node.parent

/-- The target of an augment. -/
def target? (r : Ref) : Option Ref := r.earlier? r.node.target

/-- The nodes declared in this one, in order. -/
def children (r : Ref) : List Ref := r.later r.node.children

/-- The augments that target this node, in the order of compilation. -/
def augments (r : Ref) : List Ref := r.later r.node.augments

/-- The first child of a name. -/
def child? (r : Ref) (name : String) : Option Ref :=
  r.children.find? fun c => c.name == name

/-- The cases of a choice: those declared in it, then those that augments contribute. -/
def cases (r : Ref) : List Ref :=
  (r.children ++ r.augments.flatMap children).filter fun c => c.kind == .case

/-- The node is a case of the given choice, declared in it or contributed by an augment of it. -/
def isCaseOf (r choice : Ref) : Bool :=
  r.parent?.any fun p => p == choice || (p.kind == .augment && p.target?.any (· == choice))

end Ref

end YangBinding.Schema
