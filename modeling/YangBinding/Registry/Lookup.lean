import YangBinding.Registry.Basic
import YangBinding.Schema.Lookup
import YangBinding.Tree.ResourceId

/-!
# Resolving data by name

Data names its nodes, with or without namespaces. Names are resolved from the root down: at the top
among the modules of the registry, below an anydata node among its registered payloads, and
everywhere else among the data children of the schema node. Where no namespace is given, the one of
the parent is tried first, so that a name that a foreign augment repeats stays with its owner.

## Main definitions

* `Registry.topLevel?`: a top-level data node
* `Registry.dataChild?`, `Registry.preferredChild?`: a data child of a node or of the root
* `Registry.resolve`: the schema node at a resource id
-/

namespace YangBinding.Registry

open Schema (DataChild Kind Ref)
open YangBinding.Tree (NodeKey ResourceId Selector)

/-- A top-level data node. The module of the namespace, if one is given, is searched before all
others; these come in the order of their names, each at its selected revision. -/
def topLevel? (reg : Registry) (name : String) (ns : Option String) : Option DataChild :=
  (ns.bind fun n => (reg.namespaces.select? n).bind fun module => module.findDataChild? name ns) <|>
    reg.modules.selected.findSome? fun module => module.findDataChild? name ns

/-- A data child of a node, or of the root. -/
def dataChild? (reg : Registry) (parent : Option Ref) (name : String) (ns : Option String) :
    Option DataChild :=
  match parent with
  | none => reg.topLevel? name ns
  | some node =>
    if node.kind = .anydata then
      node.className.bind fun holder => (reg.payloadNamed? holder name ns).map fun p => { node := p }
    else node.findDataChild? name ns

/-- A data child of a node, or of the root. Without a namespace the inherited one is tried
first. -/
def preferredChild? (reg : Registry) (parent : Option Ref) (name : String)
    (ns inherited : Option String) : Option DataChild :=
  match ns, inherited with
  | some _, _ => reg.dataChild? parent name ns
  | none, some n => reg.dataChild? parent name (some n) <|> reg.dataChild? parent name none
  | none, none => reg.dataChild? parent name none

/-- A data child of a node, or of the root, that inherits the namespace of the node. -/
def childOf? (reg : Registry) (parent : Option Ref) (name : String) (ns : Option String) :
    Option DataChild :=
  reg.preferredChild? parent name ns (parent.bind Ref.ns)

/-- The ways in which an instance of a node may be addressed: a list by its entries, a leaf-list by
its entries or as a whole, anything else by its name alone. -/
def fitsSelector (kind : Kind) (selector : Selector) : Bool :=
  match kind, selector with
  | .list, .list _ => true
  | .list, _ => false
  | .leafList, .list _ => false
  | .leafList, _ => true
  | _, .single => true
  | _, _ => false

/-- The schema node of one key of a resource id, below the node of the keys before it. -/
def resolveKey (reg : Registry) (id : ResourceId) (parent : Option Ref) (key : NodeKey) :
    Result Ref := do
  let child ← Result.found (.noNodeForKey key.text id.text) (reg.childOf? parent key.name key.ns)
  if fitsSelector child.node.kind key.selector then pure child.node
  else Result.refuse (.keyMismatch key.text child.node.kind child.node.name)

/-- The schema node at a resource id, none for the root. -/
def resolve (reg : Registry) (id : ResourceId) : Result (Option Ref) :=
  id.segments.foldlM (fun parent key => some <$> reg.resolveKey id parent key) none

end YangBinding.Registry
