import YangBinding.Object.Id
import YangBinding.Registry.Lookup

/-!
# Addresses

The same location has two addresses: a resource id names schema nodes, an object id names classes
and typed keys. Either is converted into the other with the help of the registry.

An object id may start anywhere in the schema; the data nodes above its first step are put in front
of the resource id, unless one of them is a list, of which the id does not say which entry is meant.
Operations have no class and therefore no step.

## Main definitions

* `Registry.toResourceId`: the resource id of an object id, and the schema node there
* `Registry.toObjectId`: the object id of a resource id
* `leafId`: the object address of a leaf
-/

namespace YangBinding

open Schema (Kind Ref)
open YangBinding.Tree (KeyLeaf NodeKey ResourceId Selector)

/-- A leaf is addressed by the nearest class around it. -/
def leafId (leaf : Ref) : Result LeafId := do
  let owner ← Result.found (.noEnclosingClass leaf.path) leaf.enclosingClass?
  pure { owner, name := leaf.name }

namespace Registry

/-! ## From objects to data -/

/-- Classes of layers and modules lead to no data node. -/
def isAddressable (kind : Kind) : Bool :=
  !(kind.isTransparent || kind == .augment || kind == .module)

/-- The schema node that the first step of an object id leads to. -/
def locateFirst (reg : Registry) : Step → Result Ref
  | .child c | .entry c _ => do
    let node ← reg.nodeOfClass c
    if isAddressable node.kind then pure node
    else throw (.resolution (.notADataClass c node.kind node.name))
  | .leaf l | .leafEntry l _ => do
    let owner ← reg.nodeOfClass l.owner
    let child ← Result.found (.noLeaf l.owner l.name) (owner.findDataChild? l.name none)
    pure child.node

/-- The name, and the namespace if known, by which a step is looked up below a node. -/
def stepName (reg : Registry) : Step → Result (String × Option String)
  | .child c | .entry c _ => do
    let node ← reg.nodeOfClass c
    pure (node.name, node.ns)
  | .leaf l | .leafEntry l _ => .ok (l.name, none)

/-- The schema node that a later step leads to. A step to an object has to end at a node of the
class that it names. -/
def locateBelow (reg : Registry) (parent : Ref) (step : Step) : Result Ref := do
  let (name, ns) ← reg.stepName step
  let child ← Result.found (.noChild name parent.path) (reg.childOf? (some parent) name ns)
  match step.className? with
  | some c =>
    if child.node.className = some c then pure child.node
    else throw (.resolution (.notAChild c parent.path))
  | none => pure child.node

/-- The key of a data node above the first step, which must not be an entry of a list. -/
def ancestorKey (node : Ref) : Result NodeKey :=
  if node.kind = .list then Result.refuse (.listAbove node.path) else .ok { id := node.id }

/-- The key leaf of a list entry for a declared key. -/
def keyLeafOf (list : Ref) (key : Key) (name : String) : Result KeyLeaf := do
  let field ← Result.found (.noKeyLeaf key.type.className name) (key.type.leaf? name)
  let value ← Result.ofField (key.get field)
  let leaf ← Result.found (.noKeyLeafInList list.path name) (list.child? name)
  pure { id := leaf.id, value }

/-- A step to a leaf has to end at a leaf. -/
def checkLeaf (node : Ref) (leaf : LeafId) : Result Unit :=
  if node.kind.isLeafLike then .ok ()
  else .error (.resolution (.notALeaf leaf.text node.kind node.path))

/-- The key of the data node that a step leads to. -/
def stepKey (node : Ref) : Step → Result NodeKey
  | .child _ =>
    if node.kind = .list then Result.refuse (.listWithoutKey node.path) else .ok { id := node.id }
  | .entry _ key =>
    if node.kind = .list then do
      let leaves ← node.keys.mapM (keyLeafOf node key)
      pure { id := node.id, selector := .list leaves }
    else Result.refuse (.unexpectedKey node.kind node.path)
  | .leaf l => do
    checkLeaf node l
    pure { id := node.id }
  | .leafEntry l value => do
    checkLeaf node l
    if node.kind = .leafList then pure { id := node.id, selector := .leafList value }
    else Result.refuse (.unexpectedLeafValue node.path)

/-- Follows the steps of an object id from the location reached so far. -/
def followSteps (reg : Registry) (id : ObjectId) :
    List Step → ResourceId → Option Ref → Result (ResourceId × Option Ref)
  | [], rid, current => .ok (rid, current)
  | step :: rest, rid, current => do
    if step.isLeaf && !rest.isEmpty then Result.refuse (.leafNotLast step.text id.text)
    let (node, above) ← match current with
      | none => do
        let node ← reg.locateFirst step
        pure (node, ← node.dataAncestors.reverse.mapM ancestorKey)
      | some parent => do
        pure (← reg.locateBelow parent step, [])
    let key ← stepKey node step
    followSteps reg id rest ⟨rid.segments ++ above ++ [key]⟩ (some node)

/-- The resource id of an object id, and the schema node there, none for the root. -/
def toResourceId (reg : Registry) (id : ObjectId) : Result (ResourceId × Option Ref) :=
  reg.followSteps id id.steps .root none

/-! ## From data to objects -/

/-- The class of a node, which has to be there. -/
def requireClass (node : Ref) : Result String :=
  Result.found (.noClass node.kind node.path) node.className

/-- The typed key of a list entry. -/
def entryKey (reg : Registry) (list : Ref) (leaves : List KeyLeaf) : Result Key := do
  let type ← Result.found (.noKeyClass list.path) ((reg.classOf? list).bind Class.key)
  leaves.foldlM (fun key leaf => do
    let field ← Result.found (.noKeyLeaf type.className leaf.id.name) (type.leaf? leaf.id.name)
    Result.ofField (key.set field leaf.value)) type.new

/-- The step to a data node; operations need none. -/
def keyStep? (reg : Registry) (node : Ref) (key : NodeKey) : Result (Option Step) :=
  match node.kind, key.selector with
  | .rpc, _ => .ok none
  | .leaf, _ | .leafList, .single => do pure (some (.leaf (← leafId node)))
  | .leafList, .leafList value => do pure (some (.leafEntry (← leafId node) value))
  | .list, .list leaves => do
    let className ← requireClass node
    pure (some (.entry className (← reg.entryKey node leaves)))
  | .list, _ | .leafList, .list _ =>
    Result.refuse (.keyMismatch key.text node.kind node.name)
  | _, _ => do pure (some (.child (← requireClass node)))

/-- Follows the keys of a resource id from the location reached so far. -/
def followKeys (reg : Registry) (id : ResourceId) :
    List NodeKey → ObjectId → Option Ref → Result ObjectId
  | [], oid, _ => .ok oid
  | key :: rest, oid, parent => do
    let child ← Result.found (.noNodeForKey key.text id.text) (reg.childOf? parent key.name key.ns)
    let oid ← match ← reg.keyStep? child.node key with
      | some step => oid.push step
      | none => pure oid
    followKeys reg id rest oid (some child.node)

/-- The object id of a resource id. -/
def toObjectId (reg : Registry) (id : ResourceId) : Result ObjectId :=
  reg.followKeys id id.segments .root none

end Registry

end YangBinding
