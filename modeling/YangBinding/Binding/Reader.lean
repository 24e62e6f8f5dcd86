import YangBinding.Binding.Writer

/-!
# Reading data as objects

Every inner data node becomes an object of the class that its schema node is bound to. A child that
was found through layers is stored on an object for each layer: an augmentation of the object, or a
case that its choice selects. There is one object for each layer, whichever way the children that
belong to it are spread.

## Main definitions

* `Registry.readObject`: the object of a data node
* `Registry.fill`: stores children, layer by layer
* `Registry.read`: the objects of positioned data
-/

namespace YangBinding.Registry

open Schema (DataChild Layer Ref)
open YangBinding.Tree (Node ResourceData ResourceId)

/-- Layers are the same when they are at the same place of the schema. -/
instance : BEq Layer where
  beq
    | .augment a, .augment b => a == b
    | .case choice a, .case choice' b => choice == choice' && a == b
    | _, _ => false

/-- A child whose schema node is known and that waits to be stored. -/
structure Pending where
  /-- The layers that are still to be passed, outermost first. -/
  layers : List Layer
  schema : Ref
  data : Node
  /-- The object of the child, in case it is stored as one. -/
  object : Result Object

/-- The value of a data node that should be a leaf. -/
def leafValue (node : Node) : Result LeafValue :=
  match node.value? with
  | some value => .ok value
  | none => Result.refuse (.innerForLeaf node.key.text)

/-- The schema node of a data node below a schema node, or below the root. -/
def resolveNode (reg : Registry) (parent : Option Ref) (node : Node) : Result DataChild :=
  Result.found (.noNodeUnder node.key.id.text (parent.map Ref.path))
    (reg.childOf? parent node.key.name node.key.ns)

/-- The object in which nothing is set, of the class that a schema node is bound to. -/
def instantiate (reg : Registry) (schema : Ref) : Result Object := do
  let type ← Result.found (.noBoundClass schema.kind schema.path) (reg.classOf? schema)
  pure type.new

/-- Stores a child in the field of its name. -/
def assign (target : Object) (child : Pending) : Result Object := do
  let field ← fieldFor target.type child.schema
  match field.type with
  | .leaf type => do
    Result.ofField (field.setLeaf type (← leafValue child.data) target)
  | .leafList type => do
    Result.ofField (field.pushLeaf type (← leafValue child.data) target)
  | .container typeName => do
    Result.ofField (field.setContainer typeName (← child.object) target)
  | .list typeName => do
    Result.ofField (field.pushEntry typeName (← child.object) target)
  | .choice =>
    throw (.resolution
      (.fieldMismatch field.name target.type.className field.type child.schema.kind))

/-! ## Layers -/

/-- The layer that a child passes next, if there is one. -/
def Pending.next? (child : Pending) : Option Layer := child.layers.head?

/-- The child behind its next layer. -/
def Pending.behind (child : Pending) : Pending := { child with layers := child.layers.tail }

/-- The children that pass a layer next, behind it. -/
def behind (layer : Layer) (children : List Pending) : List Pending :=
  (children.filter fun c => c.next?.any (layer == ·)).map Pending.behind

/-- Each layer once, in the order of first appearance. -/
def distinct : List Layer → List Layer
  | [] => []
  | layer :: layers => layer :: (distinct layers).filter fun l => !(layer == l)

/-- The layers that children pass next, each once, in the order of their first appearance. -/
def nextLayers (children : List Pending) : List Layer :=
  distinct (children.filterMap Pending.next?)

/-- The number of layers that children are still to pass. -/
def layerCount : List Pending → Nat
  | [] => 0
  | c :: children => c.layers.length + layerCount children

theorem layerCount_append (children others : List Pending) :
    layerCount (children ++ others) = layerCount children + layerCount others := by
  induction children with
  | nil => simp [layerCount]
  | cons c children ih => simp [layerCount, ih, Nat.add_assoc]

theorem beq_self (layer : Layer) : (layer == layer) = true := by
  cases layer <;> simp [BEq.beq]

theorem layerCount_behind_le (layer : Layer) (children : List Pending) :
    layerCount (behind layer children) ≤ layerCount children := by
  induction children with
  | nil => simp [behind, layerCount]
  | cons c cs ih =>
    simp only [behind, layerCount, List.filter_cons] at ih ⊢
    split
    · simp only [List.map_cons, layerCount, Pending.behind, List.length_tail]
      omega
    · omega

theorem mem_of_mem_distinct {layer : Layer} {layers : List Layer} (h : layer ∈ distinct layers) :
    layer ∈ layers := by
  induction layers with
  | nil => exact h
  | cons l ls ih =>
    rcases List.mem_cons.1 h with rfl | h
    · exact List.mem_cons_self
    · exact List.mem_cons_of_mem _ (ih (List.mem_filter.1 h).1)

/-- Behind a layer that some child passes next, fewer layers are left. -/
theorem layerCount_behind_lt {layer : Layer} {children : List Pending}
    (h : layer ∈ nextLayers children) :
    layerCount (behind layer children) < layerCount children := by
  obtain ⟨c, hc, hn⟩ := List.mem_filterMap.1 (mem_of_mem_distinct h)
  obtain ⟨before, after, rfl⟩ := List.append_of_mem hc
  have hb := layerCount_behind_le layer before
  have ha := layerCount_behind_le layer after
  have hl : 1 ≤ c.layers.length := by
    cases hl : c.layers <;> simp_all [Pending.next?]
  simp only [behind, layerCount_append, layerCount, List.filter_append, List.filter_cons,
    List.map_append, List.map_cons, hn, Option.any_some, beq_self, if_true,
    Pending.behind, List.length_tail] at ha hb ⊢
  omega

/-- Stores children on an object: those that pass no layer in its fields, all others on one new
object for each layer. -/
def fill (reg : Registry) (children : List Pending) (target : Object) : Result Object := do
  let target ← (children.filter fun c => c.layers.isEmpty).foldlM assign target
  (nextLayers children).attach.foldlM (fun target ⟨layer, h⟩ => do
    have := layerCount_behind_lt h
    let content ← reg.instantiate layer.node
    let content ← fill reg (behind layer children) content
    match layer with
    | .augment _ => pure (target.addAugmentation content)
    | .case choice _ => do
      let field ← Result.found (.noChoiceField target.className choice.name)
        ((target.type.field? choice.name).filter fun f => f.type == .choice)
      Result.ofField (field.setCase content target)) target
termination_by layerCount children

/-! ## Objects -/

mutual

/-- The object of a data node. -/
def readObject (reg : Registry) : Node → Ref → Result Object
  | .leaf key _ _, schema =>
    Result.refuse (.leafForInner key.text schema.kind schema.path)
  | .inner _ _ children, schema => do
    let object ← reg.instantiate schema
    if schema.kind = .anydata then readPayloads reg schema children object
    else do
      let pending ← readChildren reg schema children
      reg.fill pending object

/-- Attaches the objects of the payloads of an anydata holder. -/
def readPayloads (reg : Registry) (schema : Ref) : List Node → Object → Result Object
  | [], holder => .ok holder
  | node :: nodes, holder => do
    let child ← reg.resolveNode (some schema) node
    let payload ← readObject reg node child.node
    readPayloads reg schema nodes (holder.addAnydata payload)

/-- The children of a data node, each with its schema node. All of them are resolved before the
first is stored. -/
def readChildren (reg : Registry) (schema : Ref) : List Node → Result (List Pending)
  | [] => .ok []
  | node :: nodes => do
    let child ← reg.resolveNode (some schema) node
    let rest ← readChildren reg schema nodes
    pure ({ layers := child.layers, schema := child.node, data := node,
            object := readObject reg node child.node } :: rest)

end

/-! ## Positioned data -/

/-- A value joins the leaf-list that was read last, or starts an item of its own. -/
def addLeafItem (schema : Ref) (leaf : LeafId) (value : LeafValue) (items : List Item) :
    List Item :=
  match items.getLast? with
  | some (.leaf last values) =>
    if schema.kind = .leafList ∧ last = leaf then
      items.dropLast ++ [.leaf last (values ++ [value])]
    else items ++ [.leaf leaf [value]]
  | _ => items ++ [.leaf leaf [value]]

/-- Adds the item of a data node below a base. -/
def readItem (reg : Registry) (base : Option Ref) (items : List Item) (node : Node) :
    Result (List Item) := do
  let child ← reg.resolveNode base node
  if child.node.kind.isLeafLike then do
    let value ← leafValue node
    let leaf ← leafId child.node
    pure (addLeafItem child.node leaf value items)
  else do
    pure (items ++ [.object (← reg.readObject node child.node)])

/-- The id below which the nodes of positioned data are read: the parent of the given id if that
ends at the first node itself. -/
def rootId (data : ResourceData) : ResourceId :=
  match data.id.lastKey?, data.nodes.head? with
  | some last, some first =>
    if last.id = first.key.id then data.id.parent?.getD data.id else data.id
  | _, _ => data.id

/-- The objects of positioned data. -/
def read (reg : Registry) (data : ResourceData) : Result ObjectData := do
  let base ← reg.resolve (rootId data)
  let id ← reg.toObjectId (rootId data)
  pure { id, items := ← data.nodes.foldlM (reg.readItem base) [] }

end YangBinding.Registry
