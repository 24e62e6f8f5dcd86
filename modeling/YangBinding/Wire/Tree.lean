import YangBinding.Tree.ChildMap
import YangBinding.Tree.ResourceId
import YangBinding.Wire.Leaf

/-!
# Data trees in JSON

The forms of keys, data nodes, resource ids and documents. A resource id is written as the list of
its keys, that of the root included, and read back only if it starts there. Children are read by
inserting them one after the other, so that of two with the same key the later one stays.

## Main definitions

* `Wire.dataNode`, `Wire.readDataNode`: data nodes
* `Wire.readChildMap`: the children of a data node
* `Wire.compositeData`, `Wire.readCompositeData`: whole documents
-/

namespace YangBinding.Wire

open Json YangBinding.Tree

/-! ## Keys -/

/-- A key leaf as JSON. -/
def keyLeaf (leaf : KeyLeaf) : Json :=
  .object [("schema_id", schemaId leaf.id), ("value", leafValue leaf.value)]

/-- A key leaf. -/
def readKeyLeaf : Reader KeyLeaf
  | 0, _ => none
  | depth + 1, j => do
    let [id, value] ← fields? ["schema_id", "value"] j | none
    return { id := ← required (readSchemaId depth) id,
             value := ← required (readLeafValue depth) value }

/-- What tells instances apart, as JSON. -/
def selector : Selector → Json
  | .single => .string "single"
  | .list leaves => .object [("list", .object [("key_leafs", .array (leaves.map keyLeaf))])]
  | .leafList value => .object [("leaf-list", .object [("value", leafValue value)])]

/-- A record with a single field. -/
def readSole {α : Type} (key : String) (read : Reader α) : Reader α
  | 0, _ => none
  | depth + 1, j => do
    let [field] ← fields? [key] j | none
    required (read depth) field

/-- What tells instances apart. -/
def readSelector : Reader Selector := fun depth j => do
  match ← variant? depth j with
  | ("single", none) | ("single", some .null) => some .single
  | ("list", some content) =>
    (readSole "key_leafs" (readList readKeyLeaf) (depth - 1) content).map .list
  | ("leaf-list", some content) =>
    (readSole "value" readLeafValue (depth - 1) content).map .leafList
  | _ => none

/-- A key as JSON. -/
def nodeKey (key : NodeKey) : Json :=
  .object [("schema_id", schemaId key.id), ("kind", selector key.selector)]

/-- A key. -/
def readNodeKey : Reader NodeKey
  | 0, _ => none
  | depth + 1, j => do
    let [id, kind] ← fields? ["schema_id", "kind"] j | none
    return { id := ← required (readSchemaId depth) id,
             selector := ← required (readSelector depth) kind }

/-! ## Nodes -/

/-- The shape of a data node. -/
def readShape : Reader Shape := fun depth j => do
  Shape.ofText? (← readName depth j)

mutual

/-- A data node as JSON. -/
def dataNode : Node → Json
  | .inner key shape children =>
    .object [("inner", .object [("key", nodeKey key), ("kind", .string shape.text),
      ("children", .array (dataNodes children))])]
  | .leaf key shape value =>
    .object [("leaf", .object [("key", nodeKey key), ("kind", .string shape.text),
      ("value", leafValue value)])]

/-- The items of an array of data nodes. -/
def dataNodes : List Node → List Json
  | [] => []
  | node :: nodes => dataNode node :: dataNodes nodes

end

mutual

/-- A data node. Its variant, its record and its children each open a level; its key needs more
levels than these, so a node without children is not cut short. -/
def readDataNode : Reader Node
  | depth + 3, .object [("inner", content)] => do
    let [key, kind, children] ← fields? ["key", "kind", "children"] content | none
    let key ← required (readNodeKey (depth + 1)) key
    let shape ← required (readShape (depth + 1)) kind
    let children ← defaulted ∅ (readChildMap (depth + 1)) children
    return .inner key shape children.toList
  | depth + 2, .object [("leaf", content)] => do
    let [key, kind, value] ← fields? ["key", "kind", "value"] content | none
    return .leaf (← required (readNodeKey depth) key) (← required (readShape depth) kind)
      (← required (readLeafValue depth) value)
  | _, _ => none

/-- The children of a data node, inserted in the order of the array. -/
def readChildMap : Reader ChildMap
  | 0, _ => none
  | depth + 1, j => do return ChildMap.ofList (← (← items? j).mapM (readDataNode depth))

end

/-! ## Documents -/

/-- A resource id as JSON. -/
def resourceId (id : ResourceId) : Json :=
  .array (id.keys.map nodeKey)

/-- A resource id. -/
def readResourceId : Reader ResourceId := fun depth j => do
  ResourceId.ofKeys? (← readList readNodeKey depth j)

/-- Positioned data nodes as JSON. -/
def resourceData (data : ResourceData) : Json :=
  .object [("resource_id", resourceId data.id), ("data_nodes", .array (dataNodes data.nodes))]

/-- Positioned data nodes. -/
def readResourceData : Reader ResourceData
  | 0, _ => none
  | depth + 1, j => do
    let [id, nodes] ← fields? ["resource_id", "data_nodes"] j | none
    return { id := ← required (readResourceId depth) id,
             nodes := ← required (readList readDataNode depth) nodes }

/-- A remark as JSON. -/
def annotation (a : Annotation) : Json :=
  .object [("name", .string a.name), ("value", .string a.value)]

/-- A remark. -/
def readAnnotation : Reader Annotation
  | 0, _ => none
  | _ + 1, j => do
    let [name, value] ← fields? ["name", "value"] j | none
    return { name := ← required string? name, value := ← required string? value }

/-- The remarks on a node, as JSON. -/
def annotatedNode (a : AnnotatedNode) : Json :=
  .object [("resource_id", resourceId a.id),
    ("annotations", .array (a.annotations.map annotation))]

/-- The remarks on a node. -/
def readAnnotatedNode : Reader AnnotatedNode
  | 0, _ => none
  | depth + 1, j => do
    let [id, annotations] ← fields? ["resource_id", "annotations"] j | none
    return { id := ← required (readResourceId depth) id,
             annotations := ← required (readList readAnnotation depth) annotations }

/-- A document as JSON. -/
def compositeData (c : CompositeData) : Json :=
  .object [("resource_data", resourceData c.data),
    ("annotations", .array (c.annotations.map annotatedNode))]

/-- A document. -/
def readCompositeData : Reader CompositeData
  | 0, _ => none
  | depth + 1, j => do
    let [data, annotations] ← fields? ["resource_data", "annotations"] j | none
    return { data := ← required (readResourceData depth) data,
             annotations := ← defaulted [] (readList readAnnotatedNode depth) annotations }

end YangBinding.Wire
