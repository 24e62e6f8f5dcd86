import YangBinding.Proofs.Json.Nesting
import YangBinding.Proofs.Json.Reading
import YangBinding.Proofs.Latest
import YangBinding.Wire.Tree

/-!
# The forms of documents are read back

What a reader makes of the form that was written for a value: the value itself, where the form does
not nest deeper than the reader may go, and nothing anywhere else. The readers take their levels
apart in different ways, a data node three at once, and still agree with the one measure of nesting.
Every form is plain, so the same holds of its text.

## Main definitions

* `Tree.Node.Inserted` — a node whose children are the result of insertions

## Main results

* `Wire.reads_dataNode` — data nodes, by induction on how their children were inserted
* `Wire.reads_compositeData` — whole documents
* `Wire.plain_compositeData` — nothing in a document goes beyond what its text can say
-/

namespace YangBinding

namespace Tree.Node

/-- A node whose children, and theirs at every depth, were inserted one after the other. -/
inductive Inserted : Node → Prop where
  | leaf (key : NodeKey) (shape : Shape) (value : LeafValue) : Inserted (.leaf key shape value)
  | inner (key : NodeKey) (shape : Shape) {nodes : List Node} (h : ∀ n ∈ nodes, Inserted n) :
      Inserted (.inner key shape (Children.ofList nodes))

/-- Insertion leaves siblings of distinct keys, and any such siblings can be inserted. -/
theorem inserted_inner_iff {key : NodeKey} {shape : Shape} {children : List Node} :
    Inserted (.inner key shape children) ↔
      (children.map Node.key).Nodup ∧ ∀ c ∈ children, c.Inserted := by
  constructor
  · rintro ⟨⟩
    next nodes h =>
    rw [Children.ofList_eq]
    exact ⟨List.nodup_map_key_latest Node.key nodes, fun c hc => h c (List.mem_of_mem_latest hc)⟩
  · rintro ⟨hkeys, h⟩
    have hsame : Children.ofList children = children := by
      rw [Children.ofList_eq, List.latest_of_nodup hkeys]
    rw [← hsame]
    exact .inner key shape h

end Tree.Node

namespace Wire

open Json YangBinding.Tree

/-! ### Leaf values and identifiers -/

theorem readInt_toInt (n : Int64) : readInt (.integer n.toInt) = some n := by
  have hlow := n.le_toInt
  have hhigh := n.toInt_lt
  rw [readInt, if_pos ⟨hlow, hhigh⟩, Int64.ofInt_toInt]

theorem readUInt_toNat (n : UInt64) : readUInt (.integer n.toNat) = some n := by
  have hfits : Scalar.FitsUnsigned .w64 n.toNat := by
    have hhigh := n.toNat_lt
    rw [Scalar.FitsUnsigned, Width.half]
    omega
  have hmod : ((n.toNat : Int) % 2 ^ 64).toNat = n.toNat := by
    have hhigh := n.toNat_lt
    omega
  rw [readUInt, if_pos hfits, UInt64.ofInt, hmod, UInt64.ofNat_toNat]

theorem readByte_toNat (b : UInt8) : readByte (.integer b.toNat) = some b := by
  have hfits : Scalar.FitsUnsigned .w8 b.toNat := by
    have hhigh := b.toNat_lt
    rw [Scalar.FitsUnsigned, Width.half]
    omega
  have hmod : ((b.toNat : Int) % 2 ^ 8).toNat = b.toNat := by
    have hhigh := b.toNat_lt
    omega
  rw [readByte, if_pos hfits, UInt8.ofInt, hmod, UInt8.ofNat_toNat]

/-- A value of a type that has content is read as its content is. -/
theorem reads_typed {α : Type} {type : String} {read : Reader α} {make : α → LeafValue} {j : Json}
    {x : α} (hcontent : ∀ depth j, readContent depth type (some j) = (read depth j).map make)
    (h : Reads read j x) :
    Reads readLeafValue (.object [typeMember type, ("value", j)]) (make x) := by
  apply h.wrap make
  · simp [nesting, memberNesting, typeMember]
  · rfl
  · intro depth
    rw [← hcontent depth j]
    simp [readLeafValue, uniqueMember?, typeMember, readName, variant?]

theorem reads_bytes (bytes : List UInt8) :
    Reads (readList fun _ => readByte) (.array (bytes.map fun b => .integer b.toNat)) bytes := by
  apply Reads.list
  intro b _
  exact .of_flat rfl fun _ => readByte_toNat b

theorem reads_leafValue (value : LeafValue) : Reads readLeafValue (leafValue value) value := by
  cases value with
  | empty =>
    apply Reads.of_deep
    · decide
    · rfl
    · intro depth
      simp [leafValue, typeMember, nesting, memberNesting, readLeafValue, uniqueMember?, readName,
        variant?, readContent]
  | bool b => exact reads_typed (fun _ _ => rfl) (.of_flat rfl fun _ => rfl)
  | int n => exact reads_typed (fun _ _ => rfl) (.of_flat rfl fun _ => readInt_toInt n)
  | uint n => exact reads_typed (fun _ _ => rfl) (.of_flat rfl fun _ => readUInt_toNat n)
  | string s => exact reads_typed (fun _ _ => rfl) (.of_flat rfl fun _ => rfl)
  | binary bytes => exact reads_typed (fun _ _ => rfl) (reads_bytes bytes)

theorem reads_schemaId (id : Schema.Id) : Reads readSchemaId (schemaId id) id := by
  apply Reads.of_deep
  · rw [schemaId, nesting]
    omega
  · rfl
  · intro depth
    obtain ⟨name, ns⟩ := id
    cases ns <;>
      simp [schemaId, optionalMember, nesting, memberNesting, readSchemaId, fields?, uniqueMember?,
        required, Json.optional, string?]

/-! ### Keys -/

theorem reads_keyLeaf (leaf : KeyLeaf) : Reads readKeyLeaf (keyLeaf leaf) leaf := by
  apply Reads.pair KeyLeaf.mk (reads_schemaId leaf.id) (reads_leafValue leaf.value) rfl
  intro depth
  simp [readKeyLeaf, fields?, uniqueMember?, required]

/-- A record with a single field. -/
theorem reads_sole {α : Type} {read : Reader α} {j : Json} {x : α} (key : String)
    (h : Reads read j x) : Reads (readSole key read) (.object [(key, j)]) x := by
  apply h.wrap id (nesting_sole key j) rfl
  intro depth
  simp [readSole, fields?, uniqueMember?, required]

theorem reads_selector (s : Selector) : Reads readSelector (selector s) s := by
  cases s with
  | single => exact .of_flat rfl fun _ => rfl
  | list leaves =>
    have hleaves : Reads (readList readKeyLeaf) (.array (leaves.map keyLeaf)) leaves :=
      .list fun leaf _ => reads_keyLeaf leaf
    exact (reads_sole "key_leafs" hleaves).wrap Selector.list (nesting_sole _ _) rfl fun _ => rfl
  | leafList value =>
    have hvalue := reads_sole "value" (reads_leafValue value)
    exact hvalue.wrap Selector.leafList (nesting_sole _ _) rfl fun _ => rfl

theorem reads_nodeKey (key : NodeKey) : Reads readNodeKey (nodeKey key) key := by
  apply Reads.pair NodeKey.mk (reads_schemaId key.id) (reads_selector key.selector) rfl
  intro depth
  simp [readNodeKey, fields?, uniqueMember?, required]

theorem readShape_text (depth : Nat) (shape : Shape) :
    readShape depth (.string shape.text) = some shape :=
  Shape.ofText?_text shape

/-! ### Nodes -/

theorem dataNodes_eq_map (nodes : List Node) : dataNodes nodes = nodes.map dataNode := by
  induction nodes with
  | nil => rfl
  | cons node nodes ih => rw [dataNodes, ih, List.map_cons]

theorem reads_leaf (key : NodeKey) (shape : Shape) (value : LeafValue) :
    Reads readDataNode (dataNode (.leaf key shape value)) (.leaf key shape value) := by
  have hnesting (depth : Nat) : (dataNode (.leaf key shape value)).nesting ≤ depth + 2 ↔
      (Json.object [("key", nodeKey key), ("value", leafValue value)]).nesting ≤ depth + 1 := by
    simp only [dataNode, nesting, memberNesting]
    omega
  have hdeep : 2 < (dataNode (.leaf key shape value)).nesting := by
    simp only [dataNode, nodeKey, nesting, memberNesting]
    omega
  intro depth
  -- The variant and the record need two levels, and the key one more.
  rcases depth with _ | _ | depth
  · exact (if_neg (by omega)).symm
  · exact (if_neg (by omega)).symm
  · have hboth := (reads_nodeKey key).both (reads_leafValue value)
      (fun key value => Node.leaf key shape value) "key" "value" depth
    simp only [hnesting, ← hboth]
    rw [dataNode, readDataNode]
    simp [fields?, uniqueMember?, required, readShape_text]

/-- Children are read as nodes, and then collected by key. -/
theorem readChildMap_eq (depth : Nat) (j : Json) :
    readChildMap depth j = (readList readDataNode depth j).map ChildMap.ofList := by
  cases depth with
  | zero =>
    rw [readChildMap, readList]
    rfl
  | succ depth => simp [readChildMap, readList, Option.map_eq_bind, Option.bind_assoc]

/-- The children are inserted again when they are read, which has to leave them as they are. -/
theorem reads_inner (key : NodeKey) (shape : Shape) {children : List Node}
    (hsame : Children.ofList children = children)
    (h : ∀ c ∈ children, Reads readDataNode (dataNode c) c) :
    Reads readDataNode (dataNode (.inner key shape children)) (.inner key shape children) := by
  have hchildren : Reads (readList readDataNode) (.array (children.map dataNode)) children :=
    .list h
  have hnesting (depth : Nat) : (dataNode (.inner key shape children)).nesting ≤ depth + 3 ↔
      (Json.object [("key", nodeKey key), ("children", .array (children.map dataNode))]).nesting ≤
        depth + 2 := by
    simp only [dataNode, dataNodes_eq_map, nesting, memberNesting]
    omega
  have hdeep : 3 < (dataNode (.inner key shape children)).nesting := by
    simp only [dataNode, nodeKey, schemaId, nesting, memberNesting]
    omega
  intro depth
  -- The key alone needs two levels more than the variant and the record.
  rcases depth with _ | _ | _ | depth
  · exact (if_neg (by omega)).symm
  · exact (if_neg (by omega)).symm
  · exact (if_neg (by omega)).symm
  · have hboth := (reads_nodeKey key).both hchildren
      (fun key children => Node.inner key shape (Children.ofList children)) "key" "children"
      (depth + 1)
    rw [hsame] at hboth
    simp only [hnesting, ← hboth]
    rw [dataNode, readDataNode, dataNodes_eq_map]
    simp [fields?, uniqueMember?, required, readShape_text, defaulted, readChildMap_eq,
      Option.bind_map, ChildMap.toList_ofList]

/-- Children that were inserted one after the other are the same when they are inserted again. -/
theorem reads_dataNode {node : Node} (h : node.Inserted) :
    Reads readDataNode (dataNode node) node := by
  induction h with
  | leaf key shape value => exact reads_leaf key shape value
  | inner key shape h ih =>
    apply reads_inner key shape
    · simp only [Children.ofList_eq, List.latest_latest]
    · intro c hc
      rw [Children.ofList_eq] at hc
      exact ih c (List.mem_of_mem_latest hc)

/-! ### Documents -/

theorem reads_resourceId (id : ResourceId) : Reads readResourceId (resourceId id) id := by
  intro depth
  have hkeys : Reads (readList readNodeKey) (resourceId id) id.keys :=
    .list fun key _ => reads_nodeKey key
  have hid : ResourceId.ofKeys? id.keys = some id := ResourceId.ofKeys?_eq_some_iff.2 rfl
  rw [readResourceId, hkeys depth]
  split
  · exact hid
  · rfl

theorem reads_resourceData {data : ResourceData} (h : ∀ n ∈ data.nodes, n.Inserted) :
    Reads readResourceData (resourceData data) data := by
  have hnodes : Reads (readList readDataNode) (.array (dataNodes data.nodes)) data.nodes := by
    rw [dataNodes_eq_map]
    exact .list fun n hn => reads_dataNode (h n hn)
  apply Reads.pair ResourceData.mk (reads_resourceId data.id) hnodes rfl
  intro depth
  simp [readResourceData, fields?, uniqueMember?, required]

theorem reads_annotation (a : Annotation) : Reads readAnnotation ( annotation a) a := by
  apply Reads.pair Annotation.mk (reads_string a.name) (reads_string a.value) rfl
  intro depth
  simp [readString, readAnnotation, fields?, uniqueMember?, required]

theorem reads_annotatedNode (a : AnnotatedNode) :
    Reads readAnnotatedNode (annotatedNode a) a := by
  have hannotations : Reads (readList readAnnotation) (.array (a.annotations.map annotation))
      a.annotations := .list fun b _ => reads_annotation b
  apply Reads.pair AnnotatedNode.mk (reads_resourceId a.id) hannotations rfl
  intro depth
  simp [readAnnotatedNode, fields?, uniqueMember?, required]

theorem reads_compositeData {document : CompositeData} (h : ∀ n ∈ document.data.nodes, n.Inserted) :
    Reads readCompositeData (compositeData document) document := by
  have hannotations : Reads (readList readAnnotatedNode)
      (.array (document.annotations.map annotatedNode)) document.annotations :=
    .list fun a _ => reads_annotatedNode a
  apply Reads.pair CompositeData.mk (reads_resourceData h) hannotations rfl
  intro depth
  simp [readCompositeData, fields?, uniqueMember?, required, defaulted]

/-! ### What the text of a document denotes -/

theorem plain_leafValue (value : LeafValue) : (leafValue value).Plain := by
  cases value with
  | empty | bool | string => simp [leafValue, typeMember, Plain.bool]
  | int n =>
    have hlow := n.le_toInt
    have hhigh := n.toInt_lt
    have hn : (Json.integer n.toInt).Plain := .integer (by omega) (by omega)
    simp [leafValue, typeMember, hn]
  | uint n =>
    have hhigh := n.toNat_lt
    have hn : (Json.integer n.toNat).Plain := .integer (by omega) (by omega)
    simp [leafValue, typeMember, hn]
  | binary bytes =>
    have hbyte (b : UInt8) : (Json.integer b.toNat).Plain := by
      have hhigh := b.toNat_lt
      exact .integer (by omega) (by omega)
    simp [leafValue, typeMember, hbyte]

theorem plain_schemaId (id : Schema.Id) : (schemaId id).Plain := by
  obtain ⟨name, ns⟩ := id
  cases ns <;> simp [schemaId, optionalMember]

theorem plain_nodeKey (key : NodeKey) : (nodeKey key).Plain := by
  obtain ⟨id, selector⟩ := key
  cases selector <;>
    simp [nodeKey, Wire.selector, keyLeaf, plain_schemaId, plain_leafValue]

theorem plain_resourceId (id : ResourceId) : (resourceId id).Plain := by
  simp [resourceId, plain_nodeKey]

mutual

theorem plain_dataNode : ∀ node : Node, (dataNode node).Plain
  | .inner key shape children => by
    simpa [dataNode, plain_nodeKey] using plain_dataNodes children
  | .leaf key shape value => by
    simp [dataNode, plain_nodeKey, plain_leafValue]

theorem plain_dataNodes : ∀ nodes : List Node, ∀ j ∈ dataNodes nodes, j.Plain
  | [] => by simp [dataNodes]
  | node :: nodes => by
    simpa [dataNodes, plain_dataNode node] using plain_dataNodes nodes

end

/-- Nothing in a document goes beyond what its text can say. -/
theorem plain_compositeData (document : CompositeData) : (compositeData document).Plain := by
  simpa [compositeData, resourceData, annotatedNode, annotation, plain_resourceId] using
    plain_dataNodes document.data.nodes

end Wire

end YangBinding
