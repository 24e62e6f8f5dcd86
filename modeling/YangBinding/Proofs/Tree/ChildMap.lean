import YangBinding.Proofs.Latest
import YangBinding.Proofs.Wire.Forms
import YangBinding.Tree.ChildMap

/-!
# Children as an ordered map

What a map of children knows after any sequence of insertions, said of the sequence alone: which
keys there are and in which order, which slot and which node each of them leads to, and what the
next insertion hands out. One insertion carries all of this from a sequence to the sequence that is
longer by one node, so it holds of every map that is built, and of every map that is read from a
document.

Maps are told apart by their children only. Since the children determine the index, two equal maps
answer alike, and a map collected from its own children is the map itself.

## Main definitions

* `Children.last?` — the last of the nodes that were inserted under a key
* `ChildMap.Inserts` — a map after an insertion, with what was handed out
* `ChildMap.Records` — a map after a sequence of insertions

## Main results

* `ChildMap.inserts_insert` — an insertion changes one slot, or adds one
* `ChildMap.Records.insert` — one more insertion
* `ChildMap.records_iff` — the children say it all
* `ChildMap.records_insertions` — all insertions
-/

namespace YangBinding.Tree

/-- The last of the nodes with a key. -/
def Children.last? (key : NodeKey) (nodes : List Node) : Option Node :=
  (nodes.filter fun n => n.key == key).getLast?

namespace ChildMap

open Children (last?)

variable {m : ChildMap} {node : Node} {nodes : List Node}

/-! ### One insertion -/

/-- An insertion of a node into a map: what is handed out, and the map afterwards. -/
inductive Inserts (m : ChildMap) (node : Node) : Option Node × ChildMap → Prop
  /-- The node takes the slot of the one with its key, which is handed out. -/
  | replaces {slot : Nat} {old : Node} {m' : ChildMap} (there : m.toList[slot]? = some old)
      (key : old.key = node.key) (after : m'.toList = m.toList.set slot node) :
      Inserts m node (some old, m')
  /-- No node has the key yet. -/
  | adds {m' : ChildMap} (key : node.key ∉ m.toList.map Node.key)
      (after : m'.toList = m.toList ++ [node]) : Inserts m node (none, m')

theorem inserts_insert (m : ChildMap) (node : Node) : m.Inserts node (m.insert node) := by
  cases h : m.index[node.key]? with
  | some slot =>
    rw [insert_of_slot h]
    refine .replaces (getElem?_of_slot h) ?_ (toList_replace h)
    exact m.indexed.key_eq h (getElem?_toList.symm.trans (getElem?_of_slot h))
  | none =>
    rw [insert_of_none h]
    refine .adds ?_ (toList_push h)
    rw [getElem?_index, Children.slot?, List.findIdx?_eq_none_iff] at h
    simpa using h

/-! ### All insertions -/

/-- The map is what the insertion of some nodes, one after the other, has made of a map without
children. -/
structure Records (m : ChildMap) (nodes : List Node) : Prop where
  /-- The index has the keys of the children and no other, each with the slot of its child. -/
  indexed : Indexes m.index m.nodes
  /-- The slot of a key is its place among the keys in the order in which they first came. -/
  slot : ∀ key, m.index[key]? = (nodes.map Node.key).eraseDups.idxOf? key
  /-- Keys are distinct. -/
  nodup : (m.toList.map Node.key).Nodup
  /-- Children stand in the order in which their keys first came. -/
  keys : m.toList.map Node.key = (nodes.map Node.key).eraseDups
  /-- Each child is the last node that was inserted under its key. -/
  last : ∀ c ∈ m.toList, last? c.key nodes = some c
  /-- A key leads to the last node that was inserted under it. -/
  get : ∀ key, m.get? key = last? key nodes
  /-- The next insertion takes the slot of its key, or a new one. -/
  inserts : ∀ node, m.Inserts node (m.insert node)
  /-- The next insertion hands out the last node that was inserted under the key. -/
  handedOut : ∀ node, (m.insert node).1 = last? node.key nodes
  /-- The children, inserted in their order, make an equal map with the same index. -/
  rebuilt : (ofList m.toList == m) = true ∧ (ofList m.toList).index.Equiv m.index

/-- Collecting the children of a map gives the same children. -/
theorem toList_ofList_toList (m : ChildMap) : (ofList m.toList).toList = m.toList := by
  rw [toList_ofList, Children.ofList_eq, List.latest_of_nodup m.nodup_keys]

theorem last?_eq (key : NodeKey) (nodes : List Node) :
    last? key nodes = (nodes.latest Node.key).find? fun c => c.key == key :=
  List.find?_latest.symm

/-- What is left of the nodes says everything about the map. -/
theorem records_iff : m.Records nodes ↔ m.toList = nodes.latest Node.key := by
  constructor
  · intro h
    -- Each child is determined by its key, and so all of them by the keys.
    have hkeys : m.toList.map Node.key = (nodes.latest Node.key).map Node.key := by
      rw [h.keys, List.map_key_latest]
    have hlast : ∀ c ∈ nodes.latest Node.key, last? c.key nodes = some c := fun c hc => by
      rw [last?_eq, List.find?_key_of_nodup (List.nodup_map_key_latest Node.key nodes) hc]
    have hsome : m.toList.map some = (nodes.latest Node.key).map some := by
      calc m.toList.map some
        _ = (m.toList.map Node.key).map fun key => last? key nodes := by
          rw [List.map_map]
          exact List.map_congr_left fun c hc => (h.last c hc).symm
        _ = ((nodes.latest Node.key).map Node.key).map fun key => last? key nodes := by rw [hkeys]
        _ = (nodes.latest Node.key).map some := by
          rw [List.map_map]
          exact List.map_congr_left hlast
    exact (List.map_inj_right fun _ _ => Option.some.inj).1 hsome
  · intro h
    have hget (key : NodeKey) : m.get? key = last? key nodes := by
      rw [get?_eq, Children.get?, h, last?_eq]
    have hkeys : m.toList.map Node.key = (nodes.map Node.key).eraseDups := by
      rw [h, List.map_key_latest]
    exact {
      indexed := m.indexed
      slot := fun key => by
        rw [getElem?_index, Children.slot?, ← hkeys, List.idxOf?, List.findIdx?_map]
        rfl
      nodup := m.nodup_keys
      keys := hkeys
      last := fun c hc => by
        rw [← hget, get?_eq, Children.get?, List.find?_key_of_nodup m.nodup_keys hc]
      get := hget
      inserts := m.inserts_insert
      handedOut := fun node => by rw [fst_insert, hget]
      rebuilt := ⟨beq_iff.2 m.toList_ofList_toList, index_equiv m.toList_ofList_toList⟩ }

/-- A map without children is what no insertion has made. -/
theorem records_empty : (∅ : ChildMap).Records [] :=
  records_iff.2 rfl

/-- One more insertion is recorded. -/
theorem Records.insert (h : m.Records nodes) (node : Node) :
    (m.insert node).2.Records (nodes ++ [node]) := by
  rw [records_iff] at h ⊢
  rw [toList_insert, Children.insert_eq, h, List.latest_concat]

theorem ofList_concat (nodes : List Node) (node : Node) :
    ofList (nodes ++ [node]) = ((ofList nodes).insert node).2 := by
  rw [ofList, List.foldl_append, List.foldl_cons, List.foldl_nil, ofList]

theorem records_ofList (nodes : List Node) : (ofList nodes).Records nodes := by
  induction nodes using List.reverseRecOn with
  | nil => exact records_empty
  | append_singleton nodes node ih =>
    rw [ofList_concat]
    exact ih.insert node

/-- Every sequence of insertions is recorded, also that of the children in a document: they are
read if they can be read as nodes. -/
theorem records_insertions :
    (∀ nodes, (ofList nodes).Records nodes) ∧
      ∀ depth j, Option.Rel (fun nodes m => m.Records nodes)
        (Json.readList Wire.readDataNode depth j) (Wire.readChildMap depth j) := by
  refine ⟨records_ofList, fun depth j => ?_⟩
  rw [Wire.readChildMap_eq]
  cases Json.readList Wire.readDataNode depth j with
  | none => exact .none
  | some nodes => exact .some (records_ofList nodes)

end ChildMap

end YangBinding.Tree
