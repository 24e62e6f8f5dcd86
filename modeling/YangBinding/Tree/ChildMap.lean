import Std.Data.HashMap
import YangBinding.Tree.Node

/-!
# Children by key

The children of a node in the order in which their keys first came, beside an index that leads from
a key to the slot of its child. A child inserted under a key that is there goes into the slot of the
earlier one, which is handed out; any other child gets a new slot at the end.

The index is never out of step with the children, so a slot that it names can be read without a
check, and the list of the children says everything about a map. `Children.insert` is the insertion
as the list sees it.

## Main definitions

* `Indexes`: an index leads to the slots of a sequence of nodes
* `ChildMap`: children with their index
* `ChildMap.insert`, `ChildMap.get?`, `ChildMap.ofList`: the operations of an ordered map

## Main statements

* `ChildMap.toList_insert`, `ChildMap.fst_insert`: what an insertion does, and what it hands out
* `ChildMap.getElem?_index`: the list of the children determines the index
-/

namespace YangBinding.Tree

open Std (HashMap)

variable {index : HashMap NodeKey Nat} {nodes : Array Node} {node : Node} {key : NodeKey}
  {slot : Nat}

/-! ## The index -/

/-- The index has the keys of the nodes and no other, each with the slot of its node. -/
def Indexes (index : HashMap NodeKey Nat) (nodes : Array Node) : Prop :=
  ∀ key slot, index[key]? = some slot ↔ ∃ node : Node, nodes[slot]? = some node ∧ node.key = key

namespace Indexes

theorem empty : Indexes ∅ #[] := fun key slot => by simp

/-- No slot is out of range. -/
theorem lt_size (h : Indexes index nodes) (hslot : index[key]? = some slot) :
    slot < nodes.size := by
  obtain ⟨node, hnode, -⟩ := (h key slot).1 hslot
  exact (Array.getElem?_eq_some_iff.1 hnode).1

theorem key_eq (h : Indexes index nodes) (hslot : index[key]? = some slot)
    (hnode : nodes[slot]? = some node) : node.key = key := by
  obtain ⟨_, hother, hkey⟩ := (h key slot).1 hslot
  cases hnode.symm.trans hother
  exact hkey

/-- Two nodes of one key are in one slot. -/
theorem slot_unique (h : Indexes index nodes) {slot' : Nat} {node' : Node}
    (hnode : nodes[slot]? = some node) (hnode' : nodes[slot']? = some node')
    (hkey : node.key = node'.key) : slot = slot' := by
  have hslot := (h node.key slot).2 ⟨node, hnode, rfl⟩
  have hslot' := (h node.key slot').2 ⟨node', hnode', hkey.symm⟩
  exact Option.some.inj (hslot.symm.trans hslot')

/-- The index of a new node's key also serves after the node has taken the slot. -/
theorem set (h : Indexes index nodes) (hslot : index[node.key]? = some slot) :
    Indexes index (nodes.set slot node (h.lt_size hslot)) := by
  intro key slot'
  rw [h key slot', Array.getElem?_set]
  split
  · next heq =>
    subst heq
    obtain ⟨old, hold, hkey⟩ := (h node.key slot).1 hslot
    simp [hold, hkey]
  · rfl

/-- A node of a new key goes to the end, and the index says so. -/
theorem push (h : Indexes index nodes) (hnone : index[node.key]? = none) :
    Indexes (index.insert node.key nodes.size) (nodes.push node) := by
  intro key slot
  simp only [HashMap.getElem?_insert, Array.getElem?_push, beq_iff_eq]
  by_cases hkey : node.key = key
  · subst hkey
    rw [if_pos rfl]
    constructor
    · rintro ⟨⟩
      exact ⟨node, if_pos rfl, rfl⟩
    · rintro ⟨other, hother, heq⟩
      split at hother
      · next hend => rw [hend]
      · -- The key was not there before.
        have hthere := (h node.key slot).2 ⟨other, hother, heq⟩
        rw [hnone] at hthere
        cases hthere
  · rw [if_neg hkey, h key slot]
    split
    · next hend =>
      subst hend
      simp [hkey]
    · rfl

end Indexes

/-! ## Maps -/

/-- The children of a node, with an index of their keys. -/
structure ChildMap where
  /-- The children, one in each slot. -/
  nodes : Array Node := #[]
  /-- The slot of each key. -/
  index : HashMap NodeKey Nat := ∅
  indexed : Indexes index nodes := by exact Indexes.empty

namespace ChildMap

variable {m m' : ChildMap}

instance : EmptyCollection ChildMap := ⟨{}⟩

/-- The children in their order. -/
def toList (m : ChildMap) : List Node := m.nodes.toList

/-- The number of children. -/
def size (m : ChildMap) : Nat := m.nodes.size

def isEmpty (m : ChildMap) : Bool := m.nodes.isEmpty

/-- The child in the slot of a key. -/
def atSlot (m : ChildMap) {key : NodeKey} {slot : Nat} (h : m.index[key]? = some slot) : Node :=
  have := m.indexed.lt_size h
  m.nodes[slot]

/-- The child of a key. -/
def get? (m : ChildMap) (key : NodeKey) : Option Node :=
  match h : m.index[key]? with
  | some _ => some (m.atSlot h)
  | none => none

/-- Puts a child in the slot of its key. -/
def replace (m : ChildMap) (node : Node) {slot : Nat} (h : m.index[node.key]? = some slot) :
    ChildMap :=
  { m with nodes := m.nodes.set slot node (m.indexed.lt_size h), indexed := m.indexed.set h }

/-- Gives a child of a new key a slot at the end. -/
def push (m : ChildMap) (node : Node) (h : m.index[node.key]? = none) : ChildMap where
  nodes := m.nodes.push node
  index := m.index.insert node.key m.nodes.size
  indexed := m.indexed.push h

/-- Inserts a child, in the slot of the one with the same key if there is one. The child that was
there is handed out. -/
def insert (m : ChildMap) (node : Node) : Option Node × ChildMap :=
  match h : m.index[node.key]? with
  | some _ => (some (m.atSlot h), m.replace node h)
  | none => (none, m.push node h)

/-- The map that results from inserting nodes one after the other. -/
def ofList (nodes : List Node) : ChildMap :=
  nodes.foldl (fun m node => (m.insert node).2) ∅

/-- Maps are equal if their children are, in the same order. -/
instance : BEq ChildMap where
  beq m m' := m.nodes == m'.nodes

theorem beq_iff : (m == m') = true ↔ m.toList = m'.toList := by
  change (m.nodes == m'.nodes) = true ↔ _
  rw [beq_iff_eq, toList, toList, Array.toList_inj]

@[simp]
theorem toList_empty : (∅ : ChildMap).toList = [] := rfl

theorem getElem?_toList : m.toList[slot]? = m.nodes[slot]? :=
  Array.getElem?_toList

/-! ### What the list of the children says -/

/-- Keys are distinct. -/
theorem nodup_keys (m : ChildMap) : (m.toList.map Node.key).Nodup := by
  rw [List.Nodup, List.pairwise_map, List.pairwise_iff_getElem]
  intro i j hi hj hij hkey
  have hslots := m.indexed.slot_unique (getElem?_toList.symm.trans (List.getElem?_eq_getElem hi))
    (getElem?_toList.symm.trans (List.getElem?_eq_getElem hj)) hkey
  omega

/-- The slot of a key is its place among the children. -/
theorem getElem?_index (m : ChildMap) (key : NodeKey) :
    m.index[key]? = Children.slot? key m.toList := by
  ext slot
  rw [m.indexed key slot, Children.slot?, List.findIdx?_eq_some_iff_getElem]
  constructor
  · rintro ⟨node, hnode, hkey⟩
    rw [← getElem?_toList] at hnode
    obtain ⟨hlt, rfl⟩ := List.getElem?_eq_some_iff.1 hnode
    refine ⟨hlt, beq_iff_eq.2 hkey, fun j hj hfirst => ?_⟩
    -- An earlier child of the key would be in the same slot.
    have hlt' : j < m.toList.length := Nat.lt_trans hj hlt
    have hearlier : m.nodes[j]? = some m.toList[j] :=
      getElem?_toList.symm.trans (List.getElem?_eq_getElem hlt')
    have hslot := m.indexed.slot_unique hearlier (getElem?_toList.symm.trans hnode)
      ((beq_iff_eq.1 hfirst).trans hkey.symm)
    omega
  · rintro ⟨hlt, hkey, -⟩
    exact ⟨m.toList[slot], getElem?_toList.symm.trans (List.getElem?_eq_getElem hlt),
      beq_iff_eq.1 hkey⟩

/-- Maps with the same children have the same index. -/
theorem index_equiv (h : m.toList = m'.toList) : m.index.Equiv m'.index :=
  .of_forall_getElem?_eq fun key => by rw [getElem?_index, getElem?_index, h]

theorem getElem?_of_slot (h : m.index[key]? = some slot) :
    m.toList[slot]? = some (m.atSlot h) :=
  getElem?_toList.trans (Array.getElem?_eq_getElem (m.indexed.lt_size h))

theorem get?_eq (m : ChildMap) (key : NodeKey) : m.get? key = Children.get? key m.toList := by
  have hslot := m.getElem?_index key
  rw [Children.get?, List.find?_eq_bind_findIdx?_getElem?, ← Children.slot?, ← hslot, get?]
  split
  · next slot h => exact (Option.bind_eq_some_iff.2 ⟨slot, h, getElem?_of_slot h⟩).symm
  · next h => exact (Option.bind_eq_none_iff.2 (by simp [h])).symm

/-! ### Insertion -/

theorem insert_of_slot (h : m.index[node.key]? = some slot) :
    m.insert node = (some (m.atSlot h), m.replace node h) := by
  rw [insert]
  split
  · next slot' h' =>
    cases Option.some.inj (h'.symm.trans h)
    rfl
  · next h' => cases h'.symm.trans h

theorem insert_of_none (h : m.index[node.key]? = none) :
    m.insert node = (none, m.push node h) := by
  rw [insert]
  split
  · next h' => cases h'.symm.trans h
  · rfl

/-- An insertion hands out the child that has had the key so far. -/
theorem fst_insert (m : ChildMap) (node : Node) : (m.insert node).1 = m.get? node.key := by
  rw [insert, get?]
  split <;> rfl

@[simp]
theorem toList_replace (h : m.index[node.key]? = some slot) :
    (m.replace node h).toList = m.toList.set slot node := by
  simp only [replace, toList, Array.toList_set]

@[simp]
theorem toList_push (h : m.index[node.key]? = none) :
    (m.push node h).toList = m.toList ++ [node] := by
  simp only [push, toList, Array.toList_push]

theorem toList_insert (m : ChildMap) (node : Node) :
    (m.insert node).2.toList = Children.insert node m.toList := by
  rw [Children.insert_eq_set_or_append, ← getElem?_index]
  cases h : m.index[node.key]? with
  | some slot => rw [insert_of_slot h, toList_replace]
  | none => rw [insert_of_none h, toList_push]

theorem toList_ofList (nodes : List Node) :
    (ofList nodes).toList = Children.ofList nodes := by
  rw [ofList, Children.ofList, ← toList_empty]
  generalize (∅ : ChildMap) = m
  induction nodes generalizing m with
  | nil => rfl
  | cons node nodes ih => rw [List.foldl_cons, ih, toList_insert, List.foldl_cons]

end ChildMap

end YangBinding.Tree
