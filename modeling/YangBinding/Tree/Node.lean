import YangBinding.Tree.Key

/-!
# Data nodes

Data that knows its schema by name only: inner nodes with children, and leaves with values. The
children of a node have an order, that of their first insertion, and their keys are distinct: a
child inserted under the key of another takes its place.

## Main definitions

* `Node`: a data node
* `Children.insert`, `Children.get?`: children as an ordered map from keys to nodes

## Main statements

* `Children.get?_insert`: what an insertion changes
* `Children.insert_eq_set_or_append`: where an insertion takes place
* `Children.nodup_insert`: keys stay distinct
-/

namespace YangBinding.Tree

/-- The outward form of a data node. -/
inductive Shape where
  | singleNode
  | multiNode
  | singleLeaf
  | multiLeaf
  deriving DecidableEq, Repr

namespace Shape

/-- Every shape. -/
def all : List Shape := [singleNode, multiNode, singleLeaf, multiLeaf]

/-- The name of a shape. -/
def text : Shape → String
  | singleNode => "single-instance-node"
  | multiNode => "multi-instance-node"
  | singleLeaf => "single-instance-leaf-value-node"
  | multiLeaf => "multi-instance-leaf-value-node"

/-- The shape that a name stands for. -/
def ofText? (s : String) : Option Shape :=
  all.find? fun shape => shape.text == s

/-- Reading a shape's name gives the shape back. -/
theorem ofText?_text (shape : Shape) : ofText? shape.text = some shape := by
  cases shape <;> decide

end Shape

/-- A node of a data tree. -/
inductive Node where
  | inner (key : NodeKey) (shape : Shape) (children : List Node)
  | leaf (key : NodeKey) (shape : Shape) (value : LeafValue)
  deriving Repr

namespace Node

def key : Node → NodeKey
  | .inner key _ _ | .leaf key _ _ => key

def shape : Node → Shape
  | .inner _ shape _ | .leaf _ shape _ => shape

/-- The value of a leaf. -/
def value? : Node → Option LeafValue
  | .leaf _ _ value => some value
  | .inner .. => none

/-- The node can have children. -/
def isInner : Node → Bool
  | .inner .. => true
  | .leaf .. => false

/-- The children of an inner node; a leaf has none. -/
def children : Node → List Node
  | .inner _ _ children => children
  | .leaf .. => []

/-- The first child of a name. -/
def child? (n : Node) (name : String) : Option Node :=
  n.children.find? fun c => c.key.name == name

/-! ## Equality -/

mutual

/-- Equality of data nodes. -/
protected def beq : Node → Node → Bool
  | .inner k s cs, .inner l t ds => k == l && s == t && beqAll cs ds
  | .leaf k s v, .leaf l t w => k == l && s == t && v == w
  | _, _ => false

/-- Equality of sequences of data nodes. -/
def beqAll : List Node → List Node → Bool
  | [], [] => true
  | c :: cs, d :: ds => c.beq d && beqAll cs ds
  | _, _ => false

end

instance : BEq Node where
  beq := Node.beq

mutual

/-- The executable equality is equality. -/
theorem beq_iff_eq : ∀ {a b : Node}, a.beq b = true ↔ a = b
  | .inner k s cs, b => by cases b <;> simp [Node.beq, beqAll_iff_eq (u := cs), and_assoc]
  | .leaf .., b => by cases b <;> simp [Node.beq, and_assoc]

theorem beqAll_iff_eq : ∀ {u v : List Node}, beqAll u v = true ↔ u = v
  | [], ds => by cases ds <;> simp [beqAll]
  | c :: cs, ds => by
    cases ds <;> simp [beqAll, beq_iff_eq (a := c), beqAll_iff_eq (u := cs)]

end

instance : LawfulBEq Node where
  eq_of_beq h := beq_iff_eq.1 h
  rfl := beq_iff_eq.2 rfl

instance : DecidableEq Node := fun a b => decidable_of_iff (a.beq b = true) beq_iff_eq

end Node

/-! ## Children -/

namespace Children

/-- The child of a key. -/
def get? (key : NodeKey) (children : List Node) : Option Node :=
  children.find? fun c => c.key == key

/-- The place of the child of a key. -/
def slot? (key : NodeKey) (children : List Node) : Option Nat :=
  children.findIdx? fun c => c.key == key

/-- Puts a child in the place of the one with the same key, or at the end. -/
def insert (node : Node) : List Node → List Node
  | [] => [node]
  | c :: cs => if c.key = node.key then node :: cs else c :: insert node cs

/-- The children that result from inserting nodes one after the other. -/
def ofList (nodes : List Node) : List Node :=
  nodes.foldl (fun children node => insert node children) []

/-- After an insertion the inserted child has its key, and every other key what it had. -/
theorem get?_insert (node : Node) (key : NodeKey) (children : List Node) :
    get? key (insert node children) = if node.key = key then some node else get? key children := by
  induction children with
  | nil => by_cases h : node.key = key <;> simp [insert, get?, h]
  | cons c cs ih =>
    by_cases hc : c.key = node.key
    · by_cases h : node.key = key <;> simp [insert, get?, hc, h]
    · rw [insert, if_neg hc]
      by_cases hk : c.key = key
      · have : node.key ≠ key := fun e => hc (hk.trans e.symm)
        simp [get?, hk, this]
      · have : get? key (c :: insert node cs) = get? key (insert node cs) := by simp [get?, hk]
        rw [this, ih]
        simp [get?, hk]

/-- Insertion adds at most the key of the inserted child, at the end. -/
theorem keys_insert (node : Node) (children : List Node) :
    (insert node children).map Node.key =
      if node.key ∈ children.map Node.key then children.map Node.key
      else children.map Node.key ++ [node.key] := by
  induction children with
  | nil => rfl
  | cons c cs ih =>
    by_cases hc : c.key = node.key
    · simp [insert, hc]
    · have : node.key ≠ c.key := Ne.symm hc
      simp only [insert, if_neg hc, List.map_cons, ih, List.mem_cons, this, false_or]
      split <;> rfl

theorem slot?_cons (key : NodeKey) (c : Node) (children : List Node) :
    slot? key (c :: children) =
      if c.key = key then some 0 else (slot? key children).map fun slot => slot + 1 := by
  simp [slot?, List.findIdx?_cons]

/-- A child whose key is there goes into the slot of the key, and any other to the end. -/
theorem insert_eq_set_or_append (node : Node) (children : List Node) :
    insert node children =
      match slot? node.key children with
      | some slot => children.set slot node
      | none => children ++ [node] := by
  induction children with
  | nil => rfl
  | cons c cs ih =>
    rw [insert, slot?_cons]
    by_cases hc : c.key = node.key
    · rw [if_pos hc, if_pos hc]
      rfl
    · rw [if_neg hc, if_neg hc, ih]
      cases slot? node.key cs <;> rfl

/-- Keys stay distinct. -/
theorem nodup_insert {children : List Node} (node : Node)
    (h : (children.map Node.key).Nodup) : ((insert node children).map Node.key).Nodup := by
  rw [keys_insert]
  split
  · exact h
  · next hn =>
    rw [List.nodup_append]
    refine ⟨h, by simp, ?_⟩
    rintro a ha b hb rfl
    simp only [List.mem_singleton] at hb
    exact hn (hb ▸ ha)

end Children

end YangBinding.Tree
