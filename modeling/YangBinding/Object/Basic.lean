import YangBinding.Object.Class

/-!
# Objects

An object holds the values of its own leaves, the objects in its containers, lists and choices, and
two kinds of extensions: augmentations, at most one for each class, and anydata payloads, in order.
A field that is not set holds an empty sequence, a field of a single value never more than one.

## Main definitions

* `Object`: an object of a class
* `Class.new`: the object in which nothing is set
* `Object.beq`: equality up to the order of augmentations
* `Object.addAugmentation`, `Object.addAnydata`: attaching extensions

## Main statements

* `Object.sizeOf_lt_of_mem_members`, `Object.sizeOf_lt_of_mem_augmentations`,
  `Object.sizeOf_lt_of_mem_anydata`: what an object holds is smaller than the object
-/

namespace YangBinding

/-- The content of a schema node. -/
inductive Object where
  | mk (type : Class) (leaves : List (String × List LeafValue))
    (members : List (String × List Object)) (augmentations anydata : List Object)
  deriving Repr

namespace Object

/-- The class of an object. -/
def type : Object → Class
  | mk type _ _ _ _ => type

/-- The values of the leaves and leaf-lists, by field. -/
def leaves : Object → List (String × List LeafValue)
  | mk _ leaves _ _ _ => leaves

/-- The objects in the containers, lists and choices, by field. -/
def members : Object → List (String × List Object)
  | mk _ _ members _ _ => members

/-- The augmentations in the order in which their classes were first added. -/
def augmentations : Object → List Object
  | mk _ _ _ augmentations _ => augmentations

/-- The anydata payloads in the order in which they were added. -/
def anydata : Object → List Object
  | mk _ _ _ _ anydata => anydata

def className (o : Object) : String := o.type.className

/-- The values of a leaf or leaf-list. -/
def leafValues (o : Object) (name : String) : List LeafValue :=
  (o.leaves.lookup name).getD []

/-- The objects of a container, list or choice. -/
def objects (o : Object) (name : String) : List Object :=
  (o.members.lookup name).getD []

/-! ## Changing objects -/

/-- Replaces what is stored under a name, if anything is. -/
def replaceEntry {α : Type} (name : String) (change : α → α) :
    List (String × α) → List (String × α) :=
  List.map fun entry => if entry.1 = name then (entry.1, change entry.2) else entry

/-- Changes the values of a leaf or leaf-list. -/
def updateLeaf (name : String) (change : List LeafValue → List LeafValue) : Object → Object
  | mk type leaves members augmentations anydata =>
    mk type (replaceEntry name change leaves) members augmentations anydata

/-- Changes the objects of a container, list or choice. -/
def updateMember (name : String) (change : List Object → List Object) : Object → Object
  | mk type leaves members augmentations anydata =>
    mk type leaves (replaceEntry name change members) augmentations anydata

/-! ## Extensions -/

/-- The augmentation of a class. -/
def augmentation? (o : Object) (className : String) : Option Object :=
  o.augmentations.find? fun a => a.className == className

/-- Puts an augmentation in the place of the one of the same class, or at the end. -/
def insertAugmentation (augmentation : Object) : List Object → List Object
  | [] => [augmentation]
  | a :: rest =>
    if a.className = augmentation.className then augmentation :: rest
    else a :: insertAugmentation augmentation rest

/-- Attaches an augmentation; one of the same class is replaced. -/
def addAugmentation : Object → Object → Object
  | mk type leaves members augmentations anydata, augmentation =>
    mk type leaves members (insertAugmentation augmentation augmentations) anydata

/-- Attaches an anydata payload after those that are there. -/
def addAnydata : Object → Object → Object
  | mk type leaves members augmentations anydata, payload =>
    mk type leaves members augmentations (anydata ++ [payload])

/-- Nothing is attached. -/
def hasNoExtensions (o : Object) : Bool :=
  o.augmentations.isEmpty && o.anydata.isEmpty

/-! ## Equality -/

mutual

/-- Equality of objects: the same type, the same values and objects, the same augmentations in any
order, and the same payloads in the same order. -/
protected def beq : Object → Object → Bool
  | mk c leaves members augmentations anydata, mk d leaves' members' augmentations' anydata' =>
    c.typeName == d.typeName && leaves == leaves' && beqMembers members members' &&
      (augmentations.length == augmentations'.length && foundIn augmentations augmentations') &&
      beqAll anydata anydata'

/-- Equality of sequences of objects. -/
def beqAll : List Object → List Object → Bool
  | [], [] => true
  | a :: as, b :: bs => a.beq b && beqAll as bs
  | _, _ => false

/-- Equality of the objects of all fields. -/
def beqMembers : List (String × List Object) → List (String × List Object) → Bool
  | [], [] => true
  | (name, as) :: rest, (name', bs) :: rest' =>
    name == name' && beqAll as bs && beqMembers rest rest'
  | _, _ => false

/-- Every augmentation equals the one of its class in another sequence. -/
def foundIn : List Object → List Object → Bool
  | [], _ => true
  | a :: as, bs =>
    (match bs.find? fun b => b.className == a.className with
      | some b => a.beq b
      | none => false) && foundIn as bs

end

instance : BEq Object where
  beq := Object.beq

/-! ## Size -/

theorem sizeOf_lt_of_mem_members {o child : Object} {name : String} (h : child ∈ o.objects name) :
    sizeOf child < sizeOf o := by
  obtain ⟨type, leaves, members, augmentations, anydata⟩ := o
  simp only [objects, Object.members] at h
  cases hl : members.lookup name with
  | none => simp [hl] at h
  | some os =>
    simp only [hl, Option.getD_some] at h
    have mem : (name, os) ∈ members := by
      obtain ⟨before, after, rfl, -⟩ := List.lookup_eq_some_iff.1 hl
      simp
    have h1 := List.sizeOf_lt_of_mem h
    have h2 := List.sizeOf_lt_of_mem mem
    simp only [Prod.mk.sizeOf_spec] at h2
    simp only [mk.sizeOf_spec]
    omega

theorem sizeOf_lt_of_mem_augmentations {o a : Object} (h : a ∈ o.augmentations) :
    sizeOf a < sizeOf o := by
  obtain ⟨type, leaves, members, augmentations, anydata⟩ := o
  have := List.sizeOf_lt_of_mem h
  simp only [Object.augmentations] at this
  simp only [mk.sizeOf_spec]
  omega

theorem sizeOf_lt_of_mem_anydata {o a : Object} (h : a ∈ o.anydata) : sizeOf a < sizeOf o := by
  obtain ⟨type, leaves, members, augmentations, anydata⟩ := o
  have := List.sizeOf_lt_of_mem h
  simp only [Object.anydata] at this
  simp only [mk.sizeOf_spec]
  omega

end Object

/-- The object of a class in which nothing is set. -/
def Class.new (c : Class) : Object :=
  .mk c
    (c.ownFields.filterMap fun f =>
      match f.type with
      | .leaf _ | .leafList _ => some (f.name, [])
      | _ => none)
    (c.ownFields.filterMap fun f =>
      match f.type with
      | .leaf _ | .leafList _ => none
      | _ => some (f.name, []))
    [] []

end YangBinding
