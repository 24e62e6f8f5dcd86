import YangBinding.Binding.Address
import YangBinding.Tree.Assembly

/-!
# Writing objects as data

Objects become data nodes by a walk over the schema: for each child of a schema node, in the order
of declaration, the field of that name says what is there. The content of a case takes the place of
its choice, and the content of the augmentations follows that of the object itself, in the order in
which the augments were compiled. An anydata holder is followed by its payloads.

## Main definitions

* `Registry.writeObject`: the data node of an object
* `Registry.writeContent`: the data nodes of what an object holds
* `Registry.write`: the data of objects positioned by an object id
-/

namespace YangBinding.Registry

open Schema (Ref)
open YangBinding.Tree (Assembly ResourceData)

/-- A leaf, or an entry of a leaf-list. -/
def writeLeaf (leaf : Ref) (a : Assembly) (value : LeafValue) : Result Assembly := do
  (← a.enter leaf (some value)).exit

/-- The case that an object selects in a choice. -/
def selectedCase (reg : Registry) (choice : Ref) (o : Object) : Result Ref := do
  let node ← reg.nodeOfClass o.className
  if node.kind == .case && node.isCaseOf choice then pure node
  else throw (.resolution (.notACase o.className choice.path))

/-- The payload node of an object in an anydata holder. -/
def payloadNode (reg : Registry) (holder : String) (o : Object) : Result Ref :=
  Result.found (.notAPayload o.className holder) (reg.payload? holder o.className)

/-- The field of an object for a child of its schema node. It has to hold what the child
declares. -/
def fieldFor (type : Class) (child : Ref) : Result Field := do
  let field ← Result.found (.noField type.className child.kind child.name) (type.field? child.name)
  if field.type.suits child.kind then pure field
  else throw (.resolution (.fieldMismatch field.name type.className field.type child.kind))

mutual

/-- The data node of an object. -/
def writeObject (reg : Registry) (o : Object) (schema : Ref) (a : Assembly) : Result Assembly := do
  let a ← a.enter schema none
  let a ← writeContent reg o schema a
  let a ← if schema.kind = .anydata then writePayloads reg o schema a else pure a
  a.exit
termination_by (sizeOf o, 2)

/-- The data nodes of what an object holds: its fields, then its augmentations. -/
def writeContent (reg : Registry) (o : Object) (schema : Ref) (a : Assembly) : Result Assembly := do
  let a ← (schema.children.filter fun c => c.kind != .augment).foldlM
    (fun a child => writeField reg o child a) a
  schema.augments.foldlM (fun a augment =>
    match h : augment.className.bind o.augmentation? with
    | some augmentation =>
      have : sizeOf augmentation < sizeOf o := by
        obtain ⟨_, _, h⟩ := Option.bind_eq_some_iff.1 h
        exact Object.sizeOf_lt_of_mem_augmentations (List.mem_of_find?_eq_some h)
      writeContent reg augmentation augment a
    | none => pure a) a
termination_by (sizeOf o, 1)

/-- The data nodes of one field. A choice has no node, only the content of its case. -/
def writeField (reg : Registry) (o : Object) (child : Ref) (a : Assembly) : Result Assembly := do
  let field ← fieldFor o.type child
  Result.ofField (field.checkTarget o)
  match field.type with
  | .leaf _ | .leafList _ => (o.leafValues field.name).foldlM (writeLeaf child) a
  | .container _ | .list _ =>
    (o.objects field.name).attach.foldlM (fun a ⟨object, h⟩ =>
      have := Object.sizeOf_lt_of_mem_members h
      writeObject reg object child a) a
  | .choice =>
    (o.objects field.name).attach.foldlM (fun a ⟨selected, h⟩ => do
      have := Object.sizeOf_lt_of_mem_members h
      let schema ← reg.selectedCase child selected
      writeContent reg selected schema a) a
termination_by (sizeOf o, 0)

/-- The data nodes of the payloads of an anydata holder. -/
def writePayloads (reg : Registry) (o : Object) (schema : Ref) (a : Assembly) :
    Result Assembly := do
  let holder ← Result.found (.noAnydataClass schema.path) schema.className
  o.anydata.attach.foldlM (fun a ⟨payload, h⟩ => do
    have := Object.sizeOf_lt_of_mem_anydata h
    writeObject reg payload (← reg.payloadNode holder payload) a) a
termination_by (sizeOf o, 0)

end

/-! ## Positioned objects -/

/-- Both are no node, or they are the same node. -/
def samePlace (a b : Option Ref) : Bool :=
  match a, b with
  | some a, some b => a == b
  | none, none => true
  | _, _ => false

/-- The data node of an object below a base. Below anydata any object may stand, anywhere else only
those that belong there. -/
def writeTop (reg : Registry) (base : Option Ref) (o : Object) (a : Assembly) :
    Result Assembly := do
  let schema ← reg.nodeOfClass o.className
  if schema.kind == .module then Result.refuse (.moduleObject o.className)
  let anywhere := base.any fun b => b.kind == .anydata
  if !samePlace schema.dataParent? base && !anywhere then
    Result.refuse (.foreignObject o.className (base.map Ref.path))
  reg.writeObject o schema a

/-- The data nodes of a leaf below a base. A leaf has exactly one value. -/
def writeLeafItem (reg : Registry) (base : Option Ref) (leaf : LeafId) (values : List LeafValue)
    (a : Assembly) : Result Assembly := do
  let owner ← reg.nodeOfClass leaf.owner
  let schema ← Result.found (.noLeafFor leaf.text)
    (((owner.findDataChild? leaf.name none).map fun c => c.node).filter fun c => c.kind.isLeafLike)
  if !samePlace schema.dataParent? base then
    Result.refuse (.foreignLeaf leaf.text (base.map Ref.path))
  if schema.kind == .leaf && values.length != 1 then
    Result.refuse (.leafValueCount leaf.text values.length)
  values.foldlM (writeLeaf schema) a

/-- The data nodes of an item below a base. -/
def writeItem (reg : Registry) (base : Option Ref) (a : Assembly) : Item → Result Assembly
  | .object o => reg.writeTop base o a
  | .leaf leaf values => reg.writeLeafItem base leaf values a

/-- The data of positioned objects. Nothing can be put below a leaf. -/
def write (reg : Registry) (data : ObjectData) : Result ResourceData := do
  let (id, base) ← reg.toResourceId data.id
  match base with
  | some node =>
    if node.kind.isLeafLike then
      if data.items.isEmpty then return { id }
      else Result.refuse (.objectsBelowLeaf node.kind node.path)
  | none => pure ()
  let a ← data.items.foldlM (reg.writeItem base) { base }
  pure { id, nodes := ← a.finish }

end YangBinding.Registry
