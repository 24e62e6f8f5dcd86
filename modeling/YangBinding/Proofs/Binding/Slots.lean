import YangBinding.Proofs.Binding.Described
import YangBinding.Proofs.Binding.Route
import YangBinding.Proofs.Latest
import YangBinding.Proofs.Sequence
import YangBinding.Tree.Assembly

/-!
# What an object contributes to data

The data nodes of an object come from slots, in the order of a walk over the schema: the fields of
the declared children, the cases that choices select, the augmentations, and the payloads below
anydata. A data node that comes from a case or an augmentation keeps in mind the layers that it is
seen through. Different slots contribute under different identifiers.

## Main definitions

* `Registry.Slot`, `Registry.slots` — where the content of an object comes from
* `Registry.objectNode`, `Registry.content` — the data node of an object, and what stands below it
* `Registry.Part`, `Registry.Throughout` — the objects inside an object, and what holds of them all
* `Registry.Typed` — objects of the right classes throughout
* `Registry.Writable` — nothing that the data of an object needs is missing

## Main results

* `Registry.Classified.mem_below_of_mem_content` — where the content of an object stands
* `Registry.Described.kept_eq` — slots do not disturb each other
-/

namespace YangBinding

open Schema (DataChild Kind Layer Model Ref)
open YangBinding.Tree (Node NodeKey keyLeaf?)

namespace Registry

/-- Where a part of the content of an object comes from. -/
inductive Slot where
  /-- The field of a child that is no choice. -/
  | field (child : Ref)
  /-- An object behind a layer: the case that a choice selects, or an augmentation. -/
  | layer (layer : Layer) (object : Object)
  /-- The payloads of an anydata node. -/
  | payloads

/-- The slots of a declared child. A choice has the one of the case it selects. -/
def slotsOf (reg : Registry) (o : Object) (child : Ref) : List Slot :=
  if child.kind = .choice then
    (o.objects child.name).filterMap fun selected =>
      (reg.nodeOfClass? selected.className).map fun s => .layer (.case child s) selected
  else [.field child]

/-- The slots of the augmentations of an object, in the order of the augments. -/
def augmentSlots (o : Object) (r : Ref) : List Slot :=
  r.augments.filterMap fun augment =>
    (augment.className.bind o.augmentation?).map fun a => .layer (.augment augment) a

/-- The slots of an object for a schema node, in the order of the walk over the schema. -/
def slots (reg : Registry) (o : Object) (r : Ref) : List Slot :=
  r.declared.flatMap (reg.slotsOf o) ++ augmentSlots o r ++
    if r.kind = .anydata then [.payloads] else []

/-- A data node with the place where the schema has it. -/
structure Placed where
  place : DataChild
  data : Node

/-- The same node as seen from outside one more layer. -/
def Placed.under (placed : Placed) (layer : Layer) : Placed :=
  { placed with place := placed.place.under layer }

/-- The data node of a value. -/
def leafNode (leaf : Ref) (value : LeafValue) : Node :=
  if leaf.kind = .leaf then .leaf { id := leaf.id } .singleLeaf value
  else .leaf { id := leaf.id, selector := .leafList value } .multiLeaf value

/-- The data node of a schema node with given children. The keys of a list entry are taken from its
leaves. -/
def innerNode (r : Ref) (children : List Node) : Node :=
  if r.kind = .list then
    .inner { id := r.id, selector := .list (r.keys.filterMap (keyLeaf? children)) } .multiNode
      children
  else .inner { id := r.id } .singleNode children

/-- The schema node of a payload of an anydata node. -/
def payloadOf? (reg : Registry) (holder : Ref) (payload : Object) : Option Ref :=
  holder.className.bind fun c => reg.payload? c payload.className

variable {reg : Registry} {m : Model} {o x : Object} {r s child : Ref} {layer : Layer}
  {slot : Slot} {p q : Placed}

/-! ### Membership -/

theorem mem_slotsOf_iff : slot ∈ reg.slotsOf o child ↔
    (child.kind ≠ .choice ∧ slot = .field child) ∨
      (child.kind = .choice ∧ ∃ x ∈ o.objects child.name, ∃ s,
        reg.nodeOfClass? x.className = some s ∧ slot = .layer (.case child s) x) := by
  unfold slotsOf
  split
  · next h =>
    simp only [List.mem_filterMap, Option.map_eq_some_iff, h, ne_eq, not_true_eq_false, false_and,
      false_or, true_and]
    refine exists_congr fun x => and_congr_right fun _ => exists_congr fun s =>
      and_congr_right fun _ => eq_comm
  · next h => simp [h]

theorem mem_augmentSlots_iff : slot ∈ augmentSlots o r ↔
    ∃ augment ∈ r.augments, ∃ c, augment.className = some c ∧ ∃ a, o.augmentation? c = some a ∧
      slot = .layer (.augment augment) a := by
  simp only [augmentSlots, List.mem_filterMap, Option.map_eq_some_iff, Option.bind_eq_some_iff]
  refine exists_congr fun augment => and_congr_right fun _ => ?_
  constructor
  · rintro ⟨a, ⟨c, hc, ha⟩, rfl⟩
    exact ⟨c, hc, a, ha, rfl⟩
  · rintro ⟨c, hc, a, ha, rfl⟩
    exact ⟨a, ⟨c, hc, ha⟩, rfl⟩

theorem mem_slots_iff : slot ∈ reg.slots o r ↔
    (∃ c ∈ r.declared, slot ∈ reg.slotsOf o c) ∨ slot ∈ augmentSlots o r ∨
      (r.kind = .anydata ∧ slot = .payloads) := by
  simp only [slots, List.mem_append, List.mem_flatMap, or_assoc]
  refine or_congr_right (or_congr_right ?_)
  split
  · next h => simp [h]
  · next h => simp [h]

theorem field_mem_slots_iff : .field child ∈ reg.slots o r ↔
    child ∈ r.declared ∧ child.kind ≠ .choice := by
  simp only [mem_slots_iff, mem_slotsOf_iff, mem_augmentSlots_iff, Slot.field.injEq, reduceCtorEq,
    and_false, exists_false, or_false]
  constructor
  · rintro ⟨c, hc, hk, rfl⟩
    exact ⟨hc, hk⟩
  · rintro ⟨hc, hk⟩
    exact ⟨child, hc, hk, rfl⟩

/-- Behind the layer of a case stands an object that the choice of it holds. -/
theorem case_mem_slots_iff : .layer (.case child s) x ∈ reg.slots o r ↔
    child ∈ r.declared ∧ child.kind = .choice ∧ x ∈ o.objects child.name ∧
      reg.nodeOfClass? x.className = some s := by
  simp only [mem_slots_iff, mem_slotsOf_iff, mem_augmentSlots_iff, Slot.layer.injEq,
    Layer.case.injEq, reduceCtorEq, and_false, false_and, exists_false, or_false, false_or]
  constructor
  · rintro ⟨_, hc, hk, _, hx, _, hs, ⟨rfl, rfl⟩, rfl⟩
    exact ⟨hc, hk, hx, hs⟩
  · rintro ⟨hc, hk, hx, hs⟩
    exact ⟨child, hc, hk, x, hx, s, hs, ⟨rfl, rfl⟩, rfl⟩

/-- Behind the layer of an augment stands the augmentation of its class. -/
theorem augment_mem_slots_iff : .layer (.augment s) x ∈ reg.slots o r ↔
    s ∈ r.augments ∧ s.className.bind o.augmentation? = some x := by
  simp only [mem_slots_iff, mem_slotsOf_iff, mem_augmentSlots_iff, Slot.layer.injEq,
    Layer.augment.injEq, reduceCtorEq, and_false, false_and, exists_false, or_false, false_or,
    Option.bind_eq_some_iff]
  constructor
  · rintro ⟨_, hs, c, hc, _, hx, rfl, rfl⟩
    exact ⟨hs, c, hc, hx⟩
  · rintro ⟨hs, c, hc, hx⟩
    exact ⟨s, hs, c, hc, x, hx, rfl, rfl⟩

theorem payloads_mem_slots_iff : .payloads ∈ reg.slots o r ↔ r.kind = .anydata := by
  simp [mem_slots_iff, mem_slotsOf_iff, mem_augmentSlots_iff]

/-- What comes from the slots of a child: from those of the selected cases in case of a choice. -/
theorem flatMap_slotsOf {α : Type} (reg : Registry) (o : Object) (child : Ref) (f : Slot → List α) :
    (reg.slotsOf o child).flatMap f =
      if child.kind = .choice then
        (o.objects child.name).flatMap fun x => match reg.nodeOfClass? x.className with
          | some s => f (.layer (.case child s) x)
          | none => []
      else f (.field child) := by
  unfold slotsOf
  split
  · rw [List.filterMap_eq_flatMap_toList, List.flatMap_assoc]
    refine congrArg (fun g => (o.objects child.name).flatMap g) (funext fun x => ?_)
    cases reg.nodeOfClass? x.className <;> simp
  · exact List.flatMap_singleton _ _

/-- What comes from the slots of the augmentations, augment by augment. -/
theorem flatMap_augmentSlots {α : Type} (o : Object) (r : Ref) (f : Slot → List α) :
    (augmentSlots o r).flatMap f = r.augments.flatMap fun augment =>
      match augment.className.bind o.augmentation? with
      | some x => f (.layer (.augment augment) x)
      | none => [] := by
  rw [augmentSlots, List.filterMap_eq_flatMap_toList, List.flatMap_assoc]
  refine congrArg (fun g => r.augments.flatMap g) (funext fun augment => ?_)
  cases augment.className.bind o.augmentation? <;> simp

/-- The objects behind layers are smaller than the object that holds them. -/
theorem sizeOf_lt_of_mem_slots (h : .layer layer x ∈ reg.slots o r) : sizeOf x < sizeOf o := by
  cases layer with
  | case choice s =>
    obtain ⟨-, -, hx, -⟩ := case_mem_slots_iff.1 h
    exact Object.sizeOf_lt_of_mem_members hx
  | augment augment =>
    obtain ⟨-, hx⟩ := augment_mem_slots_iff.1 h
    obtain ⟨c, -, hx⟩ := Option.bind_eq_some_iff.1 hx
    exact Object.sizeOf_lt_of_mem_augmentations (List.mem_of_find?_eq_some hx)

/-! ### Content -/

mutual

/-- The data node of an object. -/
def objectNode (reg : Registry) (o : Object) (r : Ref) : Node :=
  innerNode r (Tree.Children.ofList ((content reg o r).map Placed.data))
termination_by (sizeOf o, 1)

/-- The data nodes of what an object holds, slot by slot. -/
def content (reg : Registry) (o : Object) (r : Ref) : List Placed :=
  (reg.slots o r).attach.flatMap fun ⟨slot, h⟩ =>
    match slot, h with
    | .field c, _ =>
      if c.kind.isLeafLike then
        (o.leafValues c.name).map fun v => { place := { node := c }, data := leafNode c v }
      else (o.objects c.name).attach.map fun ⟨x, hx⟩ =>
        have := Object.sizeOf_lt_of_mem_members hx
        { place := { node := c }, data := objectNode reg x c }
    | .layer l x, h =>
      have := sizeOf_lt_of_mem_slots h
      (content reg x l.node).map fun p => p.under l
    | .payloads, _ =>
      o.anydata.attach.filterMap fun ⟨x, hx⟩ =>
        have := Object.sizeOf_lt_of_mem_anydata hx
        (reg.payloadOf? r x).map fun s => { place := { node := s }, data := objectNode reg x s }
termination_by (sizeOf o, 0)

end

/-- The data nodes of a field of values. -/
def leafContent (o : Object) (child : Ref) : List Placed :=
  (o.leafValues child.name).map fun v => { place := { node := child }, data := leafNode child v }

/-- The data nodes of a field of objects. -/
def memberContent (reg : Registry) (o : Object) (child : Ref) : List Placed :=
  (o.objects child.name).map fun x =>
    { place := { node := child }, data := reg.objectNode x child }

/-- The data nodes of the payloads of an anydata node. -/
def payloadContent (reg : Registry) (o : Object) (r : Ref) : List Placed :=
  o.anydata.filterMap fun x => (reg.payloadOf? r x).map fun s =>
    { place := { node := s }, data := reg.objectNode x s }

/-- The data nodes of a slot. -/
def slotContent (reg : Registry) (o : Object) (r : Ref) : Slot → List Placed
  | .field c => if c.kind.isLeafLike then leafContent o c else reg.memberContent o c
  | .layer l x => (reg.content x l.node).map fun p => p.under l
  | .payloads => reg.payloadContent o r

theorem objectNode_eq (reg : Registry) (o : Object) (r : Ref) :
    reg.objectNode o r =
      innerNode r (((reg.content o r).map Placed.data).latest Node.key) := by
  rw [objectNode, Tree.Children.ofList_eq]

theorem content_eq (reg : Registry) (o : Object) (r : Ref) :
    reg.content o r = (reg.slots o r).flatMap (reg.slotContent o r) := by
  rw [content]
  rw [List.flatMap_subtype (g := reg.slotContent o r), List.unattach_attach]
  rintro (c | ⟨l, x⟩ | _) h
  · simp [slotContent, leafContent, memberContent]
  · rfl
  · simp [slotContent, payloadContent]

/-! ### Objects inside objects -/

/-- An object that holds the content of a schema node has a part that holds the content of
another. -/
inductive Part (reg : Registry) (o : Object) (r : Ref) : Object → Ref → Prop
  | field {child : Ref} {x : Object} (slot : .field child ∈ reg.slots o r)
      (inner : child.kind.isLeafLike = false) (mem : x ∈ o.objects child.name) : Part reg o r x child
  | layer {l : Layer} {x : Object} (slot : .layer l x ∈ reg.slots o r) : Part reg o r x l.node
  | payload {x : Object} {s : Ref} (slot : .payloads ∈ reg.slots o r) (mem : x ∈ o.anydata)
      (node : reg.payloadOf? r x = some s) : Part reg o r x s

/-- Something holds of an object and of all objects inside, each with the schema node whose content
it holds. -/
inductive Throughout (reg : Registry) (P : Object → Ref → Prop) : Object → Ref → Prop
  | mk {o : Object} {r : Ref} (here : P o r) (parts : ∀ x s, reg.Part o r x s → Throughout reg P x s) :
      Throughout reg P o r

/-- All objects inside are proper, each of the class that is bound to the node whose content it
holds. -/
def Typed (reg : Registry) : Object → Ref → Prop :=
  reg.Throughout fun o r => reg.classOf? r = some o.type ∧ o.Proper

/-- The choices of an object select cases of their own. -/
def Selects (reg : Registry) (o : Object) (r : Ref) : Prop :=
  ∀ choice ∈ r.declared, choice.kind = .choice → ∀ x ∈ o.objects choice.name,
    ∃ s ∈ choice.cases, reg.nodeOfClass? x.className = some s

/-- What the data of an object needs: choices select cases of their own, the key leaves of a list
entry are there, and payloads are registered for their holder. -/
structure Complete (reg : Registry) (o : Object) (r : Ref) : Prop where
  selects : reg.Selects o r
  keys : r.kind = .list → ∀ key ∈ r.keys,
    ∃ p ∈ reg.content o r, p.place.node.kind = .leaf ∧ p.place.node.name = key
  payloads : r.kind = .anydata → ∀ x ∈ o.anydata, ∃ s, reg.payloadOf? r x = some s

/-- Nothing that the data of an object needs is missing, here or in an object inside. -/
def Writable (reg : Registry) : Object → Ref → Prop := reg.Throughout reg.Complete

theorem Part.sizeOf_lt (h : reg.Part o r x s) : sizeOf x < sizeOf o := by
  cases h with
  | field _ _ mem => exact Object.sizeOf_lt_of_mem_members mem
  | layer slot => exact sizeOf_lt_of_mem_slots slot
  | payload _ mem _ => exact Object.sizeOf_lt_of_mem_anydata mem

section Throughout

variable {P : Object → Ref → Prop}

theorem throughout_iff :
    reg.Throughout P o r ↔ P o r ∧ ∀ x s, reg.Part o r x s → reg.Throughout P x s :=
  ⟨fun ⟨here, parts⟩ => ⟨here, parts⟩, fun ⟨here, parts⟩ => ⟨here, parts⟩⟩

theorem Throughout.here (h : reg.Throughout P o r) : P o r := (throughout_iff.1 h).1

theorem Throughout.part (h : reg.Throughout P o r) (hp : reg.Part o r x s) :
    reg.Throughout P x s := (throughout_iff.1 h).2 x s hp

theorem Throughout.imp {Q : Object → Ref → Prop} (h : reg.Throughout P o r)
    (hPQ : ∀ {o r}, P o r → Q o r) : reg.Throughout Q o r := by
  induction h with
  | mk here _ ih => exact .mk (hPQ here) ih

/-- What passes from every object to its parts holds throughout. -/
theorem Throughout.of_inherited (hpart : ∀ {o r x s}, P o r → reg.Part o r x s → P x s)
    (h : P o r) : reg.Throughout P o r := by
  induction hn : sizeOf o using Nat.strongRecOn generalizing o r with
  | ind n ih => exact .mk h fun x s hp => ih _ (hn ▸ hp.sizeOf_lt) (hpart h hp) rfl

theorem Throughout.and {Q : Object → Ref → Prop} (hP : reg.Throughout P o r)
    (hQ : reg.Throughout Q o r) : reg.Throughout (fun o r => P o r ∧ Q o r) o r := by
  induction hP with
  | mk here _ ih => exact .mk ⟨here, hQ.here⟩ fun x s hp => ih x s hp (hQ.part hp)

theorem Writable.selects (h : reg.Writable o r) : reg.Throughout reg.Selects o r :=
  h.imp Complete.selects

end Throughout

/-! ### Where content stands -/

@[simp]
theorem key_id_leafNode (leaf : Ref) (v : LeafValue) : (leafNode leaf v).key.id = leaf.id := by
  unfold leafNode
  split <;> rfl

@[simp]
theorem key_id_innerNode (r : Ref) (children : List Node) :
    (innerNode r children).key.id = r.id := by
  unfold innerNode
  split <;> rfl

@[simp]
theorem key_id_objectNode (reg : Registry) (o : Object) (r : Ref) :
    (reg.objectNode o r).key.id = r.id := by
  rw [objectNode_eq, key_id_innerNode]

theorem mem_content_iff : p ∈ reg.content o r ↔
    ∃ slot ∈ reg.slots o r, p ∈ reg.slotContent o r slot := by
  rw [content_eq, List.mem_flatMap]

theorem mem_payloadContent_iff : p ∈ reg.payloadContent o r ↔
    ∃ x ∈ o.anydata, ∃ s, reg.payloadOf? r x = some s ∧
      p = { place := { node := s }, data := reg.objectNode x s } := by
  simp only [payloadContent, List.mem_filterMap, Option.map_eq_some_iff, eq_comm (a := p)]

/-- The content of a field stands right below the schema node. -/
theorem place_of_mem_field (hp : p ∈ reg.slotContent o r (.field child)) :
    p.place = { node := child } := by
  rw [slotContent] at hp
  split at hp
  · obtain ⟨v, -, rfl⟩ := List.mem_map.1 hp
    rfl
  · obtain ⟨x, -, rfl⟩ := List.mem_map.1 hp
    rfl

/-- Data nodes are known by the identifiers of their schema nodes. -/
theorem key_id_of_mem_content (hp : p ∈ reg.content o r) : p.data.key.id = p.place.node.id := by
  induction hn : sizeOf o using Nat.strongRecOn generalizing o r p with
  | ind n ih =>
    obtain ⟨slot, hslot, hp⟩ := mem_content_iff.1 hp
    cases slot with
    | field c =>
      rw [slotContent] at hp
      split at hp
      · obtain ⟨v, -, rfl⟩ := List.mem_map.1 hp
        exact key_id_leafNode c v
      · obtain ⟨x, -, rfl⟩ := List.mem_map.1 hp
        exact key_id_objectNode reg x c
    | layer l x =>
      obtain ⟨q, hq, rfl⟩ := List.mem_map.1 hp
      exact ih (sizeOf x) (hn ▸ sizeOf_lt_of_mem_slots hslot) (p := q) hq rfl
    | payloads =>
      obtain ⟨x, -, s, -, rfl⟩ := mem_payloadContent_iff.1 hp
      exact key_id_objectNode reg x s

/-- The layers that an object has something behind are layers of its schema node. -/
theorem Selects.mem_layers (hs : reg.Selects o r) (h : .layer layer x ∈ reg.slots o r) :
    layer ∈ r.layers := by
  cases layer with
  | case choice s =>
    obtain ⟨hc, hk, hx, hnode⟩ := case_mem_slots_iff.1 h
    obtain ⟨s', hcase, hs'⟩ := hs choice hc hk x hx
    cases hnode.symm.trans hs'
    exact Ref.case_mem_layers (List.mem_filter.1 hc).1 hk hcase
  | augment augment => exact Ref.augment_mem_layers (augment_mem_slots_iff.1 h).1

theorem mem_payloads_of_payloadOf? (h : reg.payloadOf? r x = some s) : s ∈ reg.payloads r := by
  obtain ⟨holder, hholder, h⟩ := Option.bind_eq_some_iff.1 h
  rw [payload?] at h
  split at h
  · next hmem => exact mem_payloads_iff.2 ⟨holder, _, hholder, by simpa using hmem, h⟩
  · cases h

/-- Something stands behind the layers of the cases that choices select, and of the augments that the
object has an augmentation for. -/
theorem forall_layer_iff {P : Layer → Object → Prop} :
    (∀ l x, .layer l x ∈ reg.slots o r → P l x) ↔
      (∀ c ∈ r.declared, c.kind = .choice → ∀ x ∈ o.objects c.name, ∀ s,
        reg.nodeOfClass? x.className = some s → P (.case c s) x) ∧
      ∀ augment ∈ r.augments, ∀ x, augment.className.bind o.augmentation? = some x →
        P (.augment augment) x := by
  constructor
  · intro h
    exact ⟨fun c hc hk x hx s hs => h _ x (case_mem_slots_iff.2 ⟨hc, hk, hx, hs⟩),
      fun augment ha x hx => h _ x (augment_mem_slots_iff.2 ⟨ha, hx⟩)⟩
  · rintro ⟨hcases, haugments⟩ l x hslot
    cases l with
    | case c s =>
      obtain ⟨hc, hk, hx, hs⟩ := case_mem_slots_iff.1 hslot
      exact hcases c hc hk x hx s hs
    | augment augment =>
      obtain ⟨ha, hx⟩ := augment_mem_slots_iff.1 hslot
      exact haugments augment ha x hx

/-- The parts of an object stand in fields, behind layers, or in payloads. -/
theorem forall_part_iff {P : Object → Ref → Prop} :
    (∀ x s, reg.Part o r x s → P x s) ↔
      (∀ c ∈ r.declared, c.kind ≠ .choice → c.kind.isLeafLike = false →
        ∀ x ∈ o.objects c.name, P x c) ∧
      (∀ l x, .layer l x ∈ reg.slots o r → P x l.node) ∧
      (r.kind = .anydata → ∀ x ∈ o.anydata, ∀ s, reg.payloadOf? r x = some s → P x s) := by
  constructor
  · intro h
    exact ⟨fun c hc hk hinner x hx => h x c (.field (field_mem_slots_iff.2 ⟨hc, hk⟩) hinner hx),
      fun l x hslot => h x _ (.layer hslot),
      fun hk x hx s hs => h x s (.payload (payloads_mem_slots_iff.2 hk) hx hs)⟩
  · rintro ⟨hfields, hlayers, hpayloads⟩ x s hp
    cases hp with
    | field slot inner mem =>
      obtain ⟨hc, hk⟩ := field_mem_slots_iff.1 slot
      exact hfields _ hc hk inner x mem
    | layer slot => exact hlayers _ x slot
    | payload slot mem node => exact hpayloads (payloads_mem_slots_iff.1 slot) x mem s node

/-- What holds of the objects in fields, in the cases that choices select, in augmentations and in
payloads holds of all parts of an object. -/
theorem forall_part {P : Object → Ref → Prop}
    (hfields : ∀ c ∈ r.declared, c.kind ≠ .choice → c.kind.isLeafLike = false →
      ∀ x ∈ o.objects c.name, P x c)
    (hcases : ∀ c ∈ r.declared, c.kind = .choice → ∀ x ∈ o.objects c.name, ∀ s,
      reg.nodeOfClass? x.className = some s → P x s)
    (haugments : ∀ augment ∈ r.augments, ∀ x, augment.className.bind o.augmentation? = some x →
      P x augment)
    (hpayloads : r.kind = .anydata → ∀ x ∈ o.anydata, ∀ s, reg.payloadOf? r x = some s → P x s)
    (hp : reg.Part o r x s) : P x s :=
  forall_part_iff.2 ⟨hfields, forall_layer_iff.2 ⟨hcases, haugments⟩, hpayloads⟩ x s hp

section Classified

variable (h : reg.Classified m) (hr : r.model = m) (hh : HoldsObjects r)
include h hr hh

/-- A declared child that is no choice shows up in data. -/
theorem Classified.isLayer_eq_false (hc : child ∈ r.declared) (hk : child.kind ≠ .choice) :
    child.isLayer = false := by
  obtain ⟨c, hclass, hd⟩ := h.exists_class hr hh
  obtain ⟨f, hf⟩ := h.exists_field hr hh hclass hc
  have hs := hf.suits
  cases hkind : child.kind <;> cases ht : f.type <;>
    simp_all [FieldType.suits, Ref.isLayer_eq_false_iff, Kind.isSingleObject]

/-- The parts of an object hold the content of nodes that objects may hold. -/
theorem Classified.holdsObjects_of_part (hs : reg.Selects o r) (hp : reg.Part o r x s) :
    s.model = m ∧ HoldsObjects s := by
  cases hp with
  | field slot inner mem =>
    obtain ⟨hchild, hk⟩ := field_mem_slots_iff.1 slot
    obtain ⟨c, hclass, -⟩ := h.exists_class hr hh
    obtain ⟨f, hf⟩ := h.exists_field hr hh hclass hchild
    exact ⟨(Ref.model_of_mem_children (List.mem_filter.1 hchild).1).trans hr,
      hf.holdsObjects inner hk⟩
  | layer slot =>
    have hl := hs.mem_layers slot
    exact ⟨(Ref.model_of_mem_layers hl).trans hr,
      hh.of_mem_layers (hr.symm ▸ h.sole.linked) hl⟩
  | payload slot mem node =>
    have hk := payloads_mem_slots_iff.1 slot
    have hmem := mem_payloads_of_payloadOf? node
    obtain ⟨_, _, -, -, hs⟩ := mem_payloads_iff.1 hmem
    exact ⟨(h.sole.nodeOfClass?_eq_some_iff.1 hs).1, h.holdsObjects_of_mem_payloads hr hk hmem⟩

/-- What an object contributes stands below its schema node. -/
theorem Classified.mem_below_of_mem_content (hs : reg.Throughout reg.Selects o r)
    (hp : p ∈ reg.content o r) :
    p.place ∈ reg.below (some r) := by
  -- Content behind a layer is content of a smaller object, below the same node.
  induction hn : sizeOf o using Nat.strongRecOn generalizing o r p with
  | ind n ih =>
    obtain ⟨slot, hslot, hp⟩ := mem_content_iff.1 hp
    cases slot with
    | field c =>
      obtain ⟨hc, hk⟩ := field_mem_slots_iff.1 hslot
      rw [place_of_mem_field hp]
      exact mem_below_of_mem_offers (hr.symm ▸ h.sole.linked)
        (Ref.mem_offers_iff.2 (.inl ⟨c, (List.mem_filter.1 hc).1,
          h.isLayer_eq_false hr hh hc hk, rfl⟩))
    | layer l x =>
      obtain ⟨q, hq, rfl⟩ := List.mem_map.1 hp
      have hpart : reg.Part o r x l.node := .layer hslot
      have hl := hs.here.mem_layers hslot
      obtain ⟨hlr, hlh⟩ := h.holdsObjects_of_part hr hh hs.here hpart
      have hbelow := ih _ (hn ▸ hpart.sizeOf_lt) hlr hlh (hs.part hpart) hq rfl
      have hlayer := Ref.isLayer_of_mem_layers (hr.symm ▸ h.sole.linked) hl
      have hany : l.node.kind ≠ .anydata := by
        intro hk
        simp [Ref.isLayer_iff, hk] at hlayer
      rw [below, if_neg hany] at hbelow
      exact mem_below_of_mem_offers (hr.symm ▸ h.sole.linked)
        (Ref.mem_offers_of_mem_layers hl hbelow)
    | payloads =>
      have hk := payloads_mem_slots_iff.1 hslot
      obtain ⟨x, -, s, hs, rfl⟩ := mem_payloadContent_iff.1 hp
      rw [below, if_pos hk]
      exact List.mem_map_of_mem (mem_payloads_of_payloadOf? hs)

end Classified

/-! ### Slots do not meet -/

/-- The child or augment that a slot belongs to. -/
def Slot.origin? : Slot → Option Ref
  | .field child => some child
  | .layer (.case choice _) _ => some choice
  | .layer (.augment augment) _ => some augment
  | .payloads => none

/-- The child or augment of a node in which a data child of it is found. -/
def origin (e : DataChild) : Ref :=
  match e.layers with
  | [] => e.node
  | .case choice _ :: _ => choice
  | .augment augment :: _ => augment

theorem origin_of_mem_slotContent (hp : p ∈ reg.slotContent o r slot) (hs : slot ≠ .payloads) :
    slot.origin? = some (origin p.place) := by
  cases slot with
  | field c =>
    rw [place_of_mem_field hp]
    rfl
  | layer l x =>
    obtain ⟨q, -, rfl⟩ := List.mem_map.1 hp
    cases l <;> rfl
  | payloads => exact absurd rfl hs

/-- A child has one slot at most if choices select one case at most. -/
private theorem origins_slotsOf (hsingle : child.kind = .choice → (o.objects child.name).length ≤ 1) :
    ((reg.slotsOf o child).map Slot.origin?).Sublist [some child] := by
  unfold slotsOf
  split
  · next hk =>
    have hle := hsingle hk
    rcases hobjects : o.objects child.name with _ | ⟨x, _ | ⟨y, rest⟩⟩
    · exact List.nil_sublist _
    · cases hx : reg.nodeOfClass? x.className <;> simp [hx, Slot.origin?]
    · simp [hobjects] at hle
  · exact List.Sublist.refl _

private theorem origins_augmentSlots :
    ((augmentSlots o r).map Slot.origin?).Sublist (r.augments.map some) := by
  rw [augmentSlots, List.filterMap_eq_flatMap_toList, List.map_flatMap]
  refine List.flatMap_sublist_map fun augment _ => ?_
  cases augment.className.bind o.augmentation? <;> simp [Slot.origin?]

/-- Where choices select one case at most, different slots belong to different children or
augments. -/
theorem nodup_origins (hl : r.model.Linked)
    (hsingle : ∀ c ∈ r.declared, c.kind = .choice → (o.objects c.name).length ≤ 1) :
    ((reg.slots o r).map Slot.origin?).Nodup := by
  have hfields : ((r.declared.flatMap (reg.slotsOf o)).map Slot.origin?).Sublist
      (r.declared.map some) := by
    rw [List.map_flatMap]
    exact List.flatMap_sublist_map fun c hc => origins_slotsOf (hsingle c hc)
  have haugments : ((augmentSlots o r).map Slot.origin?).Sublist (r.augments.map some) :=
    origins_augmentSlots
  have hsome : Function.Injective (some : Ref → Option Ref) := fun _ _ => Option.some.inj
  have hdeclared : (r.declared.map some).Nodup :=
    ((Ref.nodup_children hl).filter _).map hsome
  have hnodup : (r.augments.map some).Nodup := (Ref.nodup_augments hl).map hsome
  rw [slots, List.map_append, List.map_append]
  refine ((hfields.nodup hdeclared).append (haugments.nodup hnodup) ?_).append ?_ ?_
  · -- No augment is among the declared children, of which it is no kind.
    intro c hc hc'
    obtain ⟨d, hd, rfl⟩ := List.mem_map.1 (hfields.subset hc)
    obtain ⟨a, ha, hda⟩ := List.mem_map.1 (haugments.subset hc')
    cases hda
    have hk : d.kind ≠ .augment := by simpa using (List.mem_filter.1 hd).2
    exact hk (Ref.kind_of_mem_augments hl ha)
  · split <;> simp
  · intro c hc hc'
    split at hc'
    · obtain rfl : c = none := by simpa [Slot.origin?] using hc'
      rcases List.mem_append.1 hc with hc | hc
      · simpa using hfields.subset hc
      · simpa using haugments.subset hc
    · cases hc'

section Classified

variable (h : reg.Classified m) (hr : r.model = m) (hh : HoldsObjects r)
include h hr

/-- An anydata node declares nothing and is not augmented. -/
theorem Classified.childless_of_anydata (hk : r.kind = .anydata) :
    r.declared = [] ∧ r.augments = [] :=
  Ref.childless (hr.symm ▸ h.sole.linked) (by simp [hk, Kind.canHoldChildren])

/-- An anydata node has nothing but payloads. -/
theorem Classified.slots_of_anydata (hk : r.kind = .anydata) : reg.slots o r = [.payloads] := by
  obtain ⟨hdeclared, haugments⟩ := h.childless_of_anydata hr hk
  simp [slots, augmentSlots, hdeclared, haugments, hk]

include hh

theorem Classified.length_leafValues_le (ht : reg.Typed o r) (hc : child ∈ r.declared)
    (hk : child.kind = .leaf) : (o.leafValues child.name).length ≤ 1 := by
  obtain ⟨hclass, hproper⟩ := ht.here
  obtain ⟨f, hf⟩ := h.exists_field hr hh hclass hc
  rw [← hf.name_eq]
  exact hproper.single_values f hf.own (by rw [hf.isSingle_eq]; simp [hk])

/-- A choice of a proper object selects at most one case. -/
theorem Classified.length_objects_le (ht : reg.Typed o r) (hc : child ∈ r.declared)
    (hk : child.kind ≠ .list) : (o.objects child.name).length ≤ 1 := by
  obtain ⟨hclass, hproper⟩ := ht.here
  obtain ⟨f, hf⟩ := h.exists_field hr hh hclass hc
  cases hlist : child.kind == .leafList with
  | true =>
    -- The field of a leaf-list holds no objects at all.
    have hnot : child.name ∉ o.type.objectNames := by
      intro hmem
      obtain ⟨c, hc', hname, hleaf⟩ := h.mem_objectNames hr hh hclass hmem
      obtain rfl : c = child := List.eq_of_nodup_map
        (h.nodup_declared r (Ref.mem_refs_iff.2 hr) hh) hc' hc hname
      simp [beq_iff_eq.1 hlist, Kind.isLeafLike] at hleaf
    have hnone : o.objects child.name = [] := by
      rw [← hproper.shape]
      simp [Object.objects, Object.members, Class.make, List.lookup_map_of_mem, hnot]
    simp [hnone]
  | false =>
    refine hf.name_eq ▸ hproper.single_objects f hf.own ?_
    rw [hf.isSingle_eq, hlist]
    simp [hk]

/-- Different slots of a proper object belong to different children or augments. -/
theorem Classified.nodup_origins (ht : reg.Typed o r) :
    ((reg.slots o r).map Slot.origin?).Nodup :=
  Registry.nodup_origins (hr.symm ▸ h.sole.linked) fun c hc hk =>
    h.length_objects_le hr hh ht hc (by simp [hk])

/-- Outside of anydata the key of a data node tells its place. -/
theorem Classified.place_eq_of_key_eq (hs : reg.Throughout reg.Selects o r) (hk : r.kind ≠ .anydata)
    (hn : (r.offers.map fun e => e.node.id).Nodup) (hp : p ∈ reg.content o r)
    (hq : q ∈ reg.content o r) (hkey : p.data.key = q.data.key) : p.place = q.place := by
  have hpb := h.mem_below_of_mem_content hr hh hs hp
  have hqb := h.mem_below_of_mem_content hr hh hs hq
  rw [below, if_neg hk] at hpb hqb
  refine List.eq_of_nodup_map hn hpb hqb ?_
  rw [← key_id_of_mem_content hp, ← key_id_of_mem_content hq, hkey]

end Classified

/-- Different slots contribute under different keys. -/
theorem Described.disjoint_slots (h : reg.Described m) (hr : r.model = m) (hh : HoldsObjects r)
    (ht : reg.Typed o r) (hs : reg.Throughout reg.Selects o r) :
    (reg.slots o r).Pairwise fun s t =>
      ∀ k ∈ (reg.slotContent o r s).map fun p => p.data.key,
        k ∉ (reg.slotContent o r t).map fun p => p.data.key := by
  by_cases hk : r.kind = .anydata
  · rw [h.classified.slots_of_anydata hr hk]
    exact List.pairwise_singleton _ _
  have hno : .payloads ∉ reg.slots o r := mt payloads_mem_slots_iff.1 hk
  have horigins := List.pairwise_map.1 (h.classified.nodup_origins hr hh ht)
  refine List.Pairwise.imp_of_mem ?_ horigins
  intro s t hsmem htmem hne k hks hkt
  obtain ⟨p, hp, rfl⟩ := List.mem_map.1 hks
  obtain ⟨q, hq, hkey⟩ := List.mem_map.1 hkt
  refine hne ?_
  rw [origin_of_mem_slotContent hp (fun e => hno (e ▸ hsmem)),
    origin_of_mem_slotContent hq (fun e => hno (e ▸ htmem)),
    h.classified.place_eq_of_key_eq hr hh hs hk (h.nodup_offers hr hh.kind_ne_choice)
      (mem_content_iff.2 ⟨s, hsmem, hp⟩) (mem_content_iff.2 ⟨t, htmem, hq⟩) hkey.symm]

/-- What is left of the content of an object when later nodes take the places of earlier ones. -/
def kept (reg : Registry) (o : Object) (r : Ref) : List Placed :=
  (reg.content o r).latest fun p => p.data.key

/-- What is left of the content of a slot. -/
def keptOf (reg : Registry) (o : Object) (r : Ref) (slot : Slot) : List Placed :=
  (reg.slotContent o r slot).latest fun p => p.data.key

/-- Slots do not disturb each other. -/
theorem Described.kept_eq (h : reg.Described m) (hr : r.model = m) (hh : HoldsObjects r)
    (ht : reg.Typed o r) (hs : reg.Throughout reg.Selects o r) :
    reg.kept o r = (reg.slots o r).flatMap (reg.keptOf o r) := by
  rw [kept, content_eq, List.latest_flatMap (h.disjoint_slots hr hh ht hs)]
  rfl

/-- The children of the data node of an object are what is left of its content. -/
theorem objectNode_eq_kept (reg : Registry) (o : Object) (r : Ref) :
    reg.objectNode o r = innerNode r ((reg.kept o r).map Placed.data) := by
  rw [objectNode_eq, kept, List.latest_map]

end Registry

end YangBinding
