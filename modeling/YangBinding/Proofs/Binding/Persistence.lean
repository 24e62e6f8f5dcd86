import YangBinding.Proofs.Binding.Standing
import YangBinding.Proofs.Binding.Readout

/-!
# Conversions that outlast changes of a registry

Conversions ask a registry for the node and the description of a class, for the payloads of an
anydata node, and for top-level nodes. As long as a changed registry gives the same answers, every
conversion ends as before. If only answers that were given are given again, conversions that have
succeeded still succeed with the same result, while others may now succeed as well.

Data names its top-level nodes, and everything below these is looked up in the model that they
belong to. So only names at the top can be read differently; objects lead to their nodes through
classes, and what they are written as does not depend on top-level names at all.

## Main definitions

* `Registry.Keeps` — what a changed registry still answers

## Main results

* `Registry.Keeps.childOf?` — data children are found as before
* `Registry.Keeps.toResourceId`, `Registry.Keeps.write` — objects and their ids are converted as
  before
* `Registry.Keeps.resolve`, `Registry.Keeps.toObjectId`, `Registry.Keeps.read` — so are data whose
  names at the top mean what they meant
-/

namespace YangBinding.Registry

open Schema (DataChild Layer Model Ref)
open YangBinding.Tree (Assembly KeyLeaf Node NodeKey ResourceData ResourceId)

/-- A changed registry answers as before. If `lax`, this is not asked of classes that led to
nothing, and of top-level nodes only in namespaces that have been `Seen`. -/
structure Keeps (lax : Prop) (Seen : Option String → Prop) (reg reg' : Registry) : Prop where
  nodeOfClass? : ∀ c, reg.nodeOfClass? c = reg'.nodeOfClass? c ∨ lax ∧ reg.nodeOfClass? c = none
  class? : ∀ c, reg.class? c = reg'.class? c ∨ lax ∧ reg.class? c = none
  hasPayload : ∀ holder payload, reg.hasPayload holder payload = reg'.hasPayload holder payload
  payloadNamed? : ∀ holder name ns,
    reg.payloadNamed? holder name ns = reg'.payloadNamed? holder name ns
  topLevel? : ∀ name ns, Seen ns → reg.topLevel? name ns = reg'.topLevel? name ns

variable {lax : Prop} {Seen : Option String → Prop} {reg reg' : Registry} {parent base : Option Ref}
  {name : String} {ns : Option String} {node : Node} {r : Ref} {o : Object} {a : Assembly}

/-- What has to be found is found if it was found before. -/
theorem found_persists {α : Type} {cause : ResolutionError} {x y : Option α}
    (h : x = y ∨ lax ∧ x = none) :
    Except.Persists lax (Result.found cause x) (Result.found cause y) := by
  obtain rfl | ⟨hlax, rfl⟩ := h
  · exact .refl _
  · exact .inr ⟨hlax, _, rfl⟩

namespace Keeps

/-! ### Look-ups -/

theorem nodeOfClass (h : Keeps lax Seen reg reg') (c : String) :
    Except.Persists lax (reg.nodeOfClass c) (reg'.nodeOfClass c) :=
  found_persists (h.nodeOfClass? c)

theorem classOf? (h : Keeps lax Seen reg reg') (r : Ref) :
    reg.classOf? r = reg'.classOf? r ∨ lax ∧ reg.classOf? r = none := by
  rw [Registry.classOf?, Registry.classOf?]
  cases r.className with
  | none => exact .inl rfl
  | some c => exact h.class? c

theorem payload? (h : Keeps lax Seen reg reg') (holder payload : String) :
    reg.payload? holder payload = reg'.payload? holder payload ∨
      lax ∧ reg.payload? holder payload = none := by
  have hhas := h.hasPayload holder payload
  rw [Registry.hasPayload, Registry.hasPayload] at hhas
  rw [Registry.payload?, Registry.payload?, ← hhas]
  split
  · exact h.nodeOfClass? payload
  · exact .inl rfl

/-- Below a node all names mean what they meant. -/
theorem childOf?_below (h : Keeps lax Seen reg reg') (r : Ref) (name : String)
    (ns : Option String) :
    reg.childOf? (some r) name ns = reg'.childOf? (some r) name ns := by
  have hchild (ns : Option String) :
      reg.dataChild? (some r) name ns = reg'.dataChild? (some r) name ns := by
    simp only [dataChild?, h.payloadNamed?]
  simp only [Registry.childOf?, preferredChild?, hchild]

/-- At the top, names in namespaces that were seen mean what they meant. -/
theorem childOf? (h : Keeps lax Seen reg reg') (hseen : parent = none → Seen ns) :
    reg.childOf? parent name ns = reg'.childOf? parent name ns := by
  cases parent with
  | none =>
    have htop := h.topLevel? name ns (hseen rfl)
    cases ns <;> exact htop
  | some r => exact h.childOf?_below r name ns

theorem resolve (h : Keeps lax Seen reg reg') {id : ResourceId}
    (hid : ∀ key ∈ id.segments, Seen key.ns) : reg.resolve id = reg'.resolve id := by
  have hkey (key : NodeKey) (hk : key ∈ id.segments) (parent : Option Ref) :
      reg.resolveKey id parent key = reg'.resolveKey id parent key := by
    rw [resolveKey, resolveKey, h.childOf? fun _ => hid key hk]
  have hfold : Except.Persists False (reg.resolve id) (reg'.resolve id) :=
    List.foldlM_persists (fun key hk parent => .inl (by rw [hkey key hk parent])) none
  exact hfold.eq

/-! ### Addresses -/

theorem locateFirst (h : Keeps lax Seen reg reg') (step : Step) :
    Except.Persists lax (reg.locateFirst step) (reg'.locateFirst step) := by
  cases step with
  | child c | entry c _ => exact (h.nodeOfClass c).bind fun _ => .refl _
  | leaf l | leafEntry l _ => exact (h.nodeOfClass l.owner).bind fun _ => .refl _

theorem locateBelow (h : Keeps lax Seen reg reg') (r : Ref) (step : Step) :
    Except.Persists lax (reg.locateBelow r step) (reg'.locateBelow r step) := by
  have hname : Except.Persists lax (reg.stepName step) (reg'.stepName step) := by
    cases step with
    | child c | entry c _ => exact (h.nodeOfClass c).bind fun _ => .refl _
    | leaf l | leafEntry l _ => exact .refl _
  refine hname.bind fun (name, ns) => ?_
  change Except.Persists lax (Result.found _ (reg.childOf? (some r) name ns) >>= _)
    (Result.found _ (reg'.childOf? (some r) name ns) >>= _)
  rw [h.childOf?_below]
  exact .refl _

theorem followSteps (h : Keeps lax Seen reg reg') (id : ObjectId) (steps : List Step)
    (rid : ResourceId) (current : Option Ref) :
    Except.Persists lax (reg.followSteps id steps rid current)
      (reg'.followSteps id steps rid current) := by
  induction steps generalizing rid current with
  | nil => exact .refl _
  | cons step steps ih =>
    rw [Registry.followSteps, Registry.followSteps]
    split
    · exact .refl _
    cases current with
    | none =>
      exact (h.locateFirst step).bind fun node => (Except.Persists.refl _).bind fun above =>
        (Except.Persists.refl (stepKey node step)).bind fun key => ih _ _
    | some r =>
      exact (h.locateBelow r step).bind fun node =>
        (Except.Persists.refl (stepKey node step)).bind fun key => ih _ _

/-- The resource id of an object id does not depend on top-level names. -/
theorem toResourceId (h : Keeps lax Seen reg reg') (id : ObjectId) :
    Except.Persists lax (reg.toResourceId id) (reg'.toResourceId id) :=
  h.followSteps id id.steps .root none

theorem entryKey (h : Keeps lax Seen reg reg') (r : Ref) (leaves : List KeyLeaf) :
    Except.Persists lax (reg.entryKey r leaves) (reg'.entryKey r leaves) := by
  refine (found_persists ?_).bind fun _ => .refl _
  obtain heq | ⟨hlax, hnone⟩ := h.classOf? r
  · exact .inl (by rw [heq])
  · exact .inr ⟨hlax, by rw [hnone]; rfl⟩

theorem keyStep? (h : Keeps lax Seen reg reg') (r : Ref) (key : NodeKey) :
    Except.Persists lax (reg.keyStep? r key) (reg'.keyStep? r key) := by
  rw [Registry.keyStep?, Registry.keyStep?]
  split
  case h_5 leaves _ _ =>
    exact (Except.Persists.refl _).bind fun _ => (h.entryKey r leaves).bind fun _ => .refl _
  all_goals exact .refl _

theorem followKeys (h : Keeps lax Seen reg reg') (id : ResourceId) {keys : List NodeKey}
    (hkeys : ∀ key ∈ keys, Seen key.ns) (oid : ObjectId) (parent : Option Ref) :
    Except.Persists lax (reg.followKeys id keys oid parent)
      (reg'.followKeys id keys oid parent) := by
  induction keys generalizing oid parent with
  | nil => exact .refl _
  | cons key keys ih =>
    rw [Registry.followKeys, Registry.followKeys, h.childOf? fun _ => hkeys key List.mem_cons_self]
    have ih := ih fun k hk => hkeys k (List.mem_cons_of_mem _ hk)
    refine (Except.Persists.refl _).bind fun child =>
      (h.keyStep? child.node key).bind fun step => ?_
    cases step with
    | none => exact ih _ _
    | some step => exact (Except.Persists.refl _).bind fun _ => ih _ _

/-- The object id of a resource id depends on the names in the id alone. -/
theorem toObjectId (h : Keeps lax Seen reg reg') {id : ResourceId}
    (hid : ∀ key ∈ id.segments, Seen key.ns) :
    Except.Persists lax (reg.toObjectId id) (reg'.toObjectId id) :=
  h.followKeys id hid .root none

/-! ### Writing -/

theorem selectedCase (h : Keeps lax Seen reg reg') (choice : Ref) (o : Object) :
    Except.Persists lax (reg.selectedCase choice o) (reg'.selectedCase choice o) :=
  (h.nodeOfClass o.className).bind fun _ => .refl _

theorem payloadNode (h : Keeps lax Seen reg reg') (holder : String) (o : Object) :
    Except.Persists lax (reg.payloadNode holder o) (reg'.payloadNode holder o) :=
  found_persists (h.payload? holder o.className)

mutual

theorem writeObject (h : Keeps lax Seen reg reg') (o : Object) (r : Ref) (a : Assembly) :
    Except.Persists lax (reg.writeObject o r a) (reg'.writeObject o r a) := by
  rw [writeObject_eq, writeObject_eq]
  refine (Except.Persists.refl _).bind fun a => Except.Persists.bind ?_ fun _ => .refl _
  refine (writeContent h o r a).bind fun a => ?_
  split
  · exact writePayloads h o r a
  · exact .refl _
termination_by (sizeOf o, 2)

theorem writeContent (h : Keeps lax Seen reg reg') (o : Object) (r : Ref) (a : Assembly) :
    Except.Persists lax (reg.writeContent o r a) (reg'.writeContent o r a) := by
  rw [writeContent_eq, writeContent_eq]
  refine (List.foldlM_persists (fun c _ a => writeField h o c a) a).bind fun a =>
    List.foldlM_persists (fun augment _ a => ?_) a
  split
  · next x hx =>
    obtain ⟨_, _, hx⟩ := Option.bind_eq_some_iff.1 hx
    have := Object.sizeOf_lt_of_mem_augmentations (List.mem_of_find?_eq_some hx)
    exact writeContent h x augment a
  · exact .refl _
termination_by (sizeOf o, 1)

theorem writeField (h : Keeps lax Seen reg reg') (o : Object) (child : Ref) (a : Assembly) :
    Except.Persists lax (reg.writeField o child a) (reg'.writeField o child a) := by
  rw [writeField_unfold, writeField_unfold]
  refine (Except.Persists.refl _).bind fun field => (Except.Persists.refl _).bind fun _ => ?_
  split
  · exact .refl _
  · exact .refl _
  · refine List.foldlM_persists (fun x hx a => ?_) a
    have := Object.sizeOf_lt_of_mem_members hx
    exact writeObject h x child a
  · refine List.foldlM_persists (fun x hx a => ?_) a
    have := Object.sizeOf_lt_of_mem_members hx
    exact writeObject h x child a
  · refine List.foldlM_persists (fun x hx a => ?_) a
    have := Object.sizeOf_lt_of_mem_members hx
    exact (h.selectedCase child x).bind fun s => writeContent h x s a
termination_by (sizeOf o, 0)

theorem writePayloads (h : Keeps lax Seen reg reg') (o : Object) (r : Ref) (a : Assembly) :
    Except.Persists lax (reg.writePayloads o r a) (reg'.writePayloads o r a) := by
  rw [writePayloads_eq, writePayloads_eq]
  refine (Except.Persists.refl _).bind fun holder => List.foldlM_persists (fun x hx a => ?_) a
  have := Object.sizeOf_lt_of_mem_anydata hx
  exact (h.payloadNode holder x).bind fun s => writeObject h x s a
termination_by (sizeOf o, 0)

end

theorem writeItem (h : Keeps lax Seen reg reg') (base : Option Ref) (a : Assembly) (item : Item) :
    Except.Persists lax (reg.writeItem base a item) (reg'.writeItem base a item) := by
  cases item with
  | object o =>
    refine (h.nodeOfClass o.className).bind fun r => ?_
    dsimp only
    split
    · exact .refl _
    split
    · exact .refl _
    exact h.writeObject o r a
  | leaf leaf values => exact (h.nodeOfClass leaf.owner).bind fun _ => .refl _

/-- What objects are written as does not depend on top-level names. -/
theorem write (h : Keeps lax Seen reg reg') (data : ObjectData) :
    Except.Persists lax (reg.write data) (reg'.write data) := by
  refine (h.toResourceId data.id).bind fun (id, base) => ?_
  have hitems : Except.Persists lax
      (do pure { id, nodes := ← (← data.items.foldlM (reg.writeItem base) { base }).finish } :
        Result ResourceData)
      (do pure { id, nodes := ← (← data.items.foldlM (reg'.writeItem base) { base }).finish }) :=
    (List.foldlM_persists (fun item _ a => h.writeItem base a item) _).bind fun _ => .refl _
  cases base with
  | none => exact hitems
  | some node =>
    dsimp only
    split
    · exact .refl _
    · exact hitems

/-! ### Reading -/

theorem resolveNode (h : Keeps lax Seen reg reg') {node : Node}
    (hseen : parent = none → Seen node.key.ns) :
    reg.resolveNode parent node = reg'.resolveNode parent node := by
  rw [Registry.resolveNode, Registry.resolveNode, h.childOf? hseen]

theorem resolveNode_below (h : Keeps lax Seen reg reg') (r : Ref) (node : Node) :
    reg.resolveNode (some r) node = reg'.resolveNode (some r) node := by
  rw [Registry.resolveNode, Registry.resolveNode, h.childOf?_below]

theorem instantiate (h : Keeps lax Seen reg reg') (r : Ref) :
    Except.Persists lax (reg.instantiate r) (reg'.instantiate r) :=
  (found_persists (h.classOf? r)).bind fun _ => .refl _

end Keeps

/-- The same child waits, except that its object may have been read with another registry. -/
structure Pending.Persists (lax : Prop) (c c' : Pending) : Prop where
  layers : c.layers = c'.layers
  schema : c.schema = c'.schema
  data : c.data = c'.data
  object : Except.Persists lax c.object c'.object

section Fill

variable {c c' : Pending} {children children' : List Pending}

theorem Pending.Persists.assign (h : c.Persists lax c') (o : Object) :
    Except.Persists lax (assign o c) (assign o c') := by
  rw [Registry.assign, Registry.assign, ← h.schema, ← h.data]
  refine (Except.Persists.refl _).bind fun field => ?_
  split
  case h_3 | h_4 => exact h.object.bind fun _ => .refl _
  all_goals exact .refl _

/-- The same children are in the object itself. -/
theorem forall₂_filter_isEmpty (h : List.Forall₂ (Pending.Persists lax) children children') :
    List.Forall₂ (Pending.Persists lax) (children.filter fun c => c.layers.isEmpty)
      (children'.filter fun c => c.layers.isEmpty) :=
  h.filter fun _ _ hc => by rw [hc.layers]

theorem nextLayers_congr (h : List.Forall₂ (Pending.Persists lax) children children') :
    nextLayers children = nextLayers children' := by
  rw [nextLayers, nextLayers]
  congr 1
  induction h with
  | nil => rfl
  | cons hc _ ih =>
    rw [List.filterMap_cons, List.filterMap_cons, ih, Pending.next?, Pending.next?, hc.layers]

/-- The same children are behind a layer. -/
theorem forall₂_behind (h : List.Forall₂ (Pending.Persists lax) children children')
    (layer : Layer) :
    List.Forall₂ (Pending.Persists lax) (behind layer children) (behind layer children') := by
  refine List.forall₂_map_left_iff.2 (List.forall₂_map_right_iff.2 ?_)
  refine (h.filter fun c c' hc => ?_).imp fun c c' hc => ⟨?_, hc.schema, hc.data, hc.object⟩
  · rw [Pending.next?, Pending.next?, hc.layers]
  · rw [Pending.behind, Pending.behind, hc.layers]

theorem foldlM_assign_persists (h : List.Forall₂ (Pending.Persists lax) children children')
    (o : Object) :
    Except.Persists lax (children.foldlM assign o) (children'.foldlM assign o) := by
  induction h generalizing o with
  | nil => exact .refl _
  | cons hc _ ih =>
    rw [List.foldlM_cons, List.foldlM_cons]
    exact (hc.assign o).bind ih

/-- Storing children persists: by induction on the layers that they are still to pass. -/
theorem Keeps.fill (h : Keeps lax Seen reg reg') {children children' : List Pending}
    (hc : List.Forall₂ (Pending.Persists lax) children children') (o : Object) :
    Except.Persists lax (reg.fill children o) (reg'.fill children' o) := by
  rw [fill_eq, fill_eq, ← nextLayers_congr hc]
  refine (foldlM_assign_persists (forall₂_filter_isEmpty hc) o).bind fun o =>
    List.foldlM_persists (fun layer hl o => ?_) o
  have := layerCount_behind_lt hl
  rw [storeBehind, storeBehind]
  refine (h.instantiate layer.node).bind fun content =>
    (h.fill (forall₂_behind hc layer) content).bind fun content => .refl _
termination_by layerCount children

end Fill

namespace Keeps

mutual

theorem readObject (h : Keeps lax Seen reg reg') (node : Node) (r : Ref) :
    Except.Persists lax (reg.readObject node r) (reg'.readObject node r) := by
  cases node with
  | leaf key shape value => exact .refl _
  | inner key shape children =>
    rw [Registry.readObject, Registry.readObject]
    refine (h.instantiate r).bind fun o => ?_
    split
    · exact readPayloads h r children o
    · obtain ⟨e, he, he'⟩ | ⟨pending, pending', hp, hp', hpending⟩ := readChildren h r children
      · rw [he, he']
        exact .refl _
      · rw [hp, hp']
        exact h.fill hpending o
termination_by sizeOf node

theorem readPayloads (h : Keeps lax Seen reg reg') (r : Ref) (nodes : List Node) (o : Object) :
    Except.Persists lax (reg.readPayloads r nodes o) (reg'.readPayloads r nodes o) := by
  cases nodes with
  | nil => exact .refl _
  | cons node nodes =>
    rw [Registry.readPayloads, Registry.readPayloads, h.resolveNode_below]
    exact (Except.Persists.refl _).bind fun e =>
      (readObject h node e.node).bind fun _ => readPayloads h r nodes _
termination_by sizeOf nodes

/-- The children of a data node are resolved as before, whatever becomes of their objects. -/
theorem readChildren (h : Keeps lax Seen reg reg') (r : Ref) (nodes : List Node) :
    (∃ e, reg.readChildren r nodes = .error e ∧ reg'.readChildren r nodes = .error e) ∨
      ∃ pending pending', reg.readChildren r nodes = .ok pending ∧
        reg'.readChildren r nodes = .ok pending' ∧
        List.Forall₂ (Pending.Persists lax) pending pending' := by
  cases nodes with
  | nil => exact .inr ⟨[], [], rfl, rfl, .nil⟩
  | cons node nodes =>
    rw [Registry.readChildren, Registry.readChildren, h.resolveNode_below]
    cases reg'.resolveNode (some r) node with
    | error e => exact .inl ⟨e, rfl, rfl⟩
    | ok e =>
      have hobject := readObject h node e.node
      obtain ⟨cause, he, he'⟩ | ⟨pending, pending', hp, hp', hpending⟩ := readChildren h r nodes
      · exact .inl ⟨cause, by rw [he]; rfl, by rw [he']; rfl⟩
      · rw [hp, hp']
        exact .inr ⟨_, _, rfl, rfl, .cons ⟨rfl, rfl, rfl, hobject⟩ hpending⟩
termination_by sizeOf nodes

end

/-- Data is read below its id or below the parent of that. -/
theorem mem_segments_of_mem_rootId {data : ResourceData} {key : NodeKey}
    (hk : key ∈ (rootId data).segments) : key ∈ data.id.segments := by
  unfold rootId at hk
  split at hk
  · split at hk
    · unfold ResourceId.parent? at hk
      split at hk
      · exact hk
      · exact (List.dropLast_subset _) hk
    · exact hk
  · exact hk

theorem readItem (h : Keeps lax Seen reg reg') {base : Option Ref} {node : Node}
    (hseen : base = none → Seen node.key.ns) (items : List Item) :
    Except.Persists lax (reg.readItem base items node) (reg'.readItem base items node) := by
  rw [Registry.readItem, Registry.readItem, h.resolveNode hseen]
  refine (Except.Persists.refl _).bind fun e => ?_
  split
  · exact .refl _
  · exact (h.readObject node e.node).bind fun _ => .refl _

/-- What data is read as depends on the names of its id and, at the top, of its nodes. -/
theorem read (h : Keeps lax Seen reg reg') {data : ResourceData}
    (hid : ∀ key ∈ data.id.segments, Seen key.ns) (hnodes : ∀ node ∈ data.nodes, Seen node.key.ns) :
    Except.Persists lax (reg.read data) (reg'.read data) := by
  have hroot : ∀ key ∈ (rootId data).segments, Seen key.ns :=
    fun key hk => hid key (mem_segments_of_mem_rootId hk)
  rw [Registry.read, Registry.read, h.resolve hroot]
  refine (Except.Persists.refl _).bind fun base => (h.toObjectId hroot).bind fun id => ?_
  exact (List.foldlM_persists (fun node hn items =>
    h.readItem (fun _ => hnodes node hn) items) []).bind fun _ => .refl _

end Keeps

end YangBinding.Registry
