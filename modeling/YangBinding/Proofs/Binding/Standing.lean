import YangBinding.Proofs.Binding.RoundTrip
import YangBinding.Proofs.Registry.Reachable

/-!
# What data nodes stand for

The nodes of a data tree keep the names of the schema nodes that they were made from, but not the
schema nodes themselves. Here it is said what they stand for: a data node has the form that a frame
of the assembly gave it, and the schema node of the frame belongs where the data node is.

The walk over an object enters schema nodes on four occasions: for a top-level object, for a field,
for the content of a layer and for a payload. A field leads to a data node whatever its object holds,
and a layer is never entered itself. Top-level objects and payloads are entered without a look at the
kind of their schema node, so that what is said of them has to be assumed.

## Main definitions

* `Tree.Node.Stands`, `Tree.Node.StandsFor` — a data node stands for a schema node, and everything
  below it does
* `Registry.Belongs` — a schema node of a model in use shows up in data at a place
* `Registry.Adds`, `Registry.AddsOne` — an operation puts nodes at the current position
* `Registry.Guides` — a relation of data nodes to places that a walk over an object keeps up

## Main results

* `Registry.Guides.addsOne_object` — the data node of an object stands for its schema node
* `Registry.Reachable.stands_of_write` — what is written stands for what shows up in data
-/

namespace YangBinding

open Schema (DataChild Kind Model Ref)
open YangBinding.Tree (Assembly Frame Node NodeKey ResourceData ResourceId)

/-! ### Data nodes and schema nodes -/

namespace Tree

/-- A data node at a place stands for a schema node that is in a relation to the place: a frame of
the schema node has become the data node, and its children stand below it in the same way. -/
inductive Node.Stands (R : Option Ref → Ref → Prop) : Option Ref → Node → Prop
  | mk {parent : Option Ref} {frame : Frame} {n : Node} (here : R parent frame.schema)
      (made : frame.node = .ok n) (below : ∀ c ∈ frame.children, Stands R (some frame.schema) c) :
      Stands R parent n

/-- A data node at a place stands for the given schema node. -/
def Node.StandsFor (R : Option Ref → Ref → Prop) (parent : Option Ref) (r : Ref) (n : Node) : Prop :=
  ∃ frame : Frame, frame.schema = r ∧ frame.node = .ok n ∧ R parent r ∧
    ∀ c ∈ frame.children, c.Stands R (some r)

variable {R : Option Ref → Ref → Prop} {parent : Option Ref} {n : Node} {r : Ref} {frame : Frame}

theorem Node.stands_iff : n.Stands R parent ↔ ∃ r, n.StandsFor R parent r := by
  constructor
  · rintro ⟨here, made, below⟩
    exact ⟨_, _, rfl, made, here, below⟩
  · rintro ⟨_, frame, rfl, made, here, below⟩
    exact ⟨here, made, below⟩

theorem Node.Stands.imp {R' : Option Ref → Ref → Prop} (h : n.Stands R parent)
    (hR : ∀ p r, R p r → R' p r) : n.Stands R' parent := by
  induction h with
  | mk here made _ ih => exact .mk (hR _ _ here) made ih

/-- A data node has the identifier of the schema node of its frame. -/
theorem Frame.key_id_of_node (h : frame.node = .ok n) : n.key.id = frame.schema.id := by
  unfold Frame.node at h
  cases hk : frame.schema.kind <;> simp only [hk] at h <;> try (cases h; rfl)
  obtain ⟨leaves, -, h⟩ := Except.bind_eq_ok_iff.1 h
  cases h
  rfl

theorem Node.StandsFor.key_id_eq (h : n.StandsFor R parent r) : n.key.id = r.id := by
  obtain ⟨frame, rfl, made, -⟩ := h
  exact Frame.key_id_of_node made

@[simp]
theorem Assembly.current_placeAll (a : Assembly) (nodes : List Node) :
    (a.placeAll nodes).current = a.current := by
  induction nodes generalizing a with
  | nil => rfl
  | cons n nodes ih => exact (ih (a.place n)).trans (Assembly.current_place a n)

end Tree

namespace Schema.Ref

/-- The nodes on the way up are of the same model and are no modules. -/
theorem of_mem_ancestry {r a : Ref} (ha : a ∈ r.ancestry) : a.model = r.model ∧ a.kind ≠ .module := by
  induction hi : r.index.val using Nat.strongRecOn generalizing r with
  | ind n ih =>
    by_cases hk : r.kind = .module
    · simp [ancestry, hk] at ha
    cases hp : r.up? with
    | none =>
      rw [ancestry, if_neg hk] at ha
      split at ha
      · obtain rfl := List.mem_singleton.1 ha
        exact ⟨rfl, hk⟩
      · simp_all
    | some p =>
      rw [ancestry_of_up? hk hp] at ha
      rcases List.mem_cons.1 ha with rfl | ha
      · exact ⟨rfl, hk⟩
      · obtain ⟨hm, hak⟩ := ih _ (hi ▸ index_lt_of_up? hp) ha rfl
        exact ⟨hm.trans (model_of_up? hp), hak⟩

/-- The nodes above that show up in data are of the same model. -/
theorem of_mem_dataAncestors {r a : Ref} (ha : a ∈ r.dataAncestors) :
    a.model = r.model ∧ a.kind ≠ .module ∧ a.isLayer = false := by
  have hl := not_isLayer_of_mem_dataAncestors ha
  unfold dataAncestors at ha
  split at ha
  · next p hp =>
    obtain ⟨hm, hk⟩ := of_mem_ancestry (List.mem_filter.1 ha).1
    exact ⟨hm.trans (model_of_parent? hp), hk, hl⟩
  · cases ha

end Schema.Ref

namespace Registry

variable {reg : Registry} {m : Model} {r s p child choice : Ref} {o x : Object} {c : String}
  {parent current base : Option Ref} {leaf : LeafId} {values : List LeafValue} {a a' : Assembly}

/-! ### Places -/

theorem Reachable.eq_of_samePlace (h : reg.Reachable) (hr : r.model ∈ reg.models)
    (hcurrent : ∀ b, current = some b → b.model ∈ reg.models)
    (hs : samePlace r.dataParent? current = true) : r.dataParent? = current := by
  cases hp : r.dataParent? with
  | none => cases current <;> simp [hp, samePlace] at hs ⊢
  | some p =>
    cases current with
    | none => simp [hp, samePlace] at hs
    | some b =>
      have hpm := (Ref.of_mem_dataAncestors (List.mem_of_head? hp)).1
      rw [hp] at hs
      exact congrArg some ((h.beq_iff (hpm ▸ hr) (hcurrent b rfl)).1 hs)

/-- The case that an object selects is one of the choice. -/
theorem Reachable.mem_cases_of_selectedCase (h : reg.Reachable) (hc : choice.model ∈ reg.models)
    (hs : reg.selectedCase choice o = .ok s) : s ∈ choice.cases ∧ s.model = choice.model := by
  obtain ⟨node, hnode, hs⟩ := Except.bind_eq_ok_iff.1 hs
  split at hs
  · next hcase =>
    cases hs
    obtain ⟨hk, hcase⟩ := Bool.and_eq_true_iff.1 hcase
    have hsm := h.model_mem_of_nodeOfClass? (nodeOfClass_eq_ok_iff.1 hnode)
    have hm : s.model = choice.model := by
      obtain ⟨p, hp, hpc⟩ := (Option.any_eq_true _ _).1 hcase
      have hpm := Ref.model_of_parent? hp
      rcases Bool.or_eq_true_iff.1 hpc with hpc | hpc
      · exact hpm.symm.trans (congrArg Ref.model ((h.beq_iff (hpm ▸ hsm) hc).1 hpc))
      · obtain ⟨t, ht, htc⟩ := (Option.any_eq_true _ _).1 (Bool.and_eq_true_iff.1 hpc).2
        have htm := (Ref.model_of_target? ht).trans hpm
        exact htm.symm.trans (congrArg Ref.model ((h.beq_iff (htm ▸ hsm) hc).1 htc))
    exact ⟨(Ref.mem_cases_iff (h.linked hc) hm).2 ⟨by simpa using hk, hcase⟩, hm⟩
  · cases hs

/-! ### Adding nodes -/

/-- If an operation succeeds where a schema node is the current one, it puts nodes with a property
there. -/
def Adds (current : Option Ref) (P : Node → Prop) (f : Assembly → Result Assembly) : Prop :=
  ∀ a a' : Assembly, a.current = current → f a = .ok a' →
    ∃ nodes, a' = a.placeAll nodes ∧ ∀ n ∈ nodes, P n

/-- If an operation succeeds where a schema node is the current one, it puts one node with a property
there. -/
def AddsOne (current : Option Ref) (P : Node → Prop) (f : Assembly → Result Assembly) : Prop :=
  ∀ a a' : Assembly, a.current = current → f a = .ok a' → ∃ n, a' = a.place n ∧ P n

section Adds

variable {P Q : Node → Prop} {f g : Assembly → Result Assembly}

theorem AddsOne.adds (h : AddsOne current P f) : Adds current P f := by
  intro a a' ha hf
  obtain ⟨n, rfl, hn⟩ := h a a' ha hf
  exact ⟨[n], rfl, by simpa using hn⟩

theorem AddsOne.imp (h : AddsOne current P f) (hPQ : ∀ n, P n → Q n) : AddsOne current Q f := by
  intro a a' ha hf
  obtain ⟨n, hn, hP⟩ := h a a' ha hf
  exact ⟨n, hn, hPQ n hP⟩

/-- An operation for each item of a list puts a node for each of them. -/
theorem AddsOne.foldlM {α : Type} {f : Assembly → α → Result Assembly} {P : α → Node → Prop}
    {xs : List α} (h : ∀ x ∈ xs, AddsOne current (P x) fun a => f a x) (ha : a.current = current)
    (hf : xs.foldlM f a = .ok a') : ∃ nodes, a' = a.placeAll nodes ∧ List.Forall₂ P xs nodes := by
  induction xs generalizing a with
  | nil =>
    cases hf
    exact ⟨[], rfl, .nil⟩
  | cons x xs ih =>
    obtain ⟨b, hb, hf⟩ := Except.bind_eq_ok_iff.1 hf
    obtain ⟨n, rfl, hn⟩ := h x List.mem_cons_self a b ha hb
    obtain ⟨nodes, rfl, hnodes⟩ := ih (fun y hy => h y (List.mem_cons_of_mem _ hy))
      (by rw [Assembly.current_place, ha]) hf
    exact ⟨n :: nodes, rfl, .cons hn hnodes⟩

namespace Adds

theorem nothing : Adds current P pure := by
  rintro a a' - ⟨⟩
  exact ⟨[], rfl, by simp⟩

theorem bind (hf : Adds current P f) (hg : Adds current P g) :
    Adds current P fun a => f a >>= g := by
  intro a a' ha h
  obtain ⟨b, hb, h⟩ := Except.bind_eq_ok_iff.1 h
  obtain ⟨ns, rfl, hns⟩ := hf a b ha hb
  obtain ⟨ms, rfl, hms⟩ := hg _ a' (by rw [Assembly.current_placeAll, ha]) h
  refine ⟨ns ++ ms, (a.placeAll_append ns ms).symm, fun n hn => ?_⟩
  exact (List.mem_append.1 hn).elim (hns n) (hms n)

theorem foldlM {α : Type} {f : Assembly → α → Result Assembly} {xs : List α}
    (h : ∀ x ∈ xs, Adds current P fun a => f a x) : Adds current P fun a => xs.foldlM f a := by
  induction xs with
  | nil => exact nothing
  | cons x xs ih =>
    simp only [List.foldlM_cons]
    exact (h x List.mem_cons_self).bind (ih fun y hy => h y (List.mem_cons_of_mem _ hy))

/-- What is done after something else has been found out. -/
theorem found {α : Type} {x : Result α} {f : α → Assembly → Result Assembly}
    (h : ∀ v, x = .ok v → Adds current P (f v)) :
    Adds current P fun a => x >>= fun v => f v a := by
  intro a a' ha hf
  obtain ⟨v, hv, hf⟩ := Except.bind_eq_ok_iff.1 hf
  exact h v hv a a' ha hf

end Adds

/-- A node that is entered, filled and left stands for its schema node. -/
theorem addsOne_entered {R : Option Ref → Ref → Prop} {value : Option LeafValue}
    (hr : R current r) (hf : Adds (some r) (·.Stands R (some r)) f) :
    AddsOne current (·.StandsFor R current r)
      (fun a => do (← f (← a.enter r value)).exit) := by
  intro a a' ha h
  obtain ⟨b, hb, h⟩ := Except.bind_eq_ok_iff.1 h
  obtain ⟨d, hd, h⟩ := Except.bind_eq_ok_iff.1 h
  obtain ⟨v, -, rfl⟩ := Assembly.eq_of_enter hb
  obtain ⟨nodes, rfl, hnodes⟩ := hf _ d rfl hd
  rw [Assembly.placeAll_frame, Assembly.exit] at h
  obtain ⟨n, hn, h⟩ := Except.bind_eq_ok_iff.1 h
  cases h
  refine ⟨n, rfl, _, rfl, hn, hr, fun c hc => ?_⟩
  have hc : c ∈ nodes.latest Node.key := by rwa [← Tree.Children.ofList_eq]
  exact hnodes c (List.mem_of_mem_latest hc)

end Adds

/-! ### Objects -/

/-- A schema node of a model in use shows up in data at a place: right below its data parent, or below
anydata. -/
structure Belongs (reg : Registry) (parent : Option Ref) (r : Ref) : Prop where
  model_mem : r.model ∈ reg.models
  shown : isAddressable r.kind = true
  place : r.dataParent? = parent ∨ ∃ b, parent = some b ∧ b.kind = .anydata

/-- The classes that are registered for anydata nodes are bound to nodes that show up in data. -/
def PayloadsShow (reg : Registry) : Prop :=
  ∀ holder payload, reg.hasPayload holder payload = true →
    ∀ r, reg.nodeOfClass? payload = some r → isAddressable r.kind = true

theorem payloadsShow_of_isEmpty (h : reg.anydata = ∅) : reg.PayloadsShow := by
  intro holder payload hp
  simp [hasPayload, h] at hp

/-- A schema node belongs where it is, if registered payloads show up in data. -/
def BelongsIn (reg : Registry) (parent : Option Ref) (r : Ref) : Prop :=
  reg.PayloadsShow → reg.Belongs parent r

theorem isAddressable_of_isLeafLike (h : r.kind.isLeafLike = true) : isAddressable r.kind = true := by
  cases hk : r.kind <;> simp [Kind.isLeafLike, isAddressable, Kind.isTransparent, hk] at h ⊢

/-- What a field holds shows up in data, unless it is the case of a choice. -/
theorem isAddressable_of_suits {type : FieldType} (hs : type.suits r.kind = true)
    (hc : type ≠ .choice) : isAddressable r.kind = true := by
  cases type <;> cases hk : r.kind <;>
    simp_all [FieldType.suits, Kind.isSingleObject, isAddressable, Kind.isTransparent]

theorem addsOne_leaf {R : Option Ref → Ref → Prop} {v : LeafValue} (hr : R current r) :
    AddsOne current (·.StandsFor R current r) fun a => writeLeaf r a v :=
  addsOne_entered hr (f := pure) .nothing

theorem writeField_unfold (o : Object) (child : Ref) (a : Assembly) :
    reg.writeField o child a = (do
      let field ← fieldFor o.type child
      Result.ofField (field.checkTarget o)
      match field.type with
      | .leaf _ | .leafList _ => (o.leafValues field.name).foldlM (writeLeaf child) a
      | .container _ | .list _ =>
        (o.objects field.name).foldlM (fun a x => reg.writeObject x child a) a
      | .choice => (o.objects field.name).foldlM (fun a x => do
          reg.writeContent x (← reg.selectedCase child x) a) a) := by
  rw [writeField]
  refine bind_congr fun field => bind_congr fun _ => ?_
  cases field.type <;> simp

/-- What is written between entering and leaving the data node of an object. -/
theorem writeObject_of_content {b c : Assembly}
    (hk : r.kind ≠ .anydata) (he : a.enter r none = .ok b)
    (hc : reg.writeContent o r b = .ok c) (hx : c.exit = .ok a') :
    reg.writeObject o r a = .ok a' := by
  rw [writeObject, he]
  change reg.writeContent o r b >>= _ = _
  rw [hc]
  simp only [if_neg hk]
  exact hx

/-- A relation that the data nodes of an object are in to their places. What a schema node or a layer
holds is put `Around` a data node: the node itself holds what is around it, and so do its layers. -/
structure Guides (reg : Registry) (R : Option Ref → Ref → Prop) (Around : Ref → Ref → Prop) :
    Prop where
  self : ∀ {current r}, r.model ∈ reg.models → r.kind ≠ .anydata → R current r → Around r r
  layer : ∀ {r p layer}, r.model ∈ reg.models → Around r p → layer ∈ r.layers →
    Around layer.node p
  field : ∀ {r p child}, r.model ∈ reg.models → Around r p → child ∈ r.declared →
    isAddressable child.kind = true → R (some p) child
  payload : ∀ {r s holder c}, r.kind = .anydata → r.className = some holder →
    reg.payload? holder c = some s → R (some r) s

section Guides

variable {R : Option Ref → Ref → Prop} {Around : Ref → Ref → Prop} (h : reg.Reachable)
  (hR : reg.Guides R Around)
include h hR

/-- The fields of an object put nodes below the data node that they are put around. -/
private theorem Guides.adds_field (hr : r.model ∈ reg.models) (hp : Around r p)
    (hc : child ∈ r.declared)
    (hobject : ∀ x s current, sizeOf x < sizeOf o → s.model ∈ reg.models → R current s →
      AddsOne current (·.StandsFor R current s) fun a => reg.writeObject x s a)
    (hcontent : ∀ x s, sizeOf x < sizeOf o → s.model ∈ reg.models → Around s p →
      Adds (some p) (·.Stands R (some p)) fun a => reg.writeContent x s a) :
    Adds (some p) (·.Stands R (some p)) fun a => reg.writeField o child a := by
  obtain ⟨hchild, -⟩ := List.mem_filter.1 hc
  have hm : child.model ∈ reg.models := Ref.model_of_mem_children hchild ▸ hr
  have hstands (n : Node) (hn : n.StandsFor R (some p) child) : n.Stands R (some p) :=
    Node.stands_iff.2 ⟨child, hn⟩
  rw [funext fun a => writeField_unfold o child a]
  refine Adds.found fun field hf => Adds.found fun _ _ => ?_
  -- Every field but that of a choice leads to a node that shows up in data.
  have hplace (hchoice : field.type ≠ .choice) : R (some p) child :=
    hR.field hr hp hc (isAddressable_of_suits (fieldFor_eq_ok_iff.1 hf).2 hchoice)
  have hleaf (hchoice : field.type ≠ .choice) : Adds (some p) (·.Stands R (some p)) fun a =>
      (o.leafValues field.name).foldlM (writeLeaf child) a :=
    .foldlM fun v _ => ((addsOne_leaf (hplace hchoice)).imp hstands).adds
  have hinner (hchoice : field.type ≠ .choice) : Adds (some p) (·.Stands R (some p)) fun a =>
      (o.objects field.name).foldlM (fun a x => reg.writeObject x child a) a :=
    .foldlM fun x hx => ((hobject x child _ (Object.sizeOf_lt_of_mem_members hx) hm
      (hplace hchoice)).imp hstands).adds
  cases hft : field.type with
  | leaf type => exact hleaf (by simp [hft])
  | leafList type => exact hleaf (by simp [hft])
  | container typeName => exact hinner (by simp [hft])
  | list typeName => exact hinner (by simp [hft])
  | choice =>
    have hk : child.kind = .choice := by simpa [hft, FieldType.suits] using (fieldFor_eq_ok_iff.1 hf).2
    refine .foldlM fun x hx => .found fun s hs => ?_
    obtain ⟨hcase, hsm⟩ := h.mem_cases_of_selectedCase hm hs
    exact hcontent x s (Object.sizeOf_lt_of_mem_members hx) (hsm ▸ hm)
      (hR.layer hr hp (Ref.case_mem_layers hchild hk hcase))

/-- What an object holds puts nodes below the data node that it is put around. -/
private theorem Guides.adds_content (hr : r.model ∈ reg.models) (hp : Around r p)
    (hobject : ∀ x s current, sizeOf x < sizeOf o → s.model ∈ reg.models → R current s →
      AddsOne current (·.StandsFor R current s) fun a => reg.writeObject x s a)
    (hcontent : ∀ x s, sizeOf x < sizeOf o → s.model ∈ reg.models → Around s p →
      Adds (some p) (·.Stands R (some p)) fun a => reg.writeContent x s a) :
    Adds (some p) (·.Stands R (some p)) fun a => reg.writeContent o r a := by
  rw [funext fun a => writeContent_eq o r a]
  refine .bind (.foldlM fun c hc => hR.adds_field h hr hp hc hobject hcontent)
    (.foldlM fun augment ha => ?_)
  cases hx : augment.className.bind o.augmentation? with
  | none => exact .nothing
  | some x =>
    obtain ⟨c, -, hxc⟩ := Option.bind_eq_some_iff.1 hx
    exact hcontent x augment
      (Object.sizeOf_lt_of_mem_augmentations (List.mem_of_find?_eq_some hxc))
      (Ref.model_of_mem_augments ha ▸ hr) (hR.layer hr hp (Ref.augment_mem_layers ha))

/-- The payloads of an anydata node put nodes below it. -/
private theorem Guides.adds_payloads (hany : r.kind = .anydata)
    (hobject : ∀ x s current, sizeOf x < sizeOf o → s.model ∈ reg.models → R current s →
      AddsOne current (·.StandsFor R current s) fun a => reg.writeObject x s a) :
    Adds (some r) (·.Stands R (some r)) fun a => reg.writePayloads o r a := by
  rw [funext fun a => writePayloads_eq o r a]
  refine .found fun holder hholder => .foldlM fun x hx => .found fun s hs => ?_
  rw [found_eq_ok_iff] at hholder
  rw [payloadNode, found_eq_ok_iff] at hs
  exact ((hobject x s _ (Object.sizeOf_lt_of_mem_anydata hx)
    (h.model_mem_of_nodeOfClass? (payload?_eq_some_iff.1 hs).2)
    (hR.payload hany hholder hs)).imp fun n hn => Node.stands_iff.2 ⟨s, hn⟩).adds

/-- The data node of an object stands for its schema node, and everything below it stands for its own
in the place where it is. -/
theorem Guides.addsOne_object (hr : r.model ∈ reg.models) (hb : R current r) :
    AddsOne current (·.StandsFor R current r) fun a => reg.writeObject o r a := by
  -- By induction on the object. Layers have no data node: their content stands further up.
  suffices hboth : (∀ r current, r.model ∈ reg.models → R current r →
        AddsOne current (·.StandsFor R current r) fun a => reg.writeObject o r a) ∧
      ∀ r p, r.model ∈ reg.models → Around r p →
        Adds (some p) (·.Stands R (some p)) fun a => reg.writeContent o r a from
    hboth.1 r current hr hb
  clear hr hb
  induction hn : sizeOf o using Nat.strongRecOn generalizing o with
  | ind n ih =>
    have hobject : ∀ x s current, sizeOf x < sizeOf o → s.model ∈ reg.models → R current s →
        AddsOne current (·.StandsFor R current s) fun a => reg.writeObject x s a :=
      fun x s current hx => (ih _ (hn ▸ hx) rfl).1 s current
    have hcontent : ∀ r p, r.model ∈ reg.models → Around r p →
        Adds (some p) (·.Stands R (some p)) fun a => reg.writeContent o r a :=
      fun r p hr hp => hR.adds_content h hr hp hobject
        fun x s hx hs hsp => (ih _ (hn ▸ hx) rfl).2 s p hs hsp
    refine ⟨fun r current hr hb => ?_, hcontent⟩
    rw [funext fun a => writeObject_eq o r a]
    by_cases hany : r.kind = .anydata
    · rw [writeInside_of_anydata (h.linked hr) hany]
      exact addsOne_entered hb (hR.adds_payloads h hany hobject)
    · rw [writeInside_of_content hany]
      exact addsOne_entered hb (hcontent r r hr (hR.self hr hany hb))

end Guides

section Reachable

variable (h : reg.Reachable)
include h

/-- Registered payloads apart, what a walk over an object puts down shows up in data there. -/
theorem Reachable.guides_belongsIn :
    reg.Guides reg.BelongsIn fun r p => reg.PayloadsShow → r.dataAncestry.head? = some p where
  self := by
    intro current r hr _ hb hpay
    obtain ⟨hl, hk⟩ := isAddressable_iff.1 (hb hpay).shown
    rw [Ref.dataAncestry_of_data (h.linked hr) hk hl, List.head?_cons]
  layer := fun hr hp hlayer hpay =>
    (congrArg List.head? (Ref.dataAncestry_of_mem_layers (h.linked hr) hlayer)).trans (hp hpay)
  field := by
    intro r p child hr hp hc ha hpay
    have hparent : child.parent? = some r :=
      (Ref.mem_children_iff (h.linked hr)).1 (List.mem_filter.1 hc).1
    exact ⟨Ref.model_of_mem_children (List.mem_filter.1 hc).1 ▸ hr, ha,
      .inl (by rw [Ref.dataParent?, Ref.dataAncestors_of_parent? hparent, hp hpay])⟩
  payload := by
    intro r s holder c hany _ hs hpay
    obtain ⟨hmem, hs⟩ := payload?_eq_some_iff.1 hs
    exact ⟨h.model_mem_of_nodeOfClass? hs, hpay holder c hmem s hs, .inr ⟨r, rfl, hany⟩⟩

/-- The data node of an object stands for its schema node, and everything below it stands for what
shows up in data there. -/
theorem Reachable.addsOne_object (hr : r.model ∈ reg.models) (hb : reg.BelongsIn current r) :
    AddsOne current (·.StandsFor reg.BelongsIn current r) fun a => reg.writeObject o r a :=
  h.guides_belongsIn.addsOne_object h hr hb

omit h

/-! ### Positioned objects -/

/-- Nothing is put below a leaf; anywhere else all items are put below the base. -/
theorem write_eq_ok_iff {d : ObjectData} {t : ResourceData} : reg.write d = .ok t ↔
    ∃ base, reg.toResourceId d.id = .ok (t.id, base) ∧
      ((∃ b, base = some b ∧ b.kind.isLeafLike = true) ∧ d.items = [] ∧ t.nodes = [] ∨
        (∀ b, base = some b → b.kind.isLeafLike = false) ∧
          ∃ a, d.items.foldlM (reg.writeItem base) { base } = .ok a ∧ a.finish = .ok t.nodes) := by
  -- Below anything but a leaf the items are written one after the other.
  have hall (id : ResourceId) (base : Option Ref) : (do
      let a ← d.items.foldlM (reg.writeItem base) { base }
      pure ({ id, nodes := ← a.finish } : ResourceData)) = Except.ok t ↔ id = t.id ∧
        ∃ a, d.items.foldlM (reg.writeItem base) { base } = .ok a ∧ a.finish = .ok t.nodes := by
    simp only [Except.bind_eq_ok_iff]
    constructor
    · rintro ⟨a, ha, nodes, hnodes, ⟨⟩⟩
      exact ⟨rfl, a, ha, hnodes⟩
    · rintro ⟨rfl, a, ha, hnodes⟩
      exact ⟨a, ha, _, hnodes, rfl⟩
  rw [write, Except.bind_eq_ok_iff, Prod.exists, exists_comm]
  refine exists_congr fun base => ?_
  trans ∃ id, reg.toResourceId d.id = .ok (id, base) ∧ id = t.id ∧
      ((∃ b, base = some b ∧ b.kind.isLeafLike = true) ∧ d.items = [] ∧ t.nodes = [] ∨
        (∀ b, base = some b → b.kind.isLeafLike = false) ∧
          ∃ a, d.items.foldlM (reg.writeItem base) { base } = .ok a ∧ a.finish = .ok t.nodes)
  · refine exists_congr fun id => and_congr_right fun _ => ?_
    cases base with
    | none => simpa using hall id none
    | some b =>
      by_cases hb : b.kind.isLeafLike = true
      · by_cases hitems : d.items = []
        · simp only [hb, hitems]
          constructor
          · rintro ⟨⟩
            exact ⟨rfl, .inl ⟨⟨b, rfl, hb⟩, trivial, rfl⟩⟩
          · rintro ⟨rfl, ⟨-, -, hnodes⟩ | ⟨hleaf, -⟩⟩
            · cases t
              cases hnodes
              rfl
            · simp [hb] at hleaf
        · simp [hb, hitems, Result.refuse, bind, Except.bind]
      · simp only [hb]
        simpa [hb] using hall id (some b)
  · constructor
    · rintro ⟨_, hid, rfl, h⟩
      exact ⟨hid, h⟩
    · rintro ⟨hid, h⟩
      exact ⟨_, hid, rfl, h⟩

include h

/-- A top-level object that is not of a layer puts its data node below the base. -/
theorem Reachable.addsOne_top
    (hlayer : ∀ r, reg.nodeOfClass? o.className = some r → r.isLayer = false)
    (hbase : ∀ b, current = some b → b.model ∈ reg.models) :
    AddsOne current
      (fun n => ∃ r, reg.nodeOfClass? o.className = some r ∧ n.StandsFor reg.BelongsIn current r)
      fun a => reg.writeTop current o a := by
  intro a a' ha hw
  obtain ⟨r, hr, hk, hplace, hw⟩ := writeTop_eq_ok_iff.1 hw
  have hm := h.model_mem_of_nodeOfClass? hr
  have hbelongs : reg.BelongsIn current r := fun _ =>
    ⟨hm, isAddressable_iff.2 ⟨hlayer r hr, hk⟩, hplace.imp_left (h.eq_of_samePlace hm hbase)⟩
  obtain ⟨n, hn, hstands⟩ := h.addsOne_object hm hbelongs a a' ha hw
  exact ⟨n, hn, r, hr, hstands⟩

/-- The values of a leaf put their data nodes below the base, which is the data parent of the leaf. -/
theorem Reachable.adds_values {R : Option Ref → Ref → Prop}
    (hbase : ∀ b, current = some b → b.model ∈ reg.models)
    (hR : ∀ s : Ref, s.model ∈ reg.models → s.kind.isLeafLike = true → s.dataParent? = current →
      R current s) :
    Adds current (·.Stands R current) fun a => reg.writeLeafItem current leaf values a := by
  intro a a' ha hw
  obtain ⟨s, hs, hplace, -, hw⟩ := writeLeafItem_eq_ok_iff.1 hw
  obtain ⟨hleaf, owner, howner, e, he, rfl⟩ := exists_offer_of_leafOf? hs
  have hm : e.node.model ∈ reg.models := by
    rw [Ref.model_of_mem_offers he]
    exact h.model_mem_of_nodeOfClass? howner
  have hhere := hR _ hm hleaf (h.eq_of_samePlace hm hbase hplace)
  have hvalues : Adds current (·.Stands R current) fun a =>
      values.foldlM (writeLeaf e.node) a :=
    .foldlM fun v _ => ((addsOne_leaf hhere).imp fun n hn => Node.stands_iff.2 ⟨_, hn⟩).adds
  exact hvalues a a' ha hw

theorem Reachable.adds_leafItem (hbase : ∀ b, current = some b → b.model ∈ reg.models) :
    Adds current (·.Stands reg.BelongsIn current) fun a =>
      reg.writeLeafItem current leaf values a :=
  h.adds_values hbase fun _ hm hleaf hparent _ =>
    ⟨hm, isAddressable_of_isLeafLike hleaf, .inl hparent⟩

/-! ### Keys -/

/-- What a look-up below a node finds shows up in data. -/
theorem Reachable.isAddressable_of_childOf? (hpay : reg.PayloadsShow) {name : String}
    {ns : Option String} {e : DataChild} (hp : p.model ∈ reg.models)
    (he : reg.childOf? (some p) name ns = some e) :
    e.node.model ∈ reg.models ∧ isAddressable e.node.kind = true := by
  obtain ⟨ns', he⟩ : ∃ ns', reg.dataChild? (some p) name ns' = some e := by
    unfold childOf? preferredChild? at he
    split at he
    · exact ⟨_, he⟩
    · next n _ =>
      cases hf : reg.dataChild? (some p) name (some n) with
      | some f =>
        rw [hf] at he
        exact ⟨some n, hf.trans he⟩
      | none =>
        rw [hf] at he
        exact ⟨none, he⟩
    · exact ⟨_, he⟩
  rw [dataChild?] at he
  split at he
  · obtain ⟨holder, -, he⟩ := Option.bind_eq_some_iff.1 he
    obtain ⟨s, hs, rfl⟩ := Option.map_eq_some_iff.1 he
    obtain ⟨payload, hmem, hs⟩ := List.mem_filterMap.1 (List.mem_of_find?_eq_some hs)
    exact ⟨h.model_mem_of_nodeOfClass? hs, hpay holder payload (by simpa [hasPayload] using hmem) s hs⟩
  · have he := (Ref.mem_offers_of_findDataChild? he).1
    exact ⟨Ref.model_of_mem_offers he ▸ hp, isAddressable_of_mem_offers (h.linked hp) he⟩

omit h in
theorem stepKey_eq_ok {step : Step} {key : NodeKey} (hk : stepKey r step = .ok key) :
    key.id = r.id ∧ (step.isLeaf = true → r.kind.isLeafLike = true) := by
  cases stepKey_eq_ok_iff.1 hk with
  | child | entry => exact ⟨rfl, by simp [Step.isLeaf]⟩
  | leaf hleaf => exact ⟨rfl, fun _ => hleaf⟩
  | leafEntry hlist => exact ⟨rfl, fun _ => by simp [hlist, Kind.isLeafLike]⟩

/-- What the first step of an object id leads to shows up in data. -/
theorem Reachable.isAddressable_of_locateFirst {step : Step} (hs : reg.locateFirst step = .ok r) :
    r.model ∈ reg.models ∧ isAddressable r.kind = true := by
  obtain ⟨c, -, hnode, ha⟩ | ⟨l, owner, child, -, howner, hchild, rfl⟩ := locateFirst_eq_ok_iff.1 hs
  · exact ⟨h.model_mem_of_nodeOfClass? hnode, ha⟩
  · have hm := h.model_mem_of_nodeOfClass? howner
    have he := (Ref.mem_offers_of_findDataChild? hchild).1
    exact ⟨Ref.model_of_mem_offers he ▸ hm, isAddressable_of_mem_offers (h.linked hm) he⟩

/-- What a later step of an object id leads to shows up in data. -/
theorem Reachable.isAddressable_of_locateBelow (hpay : reg.PayloadsShow) {step : Step}
    (hp : p.model ∈ reg.models) (hs : reg.locateBelow p step = .ok r) :
    r.model ∈ reg.models ∧ isAddressable r.kind = true := by
  obtain ⟨name, ns, child, -, hchild, rfl, -⟩ := locateBelow_eq_ok_iff.1 hs
  exact h.isAddressable_of_childOf? hpay hp hchild

/-- The steps of an object id lead to nodes of models that are in use. -/
theorem Reachable.model_mem_of_followSteps {id : ObjectId} {steps : List Step} {rid rid' : ResourceId}
    (hp : ∀ r, parent = some r → r.model ∈ reg.models)
    (hs : reg.followSteps id steps rid parent = .ok (rid', base)) :
    ∀ b, base = some b → b.model ∈ reg.models := by
  induction steps generalizing rid parent with
  | nil =>
    cases hs
    exact hp
  | cons step steps ih =>
    obtain ⟨-, node, above, key, hnode, hkey, hs⟩ := followSteps_cons_iff.1 hs
    refine ih ?_ hs
    rintro _ ⟨⟩
    obtain ⟨-, hfirst, -⟩ | ⟨⟨p, rfl, hbelow⟩, -⟩ := hnode
    · exact (h.isAddressable_of_locateFirst hfirst).1
    · obtain ⟨name, ns, child, -, hchild, rfl, -⟩ := locateBelow_eq_ok_iff.1 hbelow
      exact h.model_mem_of_childOf? hp hchild

/-- The keys of a resource id are those of nodes that show up in data, the last one being the base. -/
structure KeysOf (reg : Registry) (keys : List NodeKey) (base : Option Ref) (nodes : List Ref) :
    Prop where
  last : base = nodes.getLast?
  keys : List.Forall₂ (fun key r => key.id = r.id) keys nodes
  shown : ∀ r ∈ nodes, r.model ∈ reg.models ∧ isAddressable r.kind = true

/-- Steps add keys of nodes that show up in data. -/
theorem Reachable.keysOf_followSteps (hpay : reg.PayloadsShow) {id : ObjectId} {steps : List Step}
    {rid rid' : ResourceId} {nodes : List Ref} (hk : reg.KeysOf rid.segments current nodes)
    (hs : reg.followSteps id steps rid current = .ok (rid', base)) :
    ∃ nodes', reg.KeysOf rid'.segments base nodes' := by
  induction steps generalizing rid current nodes with
  | nil =>
    cases hs
    exact ⟨nodes, hk⟩
  | cons step steps ih =>
    obtain ⟨-, node, above, key, hnode, hkey, hs⟩ := followSteps_cons_iff.1 hs
    obtain ⟨hid, hleaf⟩ := stepKey_eq_ok hkey
    -- Only the first step puts ancestors in front, and all of these show up in data.
    obtain ⟨ancestors, hm, ha, hanc, habove⟩ : ∃ ancestors : List Ref, node.model ∈ reg.models ∧
        isAddressable node.kind = true ∧
        (∀ r ∈ ancestors, r.model ∈ reg.models ∧ isAddressable r.kind = true) ∧
        above = ancestors.map fun a => { id := a.id } := by
      obtain ⟨-, hfirst, hkeys⟩ | ⟨⟨p, hp, hbelow⟩, rfl⟩ := hnode
      · obtain ⟨hm, ha⟩ := h.isAddressable_of_locateFirst hfirst
        refine ⟨_, hm, ha, fun r hr => ?_, (mapM_ancestorKey hkeys).2⟩
        obtain ⟨hrm, hrk, hrl⟩ := Ref.of_mem_dataAncestors (List.mem_reverse.1 hr)
        exact ⟨hrm ▸ hm, isAddressable_iff.2 ⟨hrl, hrk⟩⟩
      · have hpm := (hk.shown p (List.mem_of_getLast? (hk.last ▸ hp))).1
        obtain ⟨hm, ha⟩ := h.isAddressable_of_locateBelow hpay hpm hbelow
        exact ⟨[], hm, ha, by simp, rfl⟩
    have hgrown : reg.KeysOf (⟨rid.segments ++ above ++ [key]⟩ : ResourceId).segments (some node)
        (nodes ++ ancestors ++ [node]) := by
      refine ⟨by simp, ?_, ?_⟩
      · refine List.rel_append (List.rel_append hk.keys ?_) (.cons hid .nil)
        rw [habove, List.forall₂_map_left_iff]
        exact List.forall₂_same.2 fun _ _ => rfl
      · simp only [List.mem_append, List.mem_singleton]
        rintro r ((hr | hr) | rfl)
        · exact hk.shown r hr
        · exact hanc r hr
        · exact ⟨hm, ha⟩
    exact ih hgrown hs

/-- What is written stands for what shows up in data: every data node, however deep, stands for a
schema node of a model in use that belongs where it is, and every key is that of a node of a model in
use that shows up in data. -/
theorem Reachable.stands_of_write (hpay : reg.PayloadsShow) {d : ObjectData} {t : ResourceData}
    (hlayer : ∀ o, .object o ∈ d.items → ∀ r, reg.nodeOfClass? o.className = some r →
      r.isLayer = false)
    (hw : reg.write d = .ok t) :
    ∃ base nodes, reg.toResourceId d.id = .ok (t.id, base) ∧
      reg.KeysOf t.id.segments base nodes ∧ ∀ n ∈ t.nodes, n.Stands reg.Belongs base := by
  obtain ⟨base, hid, hw⟩ := write_eq_ok_iff.1 hw
  have hroot : reg.KeysOf ResourceId.root.segments none [] := ⟨rfl, .nil, by simp⟩
  obtain ⟨nodes, hkeys⟩ := h.keysOf_followSteps hpay hroot hid
  refine ⟨base, nodes, hid, hkeys, ?_⟩
  rcases hw with ⟨-, -, hnodes⟩ | ⟨-, a, ha, hfinish⟩
  · simp [hnodes]
  · have hbase : ∀ b, base = some b → b.model ∈ reg.models := by
      rintro b rfl
      exact (hkeys.shown b (List.mem_of_getLast? hkeys.last.symm)).1
    have hitems : Adds base (·.Stands reg.BelongsIn base) fun a =>
        d.items.foldlM (reg.writeItem base) a := by
      refine .foldlM fun item hitem => ?_
      cases item with
      | object o =>
        exact ((h.addsOne_top (hlayer o hitem) hbase).imp fun n ⟨r, _, hn⟩ =>
          Node.stands_iff.2 ⟨r, hn⟩).adds
      | leaf leaf values => exact h.adds_leafItem hbase
    obtain ⟨forest, rfl, hforest⟩ := hitems { base } a rfl ha
    rw [Assembly.placeAll_forest rfl] at hfinish
    cases hfinish
    exact fun n hn => (hforest n hn).imp fun _ _ hb => hb hpay

end Reachable

/-- The stock of a shop stands for a store and its items. -/
theorem stands_of_write_stock : ∃ t base nodes, Shop.registry.write Shop.stock = .ok t ∧
    Shop.registry.toResourceId Shop.stock.id = .ok (t.id, base) ∧
    Shop.registry.KeysOf t.id.segments base nodes ∧
    ∀ n ∈ t.nodes, n.Stands Shop.registry.Belongs base := by
  obtain ⟨base, nodes, hid, hkeys, hnodes⟩ :=
    Shop.sole.reachable.stands_of_write (payloadsShow_of_isEmpty rfl)
      (fun o ho r hr => by rw [(Shop.eq_of_mem_stock ho hr).2]; rfl) Shop.write_stock
  exact ⟨_, base, nodes, Shop.write_stock, hid, hkeys, hnodes⟩

/-! ### A bar

A choice at the top of a module. Without the assumption about top-level objects a case of it becomes
a data node. -/

namespace Bar

/-- A choice at the top of a module, one of whose cases is bound to a class. -/
def model : Model where
  id := "bar"
  nodes := #[
    { id := ⟨"bar", some "urn:bar"⟩, kind := .module, children := [1] },
    { id := ⟨"drink", some "urn:bar"⟩, kind := .choice, parent := some 0, children := [2] },
    { id := ⟨"beer", some "urn:bar"⟩, kind := .case, parent := some 1, children := [3],
      className := some "Beer" },
    { id := ⟨"pint", some "urn:bar"⟩, kind := .leaf, parent := some 2 }]
  modules := [0]

theorem built : model.Built :=
  ⟨"bar", [.addModule "bar" "urn:bar" none, .addChild 0 .choice "drink", .addChild 1 .case "beer",
    .setClass 2 "Beer", .addChild 2 .leaf "pint"], by rfl⟩

def beerClass : Class where
  className := "Beer"
  typeName := "Beer"
  fields := [⟨"pint", "Beer", .leaf .empty⟩]

def registry : Registry := run {} [.register model [beerClass]]

/-- An order of a beer, which has no place of its own in data. -/
def order : ObjectData where
  items := [.object beerClass.new]

def beerRef : Ref := ⟨model, 2, by decide⟩

theorem reachable : registry.Reachable :=
  ⟨true, [.register model [beerClass]], fun command h => by
    obtain rfl := List.mem_singleton.1 h
    exact built, rfl⟩

theorem sole : registry.Sole model where
  reachable := reachable
  models := rfl
  nodup_names := by decide
  nodup_namespaces := by decide

theorem nodeOfClass?_beer : registry.nodeOfClass? "Beer" = some beerRef :=
  sole.nodeOfClass?_eq_some_iff.2 ⟨rfl, rfl⟩

/-- The data node that the order becomes. -/
def beerNode : Node := .inner { id := beerRef.id } .singleNode []

theorem write_order : registry.write order = .ok { id := .root, nodes := [beerNode] } := by
  refine write_eq_ok_iff.2 ⟨none, rfl, .inr ⟨by simp, { forest := [beerNode] }, ?_, rfl⟩⟩
  have htop : registry.writeTop none beerClass.new {} = .ok { forest := [beerNode] } := by
    refine writeTop_eq_ok_iff.2
      ⟨beerRef, nodeOfClass?_beer, by decide, .inl (by decide +kernel), ?_⟩
    refine writeObject_of_content (b := { stack := [{ schema := beerRef }] })
      (c := { stack := [{ schema := beerRef }] }) (by decide) rfl ?_ rfl
    rw [writeContent_eq]
    simp only [writeField_unfold]
    rfl
  exact Except.bind_eq_ok_iff.2 ⟨_, htop, rfl⟩

end Bar

/-- An object of a case is written as a data node, although no node of that name shows up in data, so
that the data node stands for nothing that belongs at the root. -/
theorem layer_written_bar : Bar.registry.Reachable ∧ Bar.registry.PayloadsShow ∧
    ∃ t, Bar.registry.write Bar.order = .ok t ∧
      ∃ n ∈ t.nodes, (∃ r ∈ Bar.model.refs, r.id = n.key.id) ∧
        (∀ r ∈ Bar.model.refs, r.id = n.key.id → r.kind = .case) ∧
        ¬ n.Stands Bar.registry.Belongs none := by
  have hcase : ∀ r ∈ Bar.model.refs, r.id = Bar.beerNode.key.id → r.kind = .case := by decide
  refine ⟨Bar.reachable, payloadsShow_of_isEmpty rfl, _, Bar.write_order, Bar.beerNode, by simp,
    by decide, hcase, fun hstands => ?_⟩
  obtain ⟨r, hr⟩ := Node.stands_iff.1 hstands
  have hid := hr.key_id_eq
  obtain ⟨frame, rfl, -, hbelongs, -⟩ := hr
  have hmodel : frame.schema.model = Bar.model := List.mem_singleton.1 hbelongs.model_mem
  have hkind := hcase _ (Ref.mem_refs_iff.2 hmodel) hid.symm
  have hshown := hbelongs.shown
  rw [hkind] at hshown
  cases hshown

end Registry

end YangBinding
