import YangBinding.Proofs.Binding.Faults

/-!
# Positioned objects and what is written of them

Writing positioned objects converts their id and then walks over one item after the other, with one
assembly that all of them are put into. What comes out is told without any steps: the data has the
nodes of all items, one after the other, where the data node of an object is the one of its content.
Nothing comes out only if something is wrong: with the id, with the place of an item, or with an object
or one inside.

## Main definitions

* `Registry.ItemFault`, `Registry.DataFault` — what is wrong with an item, and with positioned objects
* `Registry.topNodes` — what is left of an item

## Main results

* `Registry.dataFault_iff_of_inner`, `Registry.dataFault_iff_of_leaf` — what can be wrong below a base
* `Registry.map_node_outlines` — what is left of the outlines of an object is its content
* `Registry.Reachable.write_settles` — what is written is what is left of the items, or something is wrong
* `Registry.Reachable.write_outcome` — what is written of positioned objects, and why nothing is
-/

namespace YangBinding

open Schema (DataChild Kind Model Ref)
open YangBinding.Tree (Assembly Node ResourceData)

namespace Registry

/-! ### Faults -/

/-- What is wrong with an item that is put below a base. -/
inductive ItemFault (reg : Registry) (base : Option Ref) : Item → Error → Prop
  | unbound {o : Object} (node : reg.nodeOfClass? o.className = none) :
      ItemFault reg base (.object o) (.resolution (.noNodeForClass o.className))
  /-- A module has no data node. -/
  | module {o : Object} {r : Ref} (node : reg.nodeOfClass? o.className = some r)
      (kind : r.kind = .module) :
      ItemFault reg base (.object o) (.structural (.moduleObject o.className))
  /-- The object does not belong below the base, and the base does not take just any object. -/
  | elsewhere {o : Object} {r : Ref} (node : reg.nodeOfClass? o.className = some r)
      (place : samePlace r.dataParent? base = false) (inner : ∀ b, base = some b → b.kind ≠ .anydata) :
      ItemFault reg base (.object o) (.structural (.foreignObject o.className (base.map Ref.path)))
  | inside {o : Object} {r : Ref} {e : Error} (node : reg.nodeOfClass? o.className = some r)
      (faulty : reg.Faulty o r e) : ItemFault reg base (.object o) e
  | unboundOwner {leaf : LeafId} {values : List LeafValue}
      (node : reg.nodeOfClass? leaf.owner = none) :
      ItemFault reg base (.leaf leaf values) (.resolution (.noNodeForClass leaf.owner))
  | noLeaf {leaf : LeafId} {values : List LeafValue} {owner : Ref}
      (node : reg.nodeOfClass? leaf.owner = some owner) (none : reg.leafOf? leaf = none) :
      ItemFault reg base (.leaf leaf values) (.resolution (.noLeafFor leaf.text))
  | leafElsewhere {leaf : LeafId} {values : List LeafValue} {s : Ref}
      (node : reg.leafOf? leaf = some s) (place : samePlace s.dataParent? base = false) :
      ItemFault reg base (.leaf leaf values) (.structural (.foreignLeaf leaf.text (base.map Ref.path)))
  /-- A leaf has exactly one value. -/
  | count {leaf : LeafId} {values : List LeafValue} {s : Ref} (node : reg.leafOf? leaf = some s)
      (kind : s.kind = .leaf) (length : values.length ≠ 1) :
      ItemFault reg base (.leaf leaf values)
        (.structural (.leafValueCount leaf.text values.length))

/-- What is wrong with positioned objects, the base they are put below being the one of their id. -/
inductive DataFault (reg : Registry) (d : ObjectData) : Error → Prop
  /-- The id does not lead to a place in data. -/
  | nowhere {e : Error} (id : reg.toResourceId d.id = .error e) : DataFault reg d e
  /-- Nothing can be put below a leaf. -/
  | belowLeaf {rid : Tree.ResourceId} {b : Ref} (id : reg.toResourceId d.id = .ok (rid, some b))
      (leaf : b.kind.isLeafLike = true) (items : d.items ≠ []) :
      DataFault reg d (.structural (.objectsBelowLeaf b.kind b.path))
  | item {rid : Tree.ResourceId} {base : Option Ref} {item : Item} {e : Error}
      (place : reg.toResourceId d.id = .ok (rid, base))
      (inner : ∀ b, base = some b → b.kind.isLeafLike = false) (mem : item ∈ d.items)
      (fault : reg.ItemFault base item e) : DataFault reg d e

variable {reg : Registry} {o : Object} {r s : Ref} {place : DataChild} {base : Option Ref}

/-! ### What is left of outlines -/

/-- What is left of the outlines of an object is its content, unless a class is bound to a leaf. -/
theorem map_node_outlines
    (hinner : ∀ c s, reg.nodeOfClass? c = some s → s.kind.isLeafLike = false) :
    (reg.outlines o r).map Outline.node = (reg.content o r).map Placed.data := by
  -- By induction on the object, slot by slot.
  induction hn : sizeOf o using Nat.strongRecOn generalizing o r with
  | ind n ih =>
    have hnode {x : Object} {s : Ref} (hx : sizeOf x < sizeOf o) (hk : s.kind.isLeafLike = false) :
        (reg.outline x { node := s }).node = reg.objectNode x s := by
      rw [outline_of_inner hk, Outline.node, objectNode_eq, ih _ (hn ▸ hx) rfl]
    rw [outlines_eq, content_eq, List.map_flatMap, List.map_flatMap]
    refine List.flatMap_congr fun slot hslot => ?_
    cases slot with
    | field c =>
      rw [slotOutlines, slotContent]
      split
      · rw [leafContent, List.map_map, List.map_map]
        refine List.map_congr_left fun v _ => ?_
        rw [Function.comp_apply, Outline.node]
        rfl
      · next hk =>
        rw [memberContent, List.map_map, List.map_map]
        exact List.map_congr_left fun x hx =>
          hnode (Object.sizeOf_lt_of_mem_members hx) (by simpa using hk)
    | layer l x =>
      rw [slotOutlines, slotContent, Outline.map_node_under,
        ih _ (hn ▸ sizeOf_lt_of_mem_slots hslot) rfl, List.map_map]
      rfl
    | payloads =>
      rw [slotOutlines, slotContent, payloadContent, List.map_filterMap, List.map_filterMap]
      refine List.filterMap_congr fun x hx => ?_
      cases hs : reg.payloadOf? r x with
      | none => rfl
      | some s =>
        obtain ⟨_, _, -, -, hclass⟩ := mem_payloads_iff.1 (mem_payloads_of_payloadOf? hs)
        exact congrArg some (hnode (Object.sizeOf_lt_of_mem_anydata hx) (hinner _ s hclass))

/-- What is left of the outline of an object is its data node, unless a class is bound to a leaf. -/
theorem node_outline (hinner : ∀ c s, reg.nodeOfClass? c = some s → s.kind.isLeafLike = false)
    (hk : place.node.kind.isLeafLike = false) :
    (reg.outline o place).node = reg.objectNode o place.node := by
  rw [outline_of_inner hk, Outline.node, objectNode_eq, map_node_outlines hinner]

/-! ### Positioned objects -/

/-- What is left of an item at the top: the outline of an object, or the values of a leaf. -/
def topNodes (reg : Registry) : Item → List Node
  | .object o => ((reg.nodeOfClass? o.className).map fun r =>
      (reg.outline o { node := r }).node).toList
  | .leaf leaf values => (reg.leafOf? leaf).toList.flatMap fun s => values.map (leafNode s)

/-- The values of a leaf are its data nodes, and the data node of an object is what is left of its
outline unless a class is bound to a leaf. -/
theorem topNodes_eq (hinner : ∀ c s, reg.nodeOfClass? c = some s → s.kind.isLeafLike = false)
    (item : Item) : reg.topNodes item = reg.itemNodes item := by
  cases item with
  | leaf leaf values => rfl
  | object o =>
    rw [topNodes, itemNodes]
    cases hr : reg.nodeOfClass? o.className with
    | none => rfl
    | some r => exact congrArg (fun n => [n]) (node_outline hinner (hinner _ r hr))

section Positioned

variable (h : reg.Reachable)
include h

/-- An object puts its data node below a base that it belongs below, unless something is wrong with it
or inside. -/
private theorem Reachable.puts_top (base : Option Ref) (o : Object) :
    PutsUnless (fun a => reg.writeTop base o a) (reg.ItemFault base (.object o))
      (reg.topNodes (.object o)) := by
  have hwrite {r : Ref} (hr : reg.nodeOfClass? o.className = some r) :
      PutsUnless (fun a => reg.writeObject o r a) (reg.Faulty o r) (reg.topNodes (.object o)) := by
    refine (h.puts_object (h.model_mem_of_nodeOfClass? hr)).congr (fun _ => Iff.rfl) ?_
    rw [topNodes, hr]
    rfl
  refine (PutsUnless.found fun r hr =>
    (hwrite (nodeOfClass_eq_ok_iff.1 hr)).guarded.guarded).of_sound ?_ ?_
  · rintro e (hnode | ⟨r, hr, ⟨hmodule, rfl⟩ | ⟨-, ⟨hplace, rfl⟩ | ⟨-, hfaulty⟩⟩⟩)
    · obtain ⟨hnone, rfl⟩ := found_eq_error_iff.1 hnode
      exact .unbound hnone
    · exact .module (nodeOfClass_eq_ok_iff.1 hr) (by simpa using hmodule)
    · rw [Bool.and_eq_true, Bool.not_eq_true', Bool.not_eq_true'] at hplace
      refine .elsewhere (nodeOfClass_eq_ok_iff.1 hr) hplace.1 fun b hb => ?_
      simpa [hb] using hplace.2
    · exact .inside (nodeOfClass_eq_ok_iff.1 hr) hfaulty
  · -- What has been written has passed every check, and each fault denies one of them.
    intro a a' ha hw e he
    obtain ⟨r, hr, hk, hplace, hobject⟩ := writeTop_eq_ok_iff.1 hw
    cases he with
    | unbound hnone => cases hr.symm.trans hnone
    | module hr' hmodule =>
      cases hr.symm.trans hr'
      exact hk hmodule
    | elsewhere hr' hother hany =>
      cases hr.symm.trans hr'
      obtain hplace | ⟨b, hb, hkind⟩ := hplace
      · cases hplace.symm.trans hother
      · exact hany b hb hkind
    | inside hr' hfaulty =>
      cases hr.symm.trans hr'
      exact (hwrite hr).sound a a' ha hobject e hfaulty

omit h in
/-- The values of a leaf put their data nodes below a base that the leaf belongs below. -/
private theorem puts_leafItem (base : Option Ref) (leaf : LeafId) (values : List LeafValue) :
    PutsUnless (fun a => reg.writeLeafItem base leaf values a)
      (reg.ItemFault base (.leaf leaf values)) (reg.topNodes (.leaf leaf values)) := by
  have hleafOf {owner : Ref} (howner : reg.nodeOfClass leaf.owner = .ok owner) :
      reg.leafOf? leaf =
        ((owner.findDataChild? leaf.name none).map fun c => c.node).filter fun c =>
          c.kind.isLeafLike := by
    rw [leafOf?, nodeOfClass_eq_ok_iff.1 howner]
    rfl
  have hwrite {s : Ref} (hs : reg.leafOf? leaf = some s) :
      PutsUnless (fun a => values.foldlM (writeLeaf s) a) (fun _ => False)
        (reg.topNodes (.leaf leaf values)) := by
    obtain ⟨owner, -, hleaf⟩ := Option.bind_eq_some_iff.1 hs
    have hk : s.kind.isLeafLike = true := by simpa using (Option.filter_eq_some_iff.1 hleaf).2
    refine (puts_values hk values).congr (fun _ => Iff.rfl) ?_
    rw [topNodes, hs, Option.toList_some, List.flatMap_singleton]
  refine (PutsUnless.found fun owner howner => PutsUnless.found fun s hs =>
    (hwrite ((hleafOf howner).trans (found_eq_ok_iff.1 hs))).guarded.guarded).of_sound ?_ ?_
  · rintro e (howner | ⟨owner, howner, hs | ⟨s, hs, ⟨hplace, rfl⟩ | ⟨-, ⟨hcount, rfl⟩ | ⟨-, ⟨⟩⟩⟩⟩⟩)
    · obtain ⟨hnone, rfl⟩ := found_eq_error_iff.1 howner
      exact .unboundOwner hnone
    · obtain ⟨hnone, rfl⟩ := found_eq_error_iff.1 hs
      exact .noLeaf (nodeOfClass_eq_ok_iff.1 howner) ((hleafOf howner).trans hnone)
    · exact .leafElsewhere ((hleafOf howner).trans (found_eq_ok_iff.1 hs)) (by simpa using hplace)
    · simp only [Bool.and_eq_true, beq_iff_eq, bne_iff_ne] at hcount
      exact .count ((hleafOf howner).trans (found_eq_ok_iff.1 hs)) hcount.1 hcount.2
  · -- Again each fault denies a check that has been passed.
    intro a a' _ hw e he
    obtain ⟨s, hs, hplace, hcount, -⟩ := writeLeafItem_eq_ok_iff.1 hw
    cases he with
    | unboundOwner hnone =>
      obtain ⟨owner, howner, -⟩ := Option.bind_eq_some_iff.1 hs
      cases howner.symm.trans hnone
    | noLeaf _ hnone => cases hs.symm.trans hnone
    | leafElsewhere hs' hother =>
      cases hs.symm.trans hs'
      cases hplace.symm.trans hother
    | count hs' hk hlength =>
      cases hs.symm.trans hs'
      exact hlength (hcount hk)

/-- Items put their data nodes one after the other, unless something is wrong with one of them. -/
private theorem Reachable.puts_items (base : Option Ref) (items : List Item) :
    PutsUnless (fun a => items.foldlM (reg.writeItem base) a)
      (fun e => ∃ item ∈ items, reg.ItemFault base item e) (items.flatMap reg.topNodes) := by
  refine PutsUnless.foldlM fun item _ => ?_
  cases item with
  | object o => exact h.puts_top base o
  | leaf leaf values => exact puts_leafItem base leaf values

omit h

section Placed

variable {d : ObjectData} {rid : Tree.ResourceId} {e : Error}

/-- Below anything but a leaf only items can be wrong. -/
theorem dataFault_iff_of_inner (hid : reg.toResourceId d.id = .ok (rid, base))
    (hbase : ∀ b, base = some b → b.kind.isLeafLike = false) :
    reg.DataFault d e ↔ ∃ item ∈ d.items, reg.ItemFault base item e := by
  constructor
  · intro he
    cases he with
    | nowhere hid' => cases hid.symm.trans hid'
    | belowLeaf hid' hleaf _ =>
      cases hid.symm.trans hid'
      simp [hbase _ rfl] at hleaf
    | item hid' _ hmem hfault =>
      cases hid.symm.trans hid'
      exact ⟨_, hmem, hfault⟩
  · rintro ⟨item, hmem, hfault⟩
    exact .item hid hbase hmem hfault

/-- Below a leaf any item is wrong. -/
theorem dataFault_iff_of_leaf {b : Ref} (hid : reg.toResourceId d.id = .ok (rid, some b))
    (hleaf : b.kind.isLeafLike = true) :
    reg.DataFault d e ↔ d.items ≠ [] ∧ e = .structural (.objectsBelowLeaf b.kind b.path) := by
  constructor
  · intro he
    cases he with
    | nowhere hid' => cases hid.symm.trans hid'
    | belowLeaf hid' _ hne =>
      cases hid.symm.trans hid'
      exact ⟨hne, rfl⟩
    | item hid' hinner _ _ =>
      cases hid.symm.trans hid'
      simp [hinner b rfl] at hleaf
  · rintro ⟨hne, rfl⟩
    exact .belowLeaf hid hleaf hne

/-- Below anything but a leaf the items are written one after the other. -/
private theorem write_of_inner (hid : reg.toResourceId d.id = .ok (rid, base))
    (hbase : ∀ b, base = some b → b.kind.isLeafLike = false) :
    reg.write d = (do
      let a ← d.items.foldlM (reg.writeItem base) { base }
      pure { id := rid, nodes := ← a.finish }) := by
  rw [write, hid]
  cases base with
  | none => rfl
  | some b => simp only [bind, Except.bind, hbase b rfl, Bool.false_eq_true, if_false]

/-- Below a leaf there may only be nothing. -/
private theorem write_of_leaf {b : Ref} (hid : reg.toResourceId d.id = .ok (rid, some b))
    (hleaf : b.kind.isLeafLike = true) :
    reg.write d = if d.items.isEmpty then .ok { id := rid }
      else .error (.structural (.objectsBelowLeaf b.kind b.path)) := by
  rw [write, hid]
  simp only [bind, Except.bind, hleaf, if_true]
  cases d.items <;> rfl

end Placed

include h in
/-- What is left of all items, one after the other, is what is written, unless something is wrong with
the positioned objects. -/
theorem Reachable.write_settles (d : ObjectData) : match reg.write d with
    | .ok t => (∃ base, reg.toResourceId d.id = .ok (t.id, base)) ∧
        t.nodes = d.items.flatMap reg.topNodes ∧ ∀ e, ¬ reg.DataFault d e
    | .error e => reg.DataFault d e := by
  cases hid : reg.toResourceId d.id with
  | error e =>
    rw [write, hid]
    exact .nowhere hid
  | ok place =>
    obtain ⟨rid, base⟩ := place
    by_cases hbase : ∀ b, base = some b → b.kind.isLeafLike = false
    · have hitems := h.puts_items base d.items
      have hopen : Assembly.Open { base := base } := hbase
      rw [write_of_inner hid hbase]
      cases ha : d.items.foldlM (reg.writeItem base) { base := base } with
      | error e => exact (dataFault_iff_of_inner hid hbase).2 (hitems.fails _ e hopen ha)
      | ok a =>
        have hput := hitems.puts _ a hopen ha
        rw [Assembly.placeAll_forest rfl] at hput
        subst hput
        refine ⟨⟨base, rfl⟩, rfl, fun e he => ?_⟩
        exact hitems.sound _ _ hopen ha e ((dataFault_iff_of_inner hid hbase).1 he)
    · obtain ⟨b, rfl, hleaf⟩ : ∃ b, base = some b ∧ b.kind.isLeafLike = true := by
        simpa using hbase
      rw [write_of_leaf hid hleaf]
      cases hd : d.items with
      | nil => exact ⟨⟨_, rfl⟩, rfl, fun e he => ((dataFault_iff_of_leaf hid hleaf).1 he).1 hd⟩
      | cons item items => exact (dataFault_iff_of_leaf hid hleaf).2 ⟨by simp [hd], rfl⟩

end Positioned

/-- In a registry that binds no class to a leaf, positioned objects are written as the data nodes of all
items, one after the other, at the resource id that their id converts to, if nothing is wrong with them.
If something is, they are not written, and the error tells one of the things that are wrong. -/
theorem Reachable.write_outcome (h : reg.Reachable)
    (hinner : ∀ c s, reg.nodeOfClass? c = some s → s.kind.isLeafLike = false) (d : ObjectData) :
    match reg.write d with
    | .ok t => (∃ base, reg.toResourceId d.id = .ok (t.id, base)) ∧
        t.nodes = d.items.flatMap reg.itemNodes ∧ ∀ e, ¬ reg.DataFault d e
    | .error e => reg.DataFault d e := by
  have hsettles := h.write_settles d
  cases hw : reg.write d with
  | error e =>
    rw [hw] at hsettles
    exact hsettles
  | ok t =>
    rw [hw] at hsettles
    obtain ⟨hid, hnodes, hsound⟩ := hsettles
    refine ⟨hid, ?_, hsound⟩
    rw [hnodes]
    exact List.flatMap_congr fun item _ => topNodes_eq hinner item

/-- The stock of a shop is written as the data node of the store, and nothing is wrong with it. -/
theorem write_outcome_stock : ∃ t, Shop.registry.write Shop.stock = .ok t ∧
    t.nodes = [Shop.registry.objectNode Shop.store Shop.storeRef] ∧
      ∀ e, ¬ Shop.registry.DataFault Shop.stock e := by
  have hinner (c : String) (s : Ref) (hs : Shop.registry.nodeOfClass? c = some s) :
      s.kind.isLeafLike = false := by
    have hbound : ∀ r ∈ Shop.model.refs, r.className.isSome = true → r.kind.isLeafLike = false := by
      decide
    obtain ⟨hm, hc⟩ := Shop.sole.nodeOfClass?_eq_some_iff.1 hs
    exact hbound s (Ref.mem_refs_iff.2 hm) (by simp [hc])
  have houtcome := Shop.sole.reachable.write_outcome hinner Shop.stock
  rw [Shop.write_stock] at houtcome
  obtain ⟨-, -, hsound⟩ := houtcome
  exact ⟨_, Shop.write_stock, rfl, hsound⟩

end Registry

end YangBinding
