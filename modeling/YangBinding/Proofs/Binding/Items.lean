import Mathlib.Data.List.Chain
import YangBinding.Proofs.Binding.Lossless
import YangBinding.Proofs.Binding.ReadBack
import YangBinding.Proofs.Binding.Written

/-!
# Objects and leaves at the root

Positioned objects are written one after the other, each with the data nodes that it contributes.
When they are read back, objects come back on their own, and so does a leaf; the values of a leaf-list
join those that were read last, if these are of the same leaf-list. Leaves come back under the class
of the node that declares them, whatever class they were given by.

## Main definitions

* `Registry.leafOf?`, `Registry.ownerId?` — the leaf of a leaf id, and the leaf id of a leaf
* `Registry.itemNodes` — the data nodes of an item
* `Registry.Placeable` — what has its place at the root, with nothing missing in it
* `Registry.restoredItems` — what comes back of a sequence of items

## Main results

* `Registry.Covered.write_eq_ok_iff` — when positioned objects can be written, and as what
* `Registry.Described.read_itemNodes` — what was written is read as what comes back
-/

namespace YangBinding

open Schema (DataChild Kind Model Ref)
open YangBinding.Tree (Assembly Node ResourceData)

namespace Registry

/-- The leaf or leaf-list that a leaf id leads to. -/
def leafOf? (reg : Registry) (leaf : LeafId) : Option Ref :=
  (reg.nodeOfClass? leaf.owner).bind fun owner =>
    ((owner.findDataChild? leaf.name none).map fun c => c.node).filter fun c => c.kind.isLeafLike

/-- The leaf id that a leaf is read as. -/
def ownerId? (leaf : Ref) : Option LeafId :=
  leaf.enclosingClass?.map fun owner => { owner, name := leaf.name }

/-- The data nodes of an item. -/
def itemNodes (reg : Registry) : Item → List Node
  | .object o => ((reg.nodeOfClass? o.className).map (reg.objectNode o)).toList
  | .leaf leaf values => (reg.leafOf? leaf).toList.flatMap fun s => values.map (leafNode s)

/-- An item holds objects of the right classes, the outermost for a node that may stand on its
own. -/
def WellTyped (reg : Registry) : Item → Prop
  | .object o => ∃ r, reg.nodeOfClass? o.className = some r ∧
      (r.kind = .container ∨ r.kind = .list ∨ r.kind = .anydata ∨ r.kind = .notification) ∧
      reg.Typed o r
  | .leaf .. => True

/-- An item has its place at the root, and nothing is missing that its data needs. -/
def Placeable (reg : Registry) : Item → Prop
  | .object o => ∃ r, reg.nodeOfClass? o.className = some r ∧ r.dataParent? = none ∧ reg.Writable o r
  | .leaf leaf values => ∃ s, reg.leafOf? leaf = some s ∧ s.dataParent? = none ∧
      (s.kind = .leaf → values.length = 1)

/-- What comes back of an item by itself. -/
def restoredItem? (reg : Registry) : Item → Option Item
  | .object o => (reg.nodeOfClass? o.className).map fun r => .object (reg.restored o r)
  | .leaf leaf values =>
    if values = [] then none
    else ((reg.leafOf? leaf).bind ownerId?).map fun leaf => .leaf leaf values

/-- The leaf of an item. -/
def leafIdOf? : Item → Option LeafId
  | .object _ => none
  | .leaf leaf _ => some leaf

/-- A leaf id leads to a leaf-list. -/
def isLeafList (reg : Registry) (leaf : LeafId) : Bool :=
  (reg.leafOf? leaf).any fun s => s.kind == .leafList

/-- The values of two items, if both are of one leaf-list. -/
def merged? (reg : Registry) : Item → Item → Option Item
  | .leaf leaf values, .leaf leaf' values' =>
    if leaf = leaf' ∧ reg.isLeafList leaf' = true then some (.leaf leaf (values ++ values')) else none
  | _, _ => none

/-- Adds an item to those before it; values join those of the same leaf-list. -/
def join (reg : Registry) (items : List Item) (item : Item) : List Item :=
  match items.getLast?.bind fun last => reg.merged? last item with
  | some merged => items.dropLast ++ [merged]
  | none => items ++ [item]

/-- What comes back of a sequence of items. -/
def restoredItems (reg : Registry) (items : List Item) : List Item :=
  (items.filterMap reg.restoredItem?).foldl reg.join []

variable {reg : Registry} {m : Model} {base : Option Ref} {o : Object} {r s : Ref} {leaf : LeafId}
  {values : List LeafValue} {item : Item} {items : List Item} {a a' : Assembly}

/-! ### Leaf ids -/

/-- A leaf id leads to a leaf that the node of its class offers. -/
theorem exists_offer_of_leafOf? (hs : reg.leafOf? leaf = some s) : s.kind.isLeafLike = true ∧
    ∃ owner, reg.nodeOfClass? leaf.owner = some owner ∧ ∃ e ∈ owner.offers, e.node = s := by
  obtain ⟨owner, howner, hs⟩ := Option.bind_eq_some_iff.1 hs
  obtain ⟨hs, hleaf⟩ := Option.filter_eq_some_iff.1 hs
  obtain ⟨e, he, rfl⟩ := Option.map_eq_some_iff.1 hs
  exact ⟨hleaf, owner, howner, e, (Ref.mem_offers_of_findDataChild? he).1, rfl⟩

/-! ### Writing -/

@[simp]
theorem samePlace_none {parent : Option Ref} : samePlace parent none = true ↔ parent = none := by
  cases parent <;> simp [samePlace]

/-- What follows a check is done if the check is passed. -/
theorem unless_eq_ok_iff {α : Type} {c : Prop} [Decidable c] {cause : StructuralError}
    {next : Result α} {a : α} :
    (if c then Result.refuse cause >>= fun _ : Unit => next else next) = .ok a ↔ ¬ c ∧ next = .ok a := by
  by_cases hc : c <;> simp [hc, Result.refuse, bind, Except.bind]

theorem writeTop_eq_ok_iff : reg.writeTop base o a = .ok a' ↔
    ∃ r, reg.nodeOfClass? o.className = some r ∧ r.kind ≠ .module ∧
      (samePlace r.dataParent? base = true ∨ ∃ b, base = some b ∧ b.kind = .anydata) ∧
      reg.writeObject o r a = .ok a' := by
  rw [writeTop, Except.bind_eq_ok_iff]
  simp only [nodeOfClass_eq_ok_iff]
  have hplace (r : Ref) :
      ¬ (!samePlace r.dataParent? base && !base.any fun b => b.kind == .anydata) = true ↔
        (samePlace r.dataParent? base = true ∨ ∃ b, base = some b ∧ b.kind = .anydata) := by
    cases hs : samePlace r.dataParent? base <;> cases base <;> simp
  constructor
  · rintro ⟨r, hr, h⟩
    obtain ⟨hk, h⟩ := unless_eq_ok_iff.1 h
    obtain ⟨hp, h⟩ := unless_eq_ok_iff.1 h
    exact ⟨r, hr, by simpa using hk, (hplace r).1 hp, h⟩
  · rintro ⟨r, hr, hk, hp, h⟩
    exact ⟨r, hr, unless_eq_ok_iff.2 ⟨by simpa using hk, unless_eq_ok_iff.2 ⟨(hplace r).2 hp, h⟩⟩⟩

theorem writeLeafItem_eq_ok_iff : reg.writeLeafItem base leaf values a = .ok a' ↔
    ∃ s, reg.leafOf? leaf = some s ∧ samePlace s.dataParent? base = true ∧
      (s.kind = .leaf → values.length = 1) ∧ values.foldlM (writeLeaf s) a = .ok a' := by
  rw [writeLeafItem, Except.bind_eq_ok_iff]
  simp only [nodeOfClass_eq_ok_iff, leafOf?, Option.bind_eq_some_iff]
  constructor
  · rintro ⟨owner, howner, h⟩
    obtain ⟨s, hs, h⟩ := Except.bind_eq_ok_iff.1 h
    obtain ⟨hplace, h⟩ := unless_eq_ok_iff.1 h
    obtain ⟨hcount, h⟩ := unless_eq_ok_iff.1 h
    exact ⟨s, ⟨owner, howner, found_eq_ok_iff.1 hs⟩, by simpa using hplace, by simpa using hcount, h⟩
  · rintro ⟨s, ⟨owner, howner, hs⟩, hplace, hcount, h⟩
    refine ⟨owner, howner, Except.bind_eq_ok_iff.2 ⟨s, found_eq_ok_iff.2 hs, ?_⟩⟩
    exact unless_eq_ok_iff.2 ⟨by simpa using hplace, unless_eq_ok_iff.2 ⟨by simpa using hcount, h⟩⟩

/-- An object is written if it belongs below the base, or the base is an anydata node, and nothing is
missing in it. -/
theorem Classified.writes_top (h : reg.Classified m) (hclass : reg.nodeOfClass? o.className = some r)
    (hh : HoldsObjects r) (ht : reg.Typed o r) :
    Writes (fun a => reg.writeTop base o a)
      ((samePlace r.dataParent? base = true ∨ ∃ b, base = some b ∧ b.kind = .anydata) ∧
        reg.Writable o r)
      (reg.itemNodes (.object o)) := by
  intro a ha a'
  have hwrites := h.writes_object (h.sole.nodeOfClass?_eq_some_iff.1 hclass).1 hh ht a ha a'
  -- The checks come before anything is written, and say nothing of the assembly.
  rw [itemNodes, hclass, Option.map_some, Option.toList_some]
  refine writeTop_eq_ok_iff.trans ?_
  constructor
  · rintro ⟨r', hr', -, hplace, hw⟩
    obtain rfl := Option.some.inj (hclass.symm.trans hr')
    obtain ⟨hwritable, ha'⟩ := hwrites.1 hw
    exact ⟨⟨hplace, hwritable⟩, ha'⟩
  · rintro ⟨⟨hplace, hwritable⟩, ha'⟩
    exact ⟨r, hclass, hh.kind_ne_module, hplace, hwrites.2 ⟨hwritable, ha'⟩⟩

/-- The values of a leaf are written if it belongs below the base; a leaf has just one. -/
theorem writes_leafItem :
    Writes (fun a => reg.writeLeafItem base leaf values a)
      (∃ s, reg.leafOf? leaf = some s ∧ samePlace s.dataParent? base = true ∧
        (s.kind = .leaf → values.length = 1))
      (reg.itemNodes (.leaf leaf values)) := by
  intro a ha a'
  have hwrites {s : Ref} (hs : reg.leafOf? leaf = some s) :
      values.foldlM (writeLeaf s) a = .ok a' ↔
        a' = a.placeAll (reg.itemNodes (.leaf leaf values)) := by
    have hnodes : reg.itemNodes (.leaf leaf values) = values.flatMap fun v => [leafNode s v] := by
      simp [itemNodes, hs, List.map_eq_flatMap]
    have hleaf := (exists_offer_of_leafOf? hs).1
    rw [hnodes]
    simpa using Writes.foldlM (fun v (_ : v ∈ values) => writes_leaf hleaf v) a ha a'
  refine writeLeafItem_eq_ok_iff.trans ?_
  constructor
  · rintro ⟨s, hs, hplace, hcount, hw⟩
    exact ⟨⟨s, hs, hplace, hcount⟩, (hwrites hs).1 hw⟩
  · rintro ⟨⟨s, hs, hplace, hcount⟩, ha'⟩
    exact ⟨s, hs, hplace, hcount, (hwrites hs).2 ha'⟩

section Covered

variable (h : reg.Covered m)
include h

/-- A leaf is offered by the node that its id names. -/
theorem Covered.mem_offers_of_leafOf? (hs : reg.leafOf? leaf = some s) :
    s.kind.isLeafLike = true ∧ ∃ owner : Ref, owner.model = m ∧ owner.className = some leaf.owner ∧
      ∃ e ∈ owner.offers, e.node = s := by
  obtain ⟨hleaf, owner, howner, hoffer⟩ := exists_offer_of_leafOf? hs
  obtain ⟨hm, hc⟩ := h.sole.nodeOfClass?_eq_some_iff.1 howner
  exact ⟨hleaf, owner, hm, hc, hoffer⟩

theorem Covered.model_of_leafOf? (hs : reg.leafOf? leaf = some s) : s.model = m := by
  obtain ⟨-, owner, hm, -, e, he, rfl⟩ := h.mem_offers_of_leafOf? hs
  exact (Ref.model_of_mem_offers he).trans hm

/-- The node that declares a leaf has a class, if any leaf id leads to the leaf: a case and the
augments of anything but choices have one, and a choice declares no leaf. -/
theorem Covered.exists_class_of_leafOf? (hs : reg.leafOf? leaf = some s) :
    ∃ p c, s.parent? = some p ∧ p.className = some c := by
  obtain ⟨hleaf, owner, hm, hc, e, he, rfl⟩ := h.mem_offers_of_leafOf? hs
  have hlinked : owner.model.Linked := hm.symm ▸ h.sole.linked
  have hlinked' : e.node.model.Linked := Ref.model_of_mem_offers he ▸ hlinked
  obtain ⟨p, hp, rfl | hpl⟩ := Ref.parent?_of_mem_offers hlinked he
  · exact ⟨p, _, hp, hc⟩
  have hpm : p.model = m := (Ref.model_of_parent? hp).trans ((Ref.model_of_mem_offers he).trans hm)
  -- An augment of a choice holds cases only, so none that holds a leaf is without a class.
  have hcase : e.node.kind ≠ .case := by
    intro hk
    simp [hk, Kind.isLeafLike] at hleaf
  have hholds : HoldsObjects p := by
    have hadm := Ref.admits_of_parent? hlinked' hp
    have hpk : p.kind = .case ∨ p.kind = .augment := by
      by_cases hchoice : p.kind = .choice
      · cases hk : e.node.kind <;>
          simp_all [Model.Admits, Kind.admits, Kind.isLeafLike]
      · exact (Ref.isLayer_iff.1 hpl).resolve_left hchoice
    rcases hpk with hk | hk
    · simp [HoldsObjects, hk]
    · refine .inr (.inr (.inr (.inr (.inr (.inr (.inr ⟨hk, fun t ht htk => hcase ?_⟩))))))
      exact (h.casesForChoices p (Ref.mem_refs_iff.2 hpm) hk t ht _
        ((Ref.mem_children_iff (hpm.symm ▸ h.sole.linked)).2 hp)).2 htk
  obtain ⟨type, hclass, -⟩ := h.classified.exists_class hpm hholds
  obtain ⟨c, hc, -⟩ := Option.bind_eq_some_iff.1 hclass
  exact ⟨p, c, hp, hc⟩

/-- The id that a leaf is read as leads to the leaf. -/
theorem Covered.exists_ownerId (hs : reg.leafOf? leaf = some s) :
    ∃ l, ownerId? s = some l ∧ reg.leafOf? l = some s := by
  obtain ⟨hleaf, -⟩ := h.mem_offers_of_leafOf? hs
  have hsm := h.model_of_leafOf? hs
  obtain ⟨p, c, hp, hc⟩ := h.exists_class_of_leafOf? hs
  have hpm : p.model = m := (Ref.model_of_parent? hp).trans hsm
  have hlayer := Ref.isLayer_of_isLeafLike hleaf
  have hclass : s.enclosingClass? = some c := by
    rw [Ref.enclosingClass?, Ref.enclosing_eq hp, List.findSome?_cons, hc]
  refine ⟨{ owner := c, name := s.name }, by rw [ownerId?, hclass]; rfl, ?_⟩
  rw [leafOf?, h.sole.nodeOfClass?_eq_some_iff.2 ⟨hpm, hc⟩, Option.bind_some,
    Ref.findDataChild?_of_parent (hsm.symm ▸ h.sole.linked)
      (h.nodup_declared p (Ref.mem_refs_iff.2 hpm)) hp hlayer]
  simp [hleaf]

/-! ### Writing at the root -/

/-- Objects and leaves at the root can be written exactly if all have their place there and nothing
is missing in them; the data has the nodes of all of them. -/
theorem Covered.write_eq_ok_iff {d : ObjectData} {t : ResourceData} (hroot : d.id.isRoot = true)
    (ht : ∀ item ∈ d.items, reg.WellTyped item) :
    reg.write d = .ok t ↔ (∀ item ∈ d.items, reg.Placeable item) ∧
      t = { id := .root, nodes := d.items.flatMap reg.itemNodes } := by
  have hitem : ∀ item ∈ d.items, Writes (fun a => reg.writeItem none a item) (reg.Placeable item)
      (reg.itemNodes item) := by
    intro item hitem
    cases item with
    | object o =>
      obtain ⟨r, hclass, hk, ht⟩ := ht _ hitem
      have hh : HoldsObjects r := .of_standalone hk
      exact (h.classified.writes_top hclass hh ht).congr (by simp [Placeable, hclass]) rfl
    | leaf leaf values => exact writes_leafItem.congr (by simp [Placeable]) rfl
  have hall := Writes.foldlM hitem { base := none } (by simp [Assembly.Open, Assembly.current])
  have hid : reg.toResourceId d.id = .ok (.root, none) := by
    rw [toResourceId, List.isEmpty_iff.1 hroot]
    rfl
  have hwrite : reg.write d = (do
      let a ← d.items.foldlM (reg.writeItem none) { base := none }
      pure { id := .root, nodes := ← a.finish }) := by
    rw [write, hid]
    rfl
  rw [hwrite, Except.bind_eq_ok_iff]
  have hforest (nodes : List Node) :
      Assembly.placeAll { base := none } nodes = { base := none, forest := nodes } :=
    Assembly.placeAll_forest rfl nodes
  constructor
  · rintro ⟨a, ha, hfinish⟩
    obtain ⟨hplaceable, rfl⟩ := (hall a).1 ha
    rw [hforest] at hfinish
    cases hfinish
    exact ⟨hplaceable, rfl⟩
  · rintro ⟨hplaceable, rfl⟩
    exact ⟨_, (hall _).2 ⟨hplaceable, rfl⟩, by rw [hforest]; rfl⟩

end Covered

/-! ### Reading -/

section Described

variable (h : reg.Described m)
include h

/-- What belongs to the root is found there. -/
theorem Described.exists_resolveNode (hr : r.model = m) (hk : r.kind ≠ .module)
    (hl : r.isLayer = false) (hp : r.dataParent? = none) {n : Node} (hn : n.key.id = r.id) :
    ∃ e, reg.resolveNode none n = .ok e ∧ e.node = r := by
  obtain ⟨e, he, rfl⟩ := h.sole.exists_mem_below h.augmentsFit hr hk hl
  rw [hp] at he
  have hchild := h.sole.childOf?_of_mem_below (by simp) h.nodup_root he
  refine ⟨e, ?_, rfl⟩
  rw [resolveNode, Tree.NodeKey.name, Tree.NodeKey.ns, hn]
  exact congrArg (Result.found _) hchild

/-- The data node of an object is read as what comes back of the object. -/
theorem Described.readItem_object (ht : reg.WellTyped (.object o)) (hw : reg.Placeable (.object o)) :
    (reg.itemNodes (.object o)).foldlM (reg.readItem none) items =
      .ok ((reg.restoredItem? (.object o)).toList.foldl reg.join items) := by
  obtain ⟨r, hclass, hk, ht⟩ := ht
  obtain ⟨r', hclass', hp, hw⟩ := hw
  rw [hclass] at hclass'
  cases hclass'
  have hr : r.model = m := (h.sole.nodeOfClass?_eq_some_iff.1 hclass).1
  have hh : HoldsObjects r := .of_standalone hk
  have hl : r.isLayer = false := by
    rcases hk with hk | hk | hk | hk <;> simp [Ref.isLayer_eq_false_iff, hk]
  obtain ⟨e, hresolve, he⟩ :=
    h.exists_resolveNode hr hh.kind_ne_module hl hp (key_id_objectNode reg o r)
  have hread : reg.readItem none items (reg.objectNode o r) =
      .ok (items ++ [.object (reg.restored o r)]) := by
    rw [readItem, hresolve]
    simp [bind, Except.bind, he, hh.isLeafLike_eq, h.readObject_objectNode hr hh ht hw.selects hl,
      pure, Except.pure]
  have hjoin : reg.join items (.object (reg.restored o r)) =
      items ++ [.object (reg.restored o r)] := by
    rw [join]
    rcases items.getLast? with _ | (_ | _) <;> rfl
  simp only [itemNodes, restoredItem?, hclass, Option.map_some, Option.toList_some,
    List.foldlM_cons, hread, List.foldl_cons, List.foldl_nil, hjoin]
  rfl

omit h in
/-- A value that is read joins the items before it. -/
theorem addLeafItem_eq_join (hs : reg.leafOf? leaf = some s) {v : LeafValue} :
    addLeafItem s leaf v items = reg.join items (.leaf leaf [v]) := by
  rw [addLeafItem, join]
  rcases items.getLast? with _ | (o | ⟨last, ws⟩)
  · rfl
  · rfl
  · by_cases hlast : last = leaf
    · subst hlast
      by_cases hk : s.kind = .leafList <;> simp [merged?, isLeafList, hs, hk]
    · simp [merged?, hlast]

omit h in
/-- Values of a leaf-list that are added one by one make up one item. -/
theorem join_join (hs : reg.isLeafList leaf = true) {vs ws : List LeafValue} :
    reg.join (reg.join items (.leaf leaf vs)) (.leaf leaf ws) =
      reg.join items (.leaf leaf (vs ++ ws)) := by
  rcases List.eq_nil_or_concat items with rfl | ⟨front, last, rfl⟩
  · simp [join, merged?, hs]
  · rw [List.concat_eq_append]
    cases last with
    | object o => simp [join, merged?, hs]
    | leaf last us =>
      by_cases hlast : last = leaf
      · subst hlast
        simp [join, merged?, hs]
      · simp [join, merged?, hs, hlast]

omit h in
theorem foldl_addLeafItem (hs : reg.leafOf? leaf = some s) (hk : s.kind.isLeafLike = true)
    (hcount : s.kind = .leaf → values.length = 1) (hne : values ≠ []) :
    values.foldl (fun items v => addLeafItem s leaf v items) items =
      reg.join items (.leaf leaf values) := by
  have hkind : s.kind = .leaf ∨ s.kind = .leafList := by simpa [Kind.isLeafLike] using hk
  rcases hkind with hleaf | hlist
  · obtain ⟨v, rfl⟩ := List.length_eq_one_iff.1 (hcount hleaf)
    exact addLeafItem_eq_join hs
  -- By induction on the values, which are added at the end.
  induction values using List.reverseRecOn with
  | nil => exact absurd rfl hne
  | append_singleton vs v ih =>
    rw [List.foldl_append]
    by_cases hvs : vs = []
    · subst hvs
      exact addLeafItem_eq_join hs
    · rw [ih (by simp [hlist]) hvs]
      change addLeafItem s leaf v _ = _
      rw [addLeafItem_eq_join hs, join_join (by simp [isLeafList, hs, hlist])]

/-- The data nodes of a leaf are read as what comes back of it. -/
theorem Described.readItem_leaf (hw : reg.Placeable (.leaf leaf values)) :
    (reg.itemNodes (.leaf leaf values)).foldlM (reg.readItem none) items =
      .ok ((reg.restoredItem? (.leaf leaf values)).toList.foldl reg.join items) := by
  obtain ⟨s, hs, hp, hcount⟩ := hw
  obtain ⟨hleaf, -⟩ := h.mem_offers_of_leafOf? hs
  obtain ⟨l, hl, hls⟩ := h.exists_ownerId hs
  have hkind : s.kind ≠ .module ∧ s.isLayer = false := by
    refine ⟨fun hk => ?_, Ref.isLayer_of_isLeafLike hleaf⟩
    simp [hk, Kind.isLeafLike] at hleaf
  have hid : leafId s = .ok l := by
    obtain ⟨owner, howner, rfl⟩ := Option.map_eq_some_iff.1 hl
    rw [leafId, howner]
    rfl
  have hread (items : List Item) (v : LeafValue) :
      reg.readItem none items (leafNode s v) = .ok (addLeafItem s l v items) := by
    obtain ⟨e, hresolve, he⟩ := h.exists_resolveNode (h.model_of_leafOf? hs) hkind.1 hkind.2 hp
      (key_id_leafNode s v)
    have hvalue : leafValue (leafNode s v) = .ok v := by
      rw [leafNode]
      split <;> rfl
    rw [readItem, hresolve]
    simp [bind, Except.bind, he, hleaf, hvalue, hid, pure, Except.pure]
  have hfold (vs : List LeafValue) (items : List Item) :
      (vs.map (leafNode s)).foldlM (reg.readItem none) items =
        .ok (vs.foldl (fun items v => addLeafItem s l v items) items) := by
    induction vs generalizing items with
    | nil => rfl
    | cons v vs ih =>
      rw [List.map_cons, List.foldlM_cons, hread]
      exact ih _
  have hnodes : reg.itemNodes (.leaf leaf values) = values.map (leafNode s) := by
    simp [itemNodes, hs]
  rw [hnodes, hfold]
  by_cases hne : values = []
  · simp [restoredItem?, hne]
  · rw [foldl_addLeafItem hls hleaf hcount hne]
    simp [restoredItem?, hne, hs, hl]

/-- Items come back one after the other. -/
theorem Described.foldlM_readItem (ht : ∀ item ∈ items, reg.WellTyped item)
    (hw : ∀ item ∈ items, reg.Placeable item) (before : List Item) :
    (items.flatMap reg.itemNodes).foldlM (reg.readItem none) before =
      .ok ((items.filterMap reg.restoredItem?).foldl reg.join before) := by
  induction items generalizing before with
  | nil => rfl
  | cons item items ih =>
    have hitem : (reg.itemNodes item).foldlM (reg.readItem none) before =
        .ok ((reg.restoredItem? item).toList.foldl reg.join before) := by
      cases item with
      | object o => exact h.readItem_object (ht _ List.mem_cons_self) (hw _ List.mem_cons_self)
      | leaf leaf values => exact h.readItem_leaf (hw _ List.mem_cons_self)
    rw [List.flatMap_cons, List.foldlM_append, hitem]
    change List.foldlM _ _ _ = _
    rw [ih (fun i hi => ht i (List.mem_cons_of_mem _ hi)) (fun i hi => hw i (List.mem_cons_of_mem _ hi)),
      List.filterMap_cons]
    cases reg.restoredItem? item <;> rfl

/-- What was written at the root is read as what comes back. -/
theorem Described.read_itemNodes (ht : ∀ item ∈ items, reg.WellTyped item)
    (hw : ∀ item ∈ items, reg.Placeable item) :
    reg.read { id := .root, nodes := items.flatMap reg.itemNodes } =
      .ok { items := reg.restoredItems items } := by
  have hroot : rootId { id := .root, nodes := items.flatMap reg.itemNodes } = .root := rfl
  have hbase : reg.resolve .root = .ok none := rfl
  have hid : reg.toObjectId .root = .ok .root := rfl
  rw [read, hroot, hbase, hid]
  simp only [bind, Except.bind, h.foldlM_readItem ht hw []]
  rfl

end Described

end Registry

end YangBinding
