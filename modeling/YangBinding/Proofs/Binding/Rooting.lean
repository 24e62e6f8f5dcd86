import YangBinding.Proofs.Binding.Address
import YangBinding.Proofs.Binding.Standing
import YangBinding.Proofs.Binding.Storing

/-!
# Rooting

Data nodes are written below an address, and a reader takes the address for the place above the first
node unless it ends with the identifier of that node. Data that was written below a node is therefore
read below that node again, as long as its first node has another identifier than the node that it
stands below. Below anydata any object is written, but only registered payloads are found again.

## Main definitions

* `Registry.Distinct` — identifiers tell apart what shows up in data at one place
* `Registry.Separate` — objects can be told apart from what else may stand below a base

## Main results

* `Registry.Sole.eq_of_resolve_followSteps` — an address is resolved to the node that it was made for
* `Registry.Sole.className_of_readItem` — a data node is read as an object of the class of its node
* `Registry.Sole.read_write` — what was written below an address is read below it
-/

namespace YangBinding

open Schema (DataChild Kind Model Ref)
open YangBinding.Tree (Assembly Node NodeKey ResourceData ResourceId)

/-! ### The way up -/

namespace Schema.Ref

variable {r p : Ref}

theorem canHoldChildren_of_parent? (h : r.model.Linked) (hp : r.parent? = some p) :
    p.kind.canHoldChildren = true := by
  have hadm := admits_of_parent? h hp
  cases hk : p.kind <;> cases hrk : r.kind <;>
    simp [Model.Admits, Kind.admits, Kind.canHoldChildren, hk, hrk] at hadm ⊢

/-- On the way up the nearest node that shows up in data comes first, then what is above it. -/
theorem dataAncestry_of_head? (h : r.model.Linked) (hp : r.dataAncestry.head? = some p) :
    r.dataAncestry = p :: p.dataAncestors ∧ (p = r ∨ p.kind.canHoldChildren = true) := by
  induction hi : r.index.val using Nat.strongRecOn generalizing r with
  | ind n ih =>
    have hk : r.kind ≠ .module := by
      intro hk
      simp [dataAncestry_of_module hk] at hp
    by_cases hl : r.isLayer = true
    · obtain ⟨q, hq⟩ := exists_up? h hk
      have heq := dataAncestry_of_isLayer hq hl
      rw [heq] at hp
      obtain ⟨hanc, hchildren⟩ := ih _ (hi ▸ index_lt_of_up? hq) (model_of_up? hq ▸ h) hp rfl
      refine ⟨heq.trans hanc, .inr ?_⟩
      rcases hchildren with rfl | hchildren
      · unfold up? at hq
        split at hq
        · cases hq
        · have := isAugmentable_of_target? h hq
          simp only [Kind.isAugmentable, Bool.and_eq_true] at this
          exact this.1
        · exact canHoldChildren_of_parent? h hq
      · exact hchildren
    · have heq := dataAncestry_of_data h hk (by simpa using hl)
      rw [heq] at hp
      cases hp
      exact ⟨heq, .inl rfl⟩

/-- Above a node its data parent comes first, then what is above that. -/
theorem dataAncestors_of_dataParent? (h : r.model.Linked) (hp : r.dataParent? = some p) :
    r.dataAncestors = p :: p.dataAncestors ∧ p.kind.canHoldChildren = true := by
  cases hq : r.parent? with
  | none => simp [dataParent?, dataAncestors, hq] at hp
  | some q =>
    rw [dataParent?, dataAncestors_of_parent? hq] at hp
    rw [dataAncestors_of_parent? hq]
    obtain ⟨hanc, rfl | hchildren⟩ := dataAncestry_of_head? (model_of_parent? hq ▸ h) hp
    · exact ⟨hanc, canHoldChildren_of_parent? h hq⟩
    · exact ⟨hanc, hchildren⟩

theorem index_le_of_mem_ancestry (hp : p ∈ r.ancestry) : p.index.val ≤ r.index.val := by
  induction hi : r.index.val using Nat.strongRecOn generalizing r with
  | ind n ih =>
    by_cases hk : r.kind = .module
    · simp [ancestry, hk] at hp
    cases hq : r.up? with
    | none =>
      rw [ancestry, if_neg hk] at hp
      split at hp
      · obtain rfl := List.mem_singleton.1 hp
        exact hi.le
      · simp_all
    | some q =>
      rw [ancestry_of_up? hk hq] at hp
      rcases List.mem_cons.1 hp with rfl | hp
      · exact hi.le
      · have hlt := index_lt_of_up? hq
        exact (ih _ (hi ▸ hlt) hp rfl).trans (hi ▸ hlt.le)

theorem index_lt_of_dataParent? (hp : r.dataParent? = some p) : p.index.val < r.index.val := by
  have hp := List.mem_of_head? hp
  unfold dataAncestors at hp
  split at hp
  · next q hq =>
    exact Nat.lt_of_le_of_lt (index_le_of_mem_ancestry (List.mem_filter.1 hp).1)
      (index_lt_of_earlier? hq)
  · cases hp

end Schema.Ref

namespace Registry

variable {reg : Registry} {m : Model} {r s b p : Ref} {e : DataChild} {base parent : Option Ref}
  {key : NodeKey} {o o' : Object}

/-! ### Look-ups by identifiers -/

/-- Data children of one node, and nodes at the top, have different identifiers. -/
def Distinct (m : Model) : Prop :=
  ∀ r s : Ref, r.model = m → s.model = m → isAddressable r.kind = true →
    isAddressable s.kind = true → r.dataParent? = s.dataParent? → r.id = s.id → r = s

/-- What is below a node, unless that is anydata, has the node for its data parent. -/
theorem Sole.dataParent?_of_mem_below (h : reg.Sole m)
    (hparent : ∀ b, parent = some b →
      b.model = m ∧ isAddressable b.kind = true ∧ b.kind ≠ .anydata)
    (he : e ∈ reg.below parent) :
    e.node.dataParent? = parent ∧ isAddressable e.node.kind = true := by
  cases parent with
  | none =>
    obtain ⟨module, hmodule, he⟩ := h.mem_below_root_iff.1 he
    have hl : module.model.Linked := Ref.model_of_mem_moduleRefs hmodule ▸ h.linked
    have hk : module.kind = .module := ((Ref.mem_moduleRefs_iff h.linked).1 hmodule).2
    exact ⟨Ref.dataParent?_of_mem_module hl hk he, isAddressable_of_mem_offers hl he⟩
  | some b =>
    obtain ⟨hm, ha, hany⟩ := hparent b rfl
    obtain ⟨hlayer, hk⟩ := isAddressable_iff.1 ha
    have hl : b.model.Linked := hm ▸ h.linked
    rw [below, if_neg hany] at he
    exact ⟨Ref.dataParent?_of_mem_offers hl hk hlayer he, isAddressable_of_mem_offers hl he⟩

/-- A data parent is a node of the model that shows up in data and is no anydata node. -/
theorem Sole.of_dataParent? (h : reg.Sole m) (hr : r.model = m) (hp : r.dataParent? = some p) :
    p.model = m ∧ isAddressable p.kind = true ∧ p.kind ≠ .anydata := by
  obtain ⟨hm, hk, hl⟩ := Ref.of_mem_dataAncestors (List.mem_of_head? hp)
  have hchildren := (Ref.dataAncestors_of_dataParent? (hr ▸ h.linked) hp).2
  refine ⟨hm.trans hr, isAddressable_iff.2 ⟨hl, hk⟩, ?_⟩
  intro hany
  simp [Kind.canHoldChildren, hany] at hchildren

/-- The identifier of a node leads from its data parent to the node, if it leads anywhere. -/
theorem Sole.eq_of_childOf? (h : reg.Sole m) (hd : Distinct m) (hr : r.model = m)
    (ha : isAddressable r.kind = true) (he : reg.childOf? r.dataParent? r.name r.ns = some e) :
    e.node = r := by
  have hparent : ∀ b, r.dataParent? = some b →
      b.model = m ∧ isAddressable b.kind = true ∧ b.kind ≠ .anydata := fun b => h.of_dataParent? hr
  obtain ⟨hbelow, hfits⟩ := h.mem_below_of_childOf? he
  obtain ⟨hsame, hea⟩ := h.dataParent?_of_mem_below hparent hbelow
  obtain ⟨n, hn⟩ := h.exists_ns hr
  exact hd e.node r (h.model_of_mem_below (fun b hb => (hparent b hb).1) hbelow) hr hea ha hsame
    (Schema.Id.eq_of_fits hn hfits)

/-! ### Resolving what was made for a node -/

/-- What several keys are resolved to, and one more key. -/
theorem resolve_concat {id : ResourceId} {keys : List NodeKey}
    (hk : (keys ++ [key]).foldlM (fun parent key => some <$> reg.resolveKey id parent key) parent =
      .ok base) :
    ∃ mid s, keys.foldlM (fun parent key => some <$> reg.resolveKey id parent key) parent = .ok mid ∧
      reg.resolveKey id mid key = .ok s ∧ base = some s := by
  rw [List.foldlM_append] at hk
  obtain ⟨mid, hmid, hk⟩ := Except.bind_eq_ok_iff.1 hk
  rw [List.foldlM_cons] at hk
  obtain ⟨_, hlast, hk⟩ := Except.bind_eq_ok_iff.1 hk
  obtain ⟨s, hs, rfl⟩ := Except.map_eq_ok_iff.1 hlast
  cases hk
  exact ⟨mid, s, hmid, hs, rfl⟩

/-- The identifiers of the nodes above a node are resolved to its data parent. -/
theorem Sole.eq_of_resolve_ancestors (h : reg.Sole m) (hd : Distinct m) (hr : r.model = m)
    {id : ResourceId}
    (hk : (r.dataAncestors.reverse.map fun a => ({ id := a.id } : NodeKey)).foldlM
      (fun parent key => some <$> reg.resolveKey id parent key) none = .ok base) :
    base = r.dataParent? := by
  induction hi : r.index.val using Nat.strongRecOn generalizing r base with
  | ind n ih =>
    cases hp : r.dataParent? with
    | none =>
      rw [List.head?_eq_none_iff.1 hp] at hk
      cases hk
      rfl
    | some p =>
      obtain ⟨hpm, hpa, -⟩ := h.of_dataParent? hr hp
      have hlt : p.index.val < r.index.val := Ref.index_lt_of_dataParent? hp
      rw [(Ref.dataAncestors_of_dataParent? (hr ▸ h.linked) hp).1, List.reverse_cons, List.map_append,
        List.map_singleton] at hk
      obtain ⟨mid, s, hmid, hs, rfl⟩ := resolve_concat hk
      obtain rfl := ih _ (hi ▸ hlt) hpm hmid rfl
      obtain ⟨e, he, -, rfl⟩ := resolveKey_eq_ok_iff.1 hs
      rw [h.eq_of_childOf? hd hpm hpa he]

/-- A step to an object looks its node up by the full identifier. -/
theorem Sole.childOf?_of_locateBelow (h : reg.Sole m) {step : Step} (hl : step.isLeaf = false)
    (hs : reg.locateBelow p step = .ok r) :
    ∃ e, reg.childOf? (some p) r.name r.ns = some e ∧ e.node = r := by
  obtain ⟨name, ns, child, hname, hchild, rfl, -⟩ := locateBelow_eq_ok_iff.1 hs
  obtain ⟨c, n, hn, rfl, rfl⟩ : ∃ c n, reg.nodeOfClass c = .ok n ∧ name = n.name ∧ ns = n.ns := by
    cases step with
    | child c =>
      obtain ⟨n, hn, hname⟩ := Except.bind_eq_ok_iff.1 hname
      cases hname
      exact ⟨c, n, hn, rfl, rfl⟩
    | entry c k =>
      obtain ⟨n, hn, hname⟩ := Except.bind_eq_ok_iff.1 hname
      cases hname
      exact ⟨c, n, hn, rfl, rfl⟩
    | leaf l => cases hl
    | leafEntry l v => cases hl
  obtain ⟨n', hns⟩ := h.exists_ns (h.nodeOfClass?_eq_some_iff.1 (nodeOfClass_eq_ok_iff.1 hn)).1
  have hid : child.node.id = n.id :=
    Schema.Id.eq_of_fits hns (h.mem_below_of_childOf? hchild).2
  refine ⟨child, ?_, rfl⟩
  rw [Ref.name, Ref.ns, hid]
  exact hchild

/-- The keys that steps add are resolved to the node that the steps lead to, if they are resolved at
all and the node is no leaf. -/
theorem Sole.eq_of_resolve_followSteps (h : reg.Sole m) (hd : Distinct m) {id : ObjectId}
    {rid : ResourceId} {steps : List Step} {rid₀ rid₁ : ResourceId} {current last : Option Ref}
    (hlast : ∀ b, last = some b → b.kind.isLeafLike = false)
    (hs : reg.followSteps id steps rid₀ current = .ok (rid₁, last)) :
    ∃ keys, rid₁.segments = rid₀.segments ++ keys ∧
      ∀ base, keys.foldlM (fun parent key => some <$> reg.resolveKey rid parent key) current =
        .ok base → base = last := by
  induction steps generalizing rid₀ current with
  | nil =>
    cases hs
    exact ⟨[], by simp, by rintro _ ⟨⟩; rfl⟩
  | cons step steps ih =>
    obtain ⟨hend, node, above, key, hnode, hkey, hs⟩ := followSteps_cons_iff.1 hs
    obtain ⟨hid, hleaf⟩ := stepKey_eq_ok hkey
    -- The last node is no leaf, so that no step on the way is one.
    have hclass : step.isLeaf = false := by
      by_contra hl
      have hl : step.isLeaf = true := by simpa using hl
      obtain rfl := hend hl
      cases hs
      rw [hlast node rfl] at hleaf
      cases hleaf hl
    -- The keys of this step are resolved to the node of this step.
    have hhere : ∀ mid, (above ++ [key]).foldlM
        (fun parent key => some <$> reg.resolveKey rid parent key) current = .ok mid →
          mid = some node := by
      intro mid hmid
      obtain ⟨before, s, hbefore, hres, rfl⟩ := resolve_concat hmid
      obtain ⟨e, he, -, rfl⟩ := resolveKey_eq_ok_iff.1 hres
      rw [NodeKey.name, NodeKey.ns, hid] at he
      obtain ⟨rfl, hfirst, hkeys⟩ | ⟨⟨p, rfl, hbelow⟩, rfl⟩ := hnode
      · obtain ⟨hm, ha⟩ := h.reachable.isAddressable_of_locateFirst hfirst
        have hm : node.model = m := by simpa [h.models] using hm
        rw [(mapM_ancestorKey hkeys).2] at hbefore
        obtain rfl := h.eq_of_resolve_ancestors hd hm hbefore
        rw [h.eq_of_childOf? hd hm ha he]
      · cases hbefore
        obtain ⟨f, hf, hfn⟩ := h.childOf?_of_locateBelow hclass hbelow
        rw [Ref.name, Ref.ns] at hf
        rw [Option.some.inj (he.symm.trans hf), hfn]
    obtain ⟨keys, hrid, hkeys⟩ := ih hs
    refine ⟨above ++ [key] ++ keys, by rw [hrid]; simp, fun base hbase => ?_⟩
    rw [List.foldlM_append] at hbase
    obtain ⟨mid, hmid, hbase⟩ := Except.bind_eq_ok_iff.1 hbase
    obtain rfl := hhere mid hmid
    exact hkeys base hbase

/-- The last key is that of the node that the steps lead to. -/
theorem lastKey?_of_followSteps {id : ObjectId} {steps : List Step} {rid rid' : ResourceId}
    {current : Option Ref}
    (hrid : rid.lastKey?.map NodeKey.id = current.map Ref.id)
    (hs : reg.followSteps id steps rid current = .ok (rid', base)) :
    rid'.lastKey?.map NodeKey.id = base.map Ref.id := by
  induction steps generalizing rid current with
  | nil =>
    cases hs
    exact hrid
  | cons step steps ih =>
    obtain ⟨-, node, above, key, -, hkey, hs⟩ := followSteps_cons_iff.1 hs
    refine ih ?_ hs
    simp [ResourceId.lastKey?, (stepKey_eq_ok hkey).1]

/-- Steps lead to nodes of the model. -/
theorem Sole.model_of_followSteps (h : reg.Sole m) {id : ObjectId} {steps : List Step}
    {rid rid' : ResourceId} {current : Option Ref} (hcurrent : ∀ b, current = some b → b.model = m)
    (hs : reg.followSteps id steps rid current = .ok (rid', base)) :
    ∀ b, base = some b → b.model = m := by
  have hcurrent' : ∀ b, current = some b → b.model ∈ reg.models := by
    simpa [h.models] using hcurrent
  simpa [h.models] using h.reachable.model_mem_of_followSteps hcurrent' hs

/-! ### Reading what was written below an address -/

/-- Two items are objects of the same class. -/
def SameClass (x y : Item) : Prop :=
  ∃ o o', x = .object o ∧ y = .object o' ∧ o'.className = o.className

/-- A data node that leads to a node other than a leaf is read as an object of the class that the
node is bound to. -/
theorem Reachable.object_of_readItem (h : reg.Reachable) {n : Node} {items items' : List Item}
    (he : reg.childOf? base n.key.name n.key.ns = some e) (hk : e.node.kind.isLeafLike = false)
    (hr : reg.readItem base items n = .ok items') :
    ∃ o, items' = items ++ [.object o] ∧ e.node.className = some o.className := by
  obtain ⟨f, hf, hr⟩ := Except.bind_eq_ok_iff.1 hr
  obtain rfl := Option.some.inj (he.symm.trans (found_eq_ok_iff.1 hf))
  simp only [hk, Bool.false_eq_true, if_false] at hr
  obtain ⟨o, ho, hr⟩ := Except.bind_eq_ok_iff.1 hr
  cases hr
  exact ⟨o, rfl, h.className_of_classOf? (type_of_readObject ho)⟩

/-- A data node that leads to the node of a class is read as an object of that class. -/
theorem Sole.className_of_readItem (h : reg.Sole m) {c : String} {n : Node} {items items' : List Item}
    (hn : ∀ e, reg.childOf? base n.key.name n.key.ns = some e → e.node = r)
    (hk : r.kind.isLeafLike = false) (hc : r.className = some c)
    (hr : reg.readItem base items n = .ok items') :
    ∃ o, items' = items ++ [.object o] ∧ o.className = c := by
  obtain ⟨e, he, -⟩ := Except.bind_eq_ok_iff.1 hr
  have he := found_eq_ok_iff.1 he
  obtain rfl := hn e he
  obtain ⟨o, rfl, ho⟩ := h.reachable.object_of_readItem he hk hr
  exact ⟨o, rfl, Option.some.inj (ho.symm.trans hc)⟩

/-- Data nodes are read item by item, each as what is known of it. -/
theorem forall₂_of_foldlM_readItem {P : Item → Item → Prop} {items before after : List Item}
    {nodes : List Node}
    (hall : List.Forall₂ (fun item n => ∀ items items', reg.readItem base items n = .ok items' →
      ∃ y, items' = items ++ [y] ∧ P item y) items nodes)
    (hr : nodes.foldlM (reg.readItem base) before = .ok after) :
    ∃ later, after = before ++ later ∧ List.Forall₂ P items later := by
  induction hall generalizing before with
  | nil =>
    cases hr
    exact ⟨[], (List.append_nil _).symm, .nil⟩
  | cons hitem _ ih =>
    obtain ⟨mid, hmid, hr⟩ := Except.bind_eq_ok_iff.1 hr
    obtain ⟨y, rfl, hy⟩ := hitem _ _ hmid
    obtain ⟨later, rfl, hlater⟩ := ih hr
    exact ⟨y :: later, by simp, .cons hy hlater⟩

/-- An item is an object of a class whose node may stand on its own. -/
def Inner (reg : Registry) (item : Item) : Prop :=
  ∃ o r, item = .object o ∧ reg.nodeOfClass? o.className = some r ∧
    (r.kind = .container ∨ r.kind = .list ∨ r.kind = .anydata ∨ r.kind = .notification)

/-- Below a base the objects can be told apart from what else may stand there: the first of them is
not of the identifier of the base itself, and below anydata all are of registered payloads that have
different identifiers. -/
structure Separate (reg : Registry) (base : Option Ref) (items : List Item) : Prop where
  first : ∀ b, base = some b → ∀ o, items.head? = some (.object o) →
    ∀ r, reg.nodeOfClass? o.className = some r → r.id ≠ b.id
  payloads : ∀ b, base = some b → b.kind = .anydata → ((reg.payloads b).map Ref.id).Nodup ∧
    ∀ o, .object o ∈ items → ∀ r, reg.nodeOfClass? o.className = some r → r ∈ reg.payloads b

/-- What an object puts below a base leads back to the node of its class. -/
theorem Sole.eq_of_childOf?_key (h : reg.Sole m) (hd : Distinct m) {o : Object} {n : Node}
    {items : List Item} (hs : reg.Separate base items) (ho : .object o ∈ items)
    (hr : reg.nodeOfClass? o.className = some r)
    (hplace : r.dataParent? = base ∨ ∃ b, base = some b ∧ b.kind = .anydata)
    (ha : isAddressable r.kind = true) (hn : n.key.id = r.id)
    (he : reg.childOf? base n.key.name n.key.ns = some e) : e.node = r := by
  have hm := (h.nodeOfClass?_eq_some_iff.1 hr).1
  rw [NodeKey.name, NodeKey.ns, hn] at he
  by_cases hany : ∃ b, base = some b ∧ b.kind = .anydata
  · obtain ⟨b, rfl, hany⟩ := hany
    obtain ⟨hnodup, hregistered⟩ := hs.payloads b rfl hany
    obtain ⟨hbelow, hfits⟩ := h.mem_below_of_childOf? he
    rw [below, if_pos hany] at hbelow
    obtain ⟨p, hp, rfl⟩ := List.mem_map.1 hbelow
    obtain ⟨_, hns⟩ := h.exists_ns hm
    exact List.eq_of_nodup_map hnodup hp (hregistered o ho r hr) (Schema.Id.eq_of_fits hns hfits)
  · obtain rfl := hplace.resolve_right hany
    exact h.eq_of_childOf? hd hm ha he

/-- An inner object puts one data node below the base, which is no leaf, under the identifier of the
node of its class. -/
theorem Reachable.addsOne_item (h : reg.Reachable) {item : Item} (hinner : reg.Inner item)
    (hbase : ∀ b, base = some b → b.model ∈ reg.models) :
    AddsOne base (fun n => ∃ o r, item = .object o ∧ reg.nodeOfClass? o.className = some r ∧
      n.key.id = r.id ∧ n.value? = none ∧
        (r.dataParent? = base ∨ ∃ b, base = some b ∧ b.kind = .anydata))
      fun a => reg.writeItem base a item := by
  obtain ⟨o, r, rfl, hr, hk⟩ := hinner
  have hl : r.isLayer = false ∧ r.kind.isLeafLike = false := by
    rcases hk with hk | hk | hk | hk <;>
      simp [Ref.isLayer_eq_false_iff, hk, Kind.isLeafLike]
  intro a a' ha hw
  obtain ⟨r', hr', -, hplace, -⟩ := writeTop_eq_ok_iff.1 hw
  obtain rfl := Option.some.inj (hr.symm.trans hr')
  obtain ⟨n, rfl, r', hr', hn⟩ := h.addsOne_top
    (fun r' hr' => Option.some.inj (hr.symm.trans hr') ▸ hl.1) hbase a a' ha hw
  obtain rfl := Option.some.inj (hr.symm.trans hr')
  have hvalue : n.value? = none := by
    obtain ⟨frame, rfl, made, -⟩ := hn
    rw [((frame_node_eq_ok_iff hl.2).1 made).2, innerNode]
    split <;> rfl
  exact ⟨n, rfl, o, r, rfl, hr, hn.key_id_eq, hvalue, hplace.imp_left
    (h.eq_of_samePlace (h.model_mem_of_nodeOfClass? hr) hbase)⟩

/-- A data node carries the identifier of the node of an object, which belongs below the base. -/
def Deposits (reg : Registry) (base : Option Ref) (item : Item) (n : Node) : Prop :=
  ∃ o r, item = .object o ∧ reg.nodeOfClass? o.className = some r ∧ n.key.id = r.id ∧
    (r.dataParent? = base ∨ ∃ b, base = some b ∧ b.kind = .anydata)

theorem Sole.addsOne_item (h : reg.Sole m) {item : Item} (hinner : reg.Inner item)
    (hbase : ∀ b, base = some b → b.model = m) :
    AddsOne base (reg.Deposits base item) fun a => reg.writeItem base a item := by
  refine (h.reachable.addsOne_item hinner (by simpa [h.models] using hbase)).imp ?_
  rintro n ⟨o, r, ho, hr, hn, -, hplace⟩
  exact ⟨o, r, ho, hr, hn, hplace⟩

/-- Objects are written as one data node each, below a base that is no leaf. -/
theorem Sole.deposits_of_write (h : reg.Sole m) {d : ObjectData} {rid : ResourceId} {t : ResourceData}
    (hrid : reg.toResourceId d.id = .ok (rid, base)) (hinner : ∀ item ∈ d.items, reg.Inner item)
    (hw : reg.write d = .ok t) :
    t.id = rid ∧ (t.nodes ≠ [] → ∀ b, base = some b → b.kind.isLeafLike = false) ∧
      List.Forall₂ (reg.Deposits base) d.items t.nodes := by
  obtain ⟨base', hrid', hw⟩ := write_eq_ok_iff.1 hw
  obtain ⟨rfl, rfl⟩ : t.id = rid ∧ base' = base := by
    rw [hrid'] at hrid
    cases hrid
    exact ⟨rfl, rfl⟩
  have hbm := h.model_of_followSteps (by simp) hrid
  rcases hw with ⟨-, hitems, hnodes⟩ | ⟨hleaf, a, ha, hfinish⟩
  · rw [hitems, hnodes]
    exact ⟨rfl, fun hne => absurd rfl hne, .nil⟩
  · have hstart : ({ base := base' } : Assembly).current = base' := rfl
    obtain ⟨nodes, rfl, hall⟩ := AddsOne.foldlM
      (fun item hitem => h.addsOne_item (hinner item hitem) hbm) hstart ha
    rw [Assembly.placeAll_forest rfl] at hfinish
    cases hfinish
    exact ⟨rfl, fun _ => hleaf, hall⟩

/-- Data below a base is read from its own address if the first object is told apart from the base. -/
theorem rootId_of_deposits {id : ObjectId} {t : ResourceData} {items : List Item}
    (hrid : reg.toResourceId id = .ok (t.id, base)) (hseparate : reg.Separate base items)
    (hall : List.Forall₂ (reg.Deposits base) items t.nodes) : rootId t = t.id := by
  have hlast := lastKey?_of_followSteps rfl hrid
  unfold rootId
  split
  · next last first hkey hfirst =>
    refine if_neg fun hsame => ?_
    rw [hkey, Option.map_some] at hlast
    obtain ⟨b, rfl, hb⟩ := Option.map_eq_some_iff.1 hlast.symm
    obtain ⟨nodes, hnodes⟩ := List.head?_eq_some_iff.1 hfirst
    rw [hnodes] at hall
    obtain ⟨item, items, ⟨o, r, rfl, hor, hn, -⟩, -, rfl⟩ := List.forall₂_cons_right_iff.1 hall
    exact hseparate.first b rfl o rfl r hor (hn.symm.trans (hsame.symm.trans hb.symm))
  · rfl

/-- The data node of an object is read as an object of the same class. -/
theorem Sole.sameClass_of_deposits (h : reg.Sole m) (hd : Distinct m) {items : List Item}
    {item : Item} {n : Node} (hseparate : reg.Separate base items) (hitem : item ∈ items)
    (hinner : reg.Inner item) (hn : reg.Deposits base item n) {before after : List Item}
    (hread : reg.readItem base before n = .ok after) :
    ∃ y, after = before ++ [y] ∧ SameClass item y := by
  obtain ⟨o, r, rfl, hor, hid, hplace⟩ := hn
  obtain ⟨_, r', ho, hor', hk⟩ := hinner
  cases ho
  obtain rfl := Option.some.inj (hor.symm.trans hor')
  have ha : isAddressable r.kind = true ∧ r.kind.isLeafLike = false := by
    rcases hk with hk | hk | hk | hk <;>
      simp [isAddressable, Kind.isTransparent, Kind.isLeafLike, hk]
  obtain ⟨o', hafter, hclass⟩ := h.className_of_readItem
    (fun e he => h.eq_of_childOf?_key hd hseparate hitem hor hplace ha.1 hid he) ha.2
    (h.nodeOfClass?_eq_some_iff.1 hor).2 hread
  exact ⟨_, hafter, o, o', rfl, rfl, hclass⟩

/-- What was written below an address is read below it, object by object of the same class, if the
address is the one that its resource id is read as and the objects can be told apart from what else
stands there. -/
theorem Sole.read_write (h : reg.Sole m) (hd : Distinct m) {d d' : ObjectData} {rid : ResourceId}
    {id : ObjectId} {t : ResourceData} (hrid : reg.toResourceId d.id = .ok (rid, base))
    (hid : reg.toObjectId rid = .ok id) (hcanonical : (id == d.id) = true)
    (hinner : ∀ item ∈ d.items, reg.Inner item) (hseparate : reg.Separate base d.items)
    (hw : reg.write d = .ok t) (hr : reg.read t = .ok d') :
    (d'.id == d.id) = true ∧ List.Forall₂ SameClass d.items d'.items := by
  obtain ⟨rfl, hleaf, hall⟩ := h.deposits_of_write hrid hinner hw
  rw [read, rootId_of_deposits hrid hseparate hall] at hr
  obtain ⟨start, hstart, hr⟩ := Except.bind_eq_ok_iff.1 hr
  rw [hid] at hr
  obtain ⟨_, ⟨⟩, hr⟩ := Except.bind_eq_ok_iff.1 hr
  obtain ⟨items, hitems, hr⟩ := Except.bind_eq_ok_iff.1 hr
  cases hr
  refine ⟨hcanonical, ?_⟩
  have hread : List.Forall₂ (fun item n => ∀ before after,
      reg.readItem start before n = .ok after → ∃ y, after = before ++ [y] ∧ SameClass item y)
      d.items t.nodes := by
    by_cases hne : t.nodes = []
    · rw [hne, List.forall₂_nil_right_iff] at hall
      rw [hne, hall]
      exact .nil
    -- Reading starts from the same base, and every data node leads back to its schema node.
    obtain rfl : start = base := by
      obtain ⟨keys, hkeys, hresolve⟩ := h.eq_of_resolve_followSteps hd (hleaf hne) hrid
      refine hresolve start ?_
      rw [resolve, hkeys] at hstart
      exact hstart
    have hboth := (List.forall₂_and_left _ _).2 ⟨fun item hitem => hitem, hall⟩
    refine hboth.imp ?_
    rintro item n ⟨hitem, hn⟩ before after hread
    exact h.sameClass_of_deposits hd hseparate hitem (hinner item hitem) hn hread
  obtain ⟨later, rfl, hlater⟩ := forall₂_of_foldlM_readItem hread hitems
  exact hlater

/-! ### Bare containers -/

/-- The data node of a container in which nothing is set. -/
def bareNode (r : Ref) : Node := .inner { id := r.id } .singleNode []

/-- A container without children is written as an empty data node. -/
theorem write_bare {id : ObjectId} {rid : ResourceId} {type : Class}
    (hid : reg.toResourceId id = .ok (rid, base)) (hbase : ∀ b, base = some b → b.kind.isLeafLike = false)
    (hr : reg.nodeOfClass? type.className = some r) (hk : r.kind = .container) (hc : r.children = [])
    (ha : r.augments = [])
    (hplace : samePlace r.dataParent? base = true ∨ ∃ b, base = some b ∧ b.kind = .anydata) :
    reg.write { id, items := [.object type.new] } = .ok { id := rid, nodes := [bareNode r] } := by
  have hobject : reg.writeObject type.new r { base } = .ok { base, forest := [bareNode r] } := by
    refine writeObject_of_content (b := { base, stack := [{ schema := r }] })
      (c := { base, stack := [{ schema := r }] }) (by simp [hk]) ?_ ?_ ?_
    · have hvalue : Assembly.nodeValue r none = .ok none := by simp [Assembly.nodeValue, hk]
      rw [Assembly.enter_eq (by exact hbase), hvalue]
      rfl
    · rw [writeContent_eq, Ref.declared, hc, ha]
      rfl
    · have hnode : Tree.Frame.node { schema := r } = .ok (bareNode r) :=
        (frame_node_eq_ok_iff (by simp [hk, Kind.isLeafLike])).2
          ⟨by simp [hk], by simp [innerNode, bareNode, hk]⟩
      exact Except.bind_eq_ok_iff.2 ⟨_, hnode, rfl⟩
  have htop := writeTop_eq_ok_iff.2 ⟨r, hr, by simp [hk], hplace, hobject⟩
  exact write_eq_ok_iff.2 ⟨base, hid, .inr ⟨hbase, _, Except.bind_eq_ok_iff.2 ⟨_, htop, rfl⟩, rfl⟩⟩

/-- An empty data node is read as an object in which nothing is set. -/
theorem read_bare {id : ObjectId} {n : Node} {t : ResourceData} {type : Class}
    (ht : t.nodes = [n]) (hn : n = .inner n.key .singleNode []) (hbase : reg.resolve (rootId t) = .ok base)
    (hid : reg.toObjectId (rootId t) = .ok id)
    (hr : reg.childOf? base n.key.name n.key.ns = some { node := r }) (hk : r.kind = .container)
    (hc : reg.classOf? r = some type) : reg.read t = .ok { id, items := [.object type.new] } := by
  have hread : reg.readObject n r = .ok type.new := by
    rw [hn, readObject, instantiate_eq hc]
    simp only [hk, readChildren, bind, Except.bind]
    rw [fill_eq]
    rfl
  have hitem : reg.readItem base [] n = .ok [.object type.new] := by
    rw [readItem, resolveNode, hr]
    simp [Result.found, bind, Except.bind, hk, Kind.isLeafLike, hread, pure, Except.pure]
  rw [read, hbase, hid, ht]
  exact Except.bind_eq_ok_iff.2 ⟨_, rfl, Except.bind_eq_ok_iff.2 ⟨_, rfl,
    Except.bind_eq_ok_iff.2 ⟨_, Except.bind_eq_ok_iff.2 ⟨_, hitem, rfl⟩, rfl⟩⟩⟩

/-! ### A crate

A box that holds a box and a lid, next to a sack for covers. The box inside goes by the identifier of
the box around it, so that what was written below the outer box is taken for the outer box itself. In
the sack a lid is taken for a cover, which goes by the identifier of lids. The lid of the box is not
affected. -/

namespace Crate

def model : Model where
  id := "crate"
  nodes := #[
    { id := ⟨"crate", some "urn:crate"⟩, kind := .module, children := [1, 4, 5] },
    { id := ⟨"box", some "urn:crate"⟩, kind := .container, parent := some 0, children := [2, 3],
      className := some "Box" },
    { id := ⟨"box", some "urn:crate"⟩, kind := .container, parent := some 1,
      className := some "InnerBox" },
    { id := ⟨"lid", some "urn:crate"⟩, kind := .container, parent := some 1,
      className := some "Lid" },
    { id := ⟨"sack", some "urn:crate"⟩, kind := .anydata, parent := some 0,
      className := some "Sack" },
    { id := ⟨"lid", some "urn:crate"⟩, kind := .container, parent := some 0,
      className := some "Cover" }]
  modules := [0]

theorem built : model.Built :=
  ⟨"crate", [.addModule "crate" "urn:crate" none, .addChild 0 .container "box", .setClass 1 "Box",
    .addChild 1 .container "box", .setClass 2 "InnerBox", .addChild 1 .container "lid",
    .setClass 3 "Lid", .addChild 0 .anydata "sack", .setClass 4 "Sack", .addChild 0 .container "lid",
    .setClass 5 "Cover"], by rfl⟩

def boxClass : Class where
  className := "Box"
  typeName := "Box"
  fields := [⟨"box", "Box", .container "InnerBox"⟩, ⟨"lid", "Box", .container "Lid"⟩]

/-- A class without fields. -/
def bareClass (name : String) : Class where
  className := name
  typeName := name
  fields := []

def registry : Registry :=
  run {} [.register model [boxClass, bareClass "InnerBox", bareClass "Lid", bareClass "Sack",
    bareClass "Cover"], .registerAnydata "Sack" "Cover"]

theorem sole : registry.Sole model where
  reachable := ⟨true, _, fun command h => by
    simp only [List.mem_cons, List.not_mem_nil, or_false] at h
    rcases h with rfl | rfl
    · exact built
    · trivial, rfl⟩
  models := rfl
  nodup_names := by decide
  nodup_namespaces := by decide

theorem distinct : Distinct model := by
  have hindex : ∀ r ∈ model.refs, ∀ s ∈ model.refs, isAddressable r.kind = true →
      isAddressable s.kind = true →
      (r.dataParent?.map fun p => p.index.val) = (s.dataParent?.map fun p => p.index.val) →
      r.id = s.id → r.index.val = s.index.val := by decide +kernel
  intro r s hr hs hra hsa hparent hid
  exact Ref.ext_iff'.2 ⟨hr.trans hs.symm, hindex r (Ref.mem_refs_iff.2 hr) s (Ref.mem_refs_iff.2 hs)
    hra hsa (by rw [hparent]) hid⟩

def boxRef : Ref := ⟨model, 1, by decide⟩

def innerBoxRef : Ref := ⟨model, 2, by decide⟩

def lidRef : Ref := ⟨model, 3, by decide⟩

def sackRef : Ref := ⟨model, 4, by decide⟩

def coverRef : Ref := ⟨model, 5, by decide⟩

/-- The object id of the node of a class at the top. -/
def idOf (c : String) : ObjectId := ⟨[.child c]⟩

/-- The resource id of a node at the top. -/
def addressOf (r : Ref) : ResourceId := ⟨[{ id := r.id }]⟩

/-- An object of a class without fields, below the node of another class. -/
def objectIn (c inner : String) : ObjectData where
  id := idOf c
  items := [.object (bareClass inner).new]

theorem nodeOfClass?_eq {c : String} (hm : r.model = model) (hc : r.className = some c) :
    registry.nodeOfClass? c = some r :=
  sole.nodeOfClass?_eq_some_iff.2 ⟨hm, hc⟩

theorem inner_objectIn {inner : String} (hm : r.model = model) (hc : r.className = some inner)
    (hk : r.kind = .container) (c : String) :
    ∀ item ∈ (objectIn c inner).items, registry.Inner item := by
  intro item hitem
  obtain rfl := List.mem_singleton.1 hitem
  exact ⟨_, r, rfl, nodeOfClass?_eq hm hc, .inl hk⟩

/-- The box and the sack stand at the top, where they are addressed by their class as well as by their
identifier. -/
structure OnTop (r : Ref) (c : String) : Prop where
  resource : registry.toResourceId (idOf c) = .ok (addressOf r, some r)
  object : registry.toObjectId (addressOf r) = .ok (idOf c)
  resolved : registry.resolve (addressOf r) = .ok (some r)

theorem childOf?_top
    (hr : (⟨model, 0, by decide⟩ : Ref).ownDataChild? r.name (some "urn:crate") = some r) :
    registry.childOf? none r.name (some "urn:crate") = some { node := r } := by
  have hmodule : registry.namespaces.select? "urn:crate" = some ⟨model, 0, by decide⟩ :=
    sole.select?_namespace_eq_some_iff.2 ⟨List.mem_singleton.2 rfl, rfl⟩
  change registry.topLevel? r.name (some "urn:crate") = _
  rw [topLevel?, Option.bind_some, hmodule, Option.bind_some, Ref.findDataChild?_of_own hr]
  rfl

theorem onTop {c : String} (hm : r.model = model) (hc : r.className = some c)
    (hk : r.kind = .container ∨ r.kind = .anydata) (htop : r.dataAncestors = [])
    (hchild : registry.childOf? none r.name r.ns = some { node := r }) : OnTop r c where
  resource := by
    have ha : isAddressable r.kind = true := by
      rcases hk with hk | hk <;> simp [isAddressable, Kind.isTransparent, hk]
    have hlist : r.kind ≠ .list := by
      rcases hk with hk | hk <;> simp [hk]
    exact toResourceId_child (nodeOfClass?_eq hm hc) ha hlist htop
  object := by
    refine followKeys_cons_iff.2 ⟨_, some (.child c), idOf c, hchild, ?_, rfl, rfl⟩
    have hclass : requireClass r = .ok c := found_eq_ok_iff.2 hc
    rcases hk with hk | hk <;> simp [keyStep?, hk, hclass, bind, Except.bind, pure, Except.pure]
  resolved := by
    have hkey : registry.resolveKey (addressOf r) none { id := r.id } = .ok r := by
      refine Except.bind_eq_ok_iff.2 ⟨_, found_eq_ok_iff.2 hchild, if_pos ?_⟩
      rcases hk with hk | hk <;> simp [fitsSelector, hk]
    rw [resolve, addressOf, List.foldlM_cons, ← addressOf, hkey]
    rfl

theorem onTop_box : OnTop boxRef "Box" :=
  onTop rfl rfl (.inl rfl) (by with_unfolding_all rfl) (childOf?_top rfl)

theorem onTop_sack : OnTop sackRef "Sack" :=
  onTop rfl rfl (.inr rfl) (by with_unfolding_all rfl) (childOf?_top rfl)

/-- What a node of the box or of the sack becomes below one of them. -/
def dataIn (base r : Ref) : ResourceData where
  id := addressOf base
  nodes := [bareNode r]

theorem write_objectIn {base : Ref} {c inner : String} (hbase : OnTop base c)
    (hleaf : base.kind.isLeafLike = false) (hr : registry.nodeOfClass? inner = some r)
    (hk : r.kind = .container) (hc : r.children = []) (ha : r.augments = [])
    (hplace : samePlace r.dataParent? (some base) = true ∨ base.kind = .anydata) :
    registry.write (objectIn c inner) = .ok (dataIn base r) :=
  write_bare hbase.resource (by rintro _ ⟨⟩; exact hleaf) hr hk hc ha
    (hplace.imp_right fun hany => ⟨base, rfl, hany⟩)

theorem write_boxInBox : registry.write (objectIn "Box" "InnerBox") = .ok (dataIn boxRef innerBoxRef) :=
  write_objectIn onTop_box rfl (nodeOfClass?_eq rfl rfl) rfl rfl rfl (.inl (by with_unfolding_all rfl))

theorem write_lidInBox : registry.write (objectIn "Box" "Lid") = .ok (dataIn boxRef lidRef) :=
  write_objectIn onTop_box rfl (nodeOfClass?_eq rfl rfl) rfl rfl rfl (.inl (by with_unfolding_all rfl))

theorem write_lidInSack : registry.write (objectIn "Sack" "Lid") = .ok (dataIn sackRef lidRef) :=
  write_objectIn onTop_sack rfl (nodeOfClass?_eq rfl rfl) rfl rfl rfl (.inr rfl)

/-- The data of the box inside is read at the root, as the box around it. -/
theorem read_boxInBox : registry.read (dataIn boxRef innerBoxRef) =
    .ok { items := [.object boxClass.new] } := by
  have hroot : rootId (dataIn boxRef innerBoxRef) = .root := by decide
  have hbase : registry.resolve (rootId (dataIn boxRef innerBoxRef)) = .ok none := by
    rw [hroot]
    rfl
  exact read_bare rfl rfl hbase (by rw [hroot]; rfl) (childOf?_top (r := boxRef) rfl) rfl
    (by with_unfolding_all rfl)

theorem read_lidInBox : registry.read (dataIn boxRef lidRef) = .ok (objectIn "Box" "Lid") := by
  have hroot : rootId (dataIn boxRef lidRef) = addressOf boxRef := by decide
  have hchild : registry.childOf? (some boxRef) lidRef.name lidRef.ns = some { node := lidRef } := by
    change registry.dataChild? (some boxRef) _ _ = _
    rw [dataChild?, if_neg (by decide)]
    exact Ref.findDataChild?_of_own rfl
  exact read_bare rfl rfl (hroot ▸ onTop_box.resolved) (hroot ▸ onTop_box.object) hchild rfl
    (by with_unfolding_all rfl)

/-- The data of a lid in the sack is read as a cover. -/
theorem read_lidInSack : registry.read (dataIn sackRef lidRef) = .ok (objectIn "Sack" "Cover") := by
  have hroot : rootId (dataIn sackRef lidRef) = addressOf sackRef := by decide
  have hpayload : coverRef ∈ registry.payloads sackRef :=
    mem_payloads_iff.2 ⟨"Sack", "Cover", rfl, .head _, nodeOfClass?_eq rfl rfl⟩
  have hchild : registry.childOf? (some sackRef) coverRef.name coverRef.ns =
      some { node := coverRef } :=
    sole.childOf?_of_mem_below (e := { node := coverRef }) (by rintro _ ⟨⟩; rfl) (by decide +kernel)
      (List.mem_map_of_mem hpayload)
  exact read_bare rfl rfl (hroot ▸ onTop_sack.resolved) (hroot ▸ onTop_sack.object) hchild rfl
    (by with_unfolding_all rfl)

end Crate

/-- The lid of a box is read below the box again. -/
theorem read_write_lid : ∃ t d', Crate.registry.write (Crate.objectIn "Box" "Lid") = .ok t ∧
    Crate.registry.read t = .ok d' ∧ (d'.id == Crate.idOf "Box") = true ∧
    List.Forall₂ SameClass (Crate.objectIn "Box" "Lid").items d'.items := by
  have hseparate : Crate.registry.Separate (some Crate.boxRef) (Crate.objectIn "Box" "Lid").items := by
    refine ⟨fun b hb o ho r hr => ?_, fun b hb hany => ?_⟩
    · cases hb
      cases ho
      obtain rfl := Option.some.inj (hr.symm.trans (Crate.nodeOfClass?_eq (r := Crate.lidRef) rfl rfl))
      decide
    · cases hb
      cases hany
  obtain ⟨hid, hitems⟩ := Crate.sole.read_write Crate.distinct Crate.onTop_box.resource
    Crate.onTop_box.object (by decide) (Crate.inner_objectIn (r := Crate.lidRef) rfl rfl rfl _)
    hseparate Crate.write_lidInBox Crate.read_lidInBox
  exact ⟨_, _, Crate.write_lidInBox, Crate.read_lidInBox, hid, hitems⟩

/-- What was written below an address is read elsewhere or as something else, although the address is
the one that its resource id is read as and all identifiers of one place are distinct: the box inside
a box is read at the root, as the box around it, and a lid in the sack is read as a cover. -/
theorem read_elsewhere_crate : Crate.registry.Sole Crate.model ∧ Distinct Crate.model ∧
    (∃ rid base t d', Crate.registry.toResourceId (Crate.idOf "Box") = .ok (rid, base) ∧
      Crate.registry.toObjectId rid = .ok (Crate.idOf "Box") ∧
      (∀ item ∈ (Crate.objectIn "Box" "InnerBox").items, Crate.registry.Inner item) ∧
      Crate.registry.write (Crate.objectIn "Box" "InnerBox") = .ok t ∧
      Crate.registry.read t = .ok d' ∧ (d'.id == Crate.idOf "Box") = false) ∧
    ∃ rid base t d', Crate.registry.toResourceId (Crate.idOf "Sack") = .ok (rid, base) ∧
      Crate.registry.toObjectId rid = .ok (Crate.idOf "Sack") ∧
      (∀ item ∈ (Crate.objectIn "Sack" "Lid").items, Crate.registry.Inner item) ∧
      Crate.registry.write (Crate.objectIn "Sack" "Lid") = .ok t ∧
      Crate.registry.read t = .ok d' ∧
      ¬ List.Forall₂ SameClass (Crate.objectIn "Sack" "Lid").items d'.items := by
  refine ⟨Crate.sole, Crate.distinct, ⟨_, _, _, _, Crate.onTop_box.resource, Crate.onTop_box.object,
    Crate.inner_objectIn (r := Crate.innerBoxRef) rfl rfl rfl _, Crate.write_boxInBox,
    Crate.read_boxInBox, by decide⟩, _, _, _, _, Crate.onTop_sack.resource, Crate.onTop_sack.object,
    Crate.inner_objectIn (r := Crate.lidRef) rfl rfl rfl _, Crate.write_lidInSack,
    Crate.read_lidInSack, fun hall => ?_⟩
  obtain ⟨o, o', ho, ho', hclass⟩ := (List.forall₂_cons.1 hall).1
  cases ho
  cases ho'
  exact absurd hclass (by decide)

end Registry

end YangBinding
