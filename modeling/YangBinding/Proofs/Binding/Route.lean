import YangBinding.Binding.Address
import YangBinding.Proofs.Object.Key
import YangBinding.Proofs.Registry.Sole

/-!
# Routes of addresses

Every address that the registry converts follows a route through the schema: from the root down,
each node is below the one before it, shows up in data, and is addressed as its kind demands. The
route is what the two forms of an address have in common.

## Main definitions

* `Registry.Surveyed` — the order that the nodes and classes of a registry are in
* `Registry.Navigable` — what the conversion of addresses asks of a registry: nothing besides is added
  to augments of choices
* `Registry.Suits` — a key of a resource id addresses a schema node as its kind demands
* `Registry.Route` — keys and nodes, each below the one before

## Main results

* `Registry.Route.resolve_eq` — a resource id is resolved along its route
* `Registry.route_of_toResourceId` — the resource id of an object id has a route
-/

namespace YangBinding.Registry

open Schema (DataChild Kind Model Ref)
open YangBinding.Tree (KeyLeaf NodeKey ResourceId Selector)

/-- The nodes and classes of a registry with one model are in order. Operations have no class; cases,
augments and modules have one. Augments declare what has its place at their targets. -/
structure Surveyed (reg : Registry) (m : Model) : Prop where
  sole : reg.Sole m
  rpc_class : ∀ r ∈ m.refs, r.kind = .rpc → r.className = none
  layer_class : ∀ r ∈ m.refs, r.kind = .case ∨ r.kind = .augment ∨ r.kind = .module →
    ∃ c, r.className = some c
  casesForChoices : m.CasesForChoices
  payload_kind : ∀ r ∈ m.refs, r.kind = .anydata → ∀ p ∈ reg.payloads r,
    p.kind = .container ∨ p.kind = .list ∨ p.kind = .anydata ∨ p.kind = .notification
  nodup_declared : ∀ r ∈ m.refs, (r.declared.map Ref.name).Nodup
  nodup_below : ∀ r ∈ m.refs, r.isLayer = false → r.kind ≠ .module →
    ((reg.below (some r)).map fun e => e.node.name).Nodup
  nodup_root : ((reg.below none).map fun e => e.node.id).Nodup

/-- What the conversion of addresses asks of a registry with one model: besides being in order it has
nothing that is added to an augment of a choice, which no look-up finds. -/
structure Navigable (reg : Registry) (m : Model) : Prop extends Surveyed reg m where
  choiceAugmentsFinal : m.ChoiceAugmentsFinal

/-- The key of a list entry was made of a key object of the class that is bound to the list. -/
def TypedEntry (reg : Registry) (list : Ref) (leaves : List KeyLeaf) : Prop :=
  ∃ key type, (reg.classOf? list).bind Class.key = some type ∧ type.Regular ∧ key.Typed type ∧
    list.keys.mapM (keyLeafOf list key) = .ok leaves

/-- A key of a resource id addresses a schema node: the node shows up in data, the key has its
identifier, and it selects an entry exactly where the kind of the node asks for it. -/
structure Suits (reg : Registry) (key : NodeKey) (node : Ref) : Prop where
  id_eq : key.id = node.id
  addressable : isAddressable node.kind = true
  selector : fitsSelector node.kind key.selector = true
  entry : ∀ leaves, key.selector = .list leaves → reg.TypedEntry node leaves

/-- Keys and the nodes that they address, each below the one before. -/
inductive Route (reg : Registry) : Option Ref → List (NodeKey × Ref) → Option Ref → Prop
  | nil (parent : Option Ref) : Route reg parent [] parent
  | cons {parent : Option Ref} {e : DataChild} {key : NodeKey} {stops : List (NodeKey × Ref)}
      {last : Option Ref} (below : e ∈ reg.below parent) (suits : reg.Suits key e.node)
      (rest : Route reg (some e.node) stops last) : Route reg parent ((key, e.node) :: stops) last

variable {reg : Registry} {m : Model} {r p node : Ref} {e : DataChild} {c : String}
  {parent last : Option Ref} {key : NodeKey} {stops : List (NodeKey × Ref)}

theorem Route.append {stops' : List (NodeKey × Ref)} {mid : Option Ref}
    (h : reg.Route parent stops mid) (h' : reg.Route mid stops' last) :
    reg.Route parent (stops ++ stops') last := by
  induction h with
  | nil parent => exact h'
  | cons below suits rest ih => exact .cons below suits (ih h')

theorem Route.single (he : e ∈ reg.below parent) (hs : reg.Suits key e.node) :
    reg.Route parent [(key, e.node)] (some e.node) :=
  .cons he hs (.nil _)

/-! ### Nodes that show up in data -/

theorem Navigable.augmentsFit (h : reg.Navigable m) : m.AugmentsFit :=
  (Ref.augmentsFit_iff h.sole.linked).2 ⟨h.casesForChoices, h.choiceAugmentsFinal⟩

theorem isAddressable_iff : isAddressable r.kind = true ↔ r.isLayer = false ∧ r.kind ≠ .module := by
  cases hk : r.kind <;> simp [isAddressable, Ref.isLayer_eq_false_iff, Kind.isTransparent, hk]

/-- What a node offers shows up in data. -/
theorem isAddressable_of_mem_offers (hl : r.model.Linked) (he : e ∈ r.offers) :
    isAddressable e.node.kind = true :=
  isAddressable_iff.2 ⟨Ref.isLayer_of_mem_offers he, Ref.kind_of_mem_offers hl he⟩

/-- What is below the root, or below a node of the model, shows up in data. -/
theorem Navigable.isAddressable_of_mem_below (h : reg.Navigable m)
    (hp : ∀ r, parent = some r → r.model = m) (he : e ∈ reg.below parent) :
    isAddressable e.node.kind = true := by
  cases parent with
  | none =>
    obtain ⟨module, hm, he⟩ := h.sole.mem_below_root_iff.1 he
    have hl : module.model.Linked := Ref.model_of_mem_moduleRefs hm ▸ h.sole.linked
    exact isAddressable_of_mem_offers hl he
  | some r =>
    rw [below] at he
    split at he
    · next hk =>
      obtain ⟨p, hpay, rfl⟩ := List.mem_map.1 he
      have := h.payload_kind r (Ref.mem_refs_iff.2 (hp r rfl)) hk p hpay
      rcases this with hk | hk | hk | hk <;> simp [isAddressable, Kind.isTransparent, hk]
    · have hl : r.model.Linked := hp r rfl ▸ h.sole.linked
      exact isAddressable_of_mem_offers hl he

/-- Below the root, and below every node that shows up in data, identifiers are distinct. -/
theorem Navigable.nodup_ids (h : reg.Navigable m)
    (hp : ∀ r, parent = some r → r.model = m ∧ isAddressable r.kind = true) :
    ((reg.below parent).map fun e => e.node.id).Nodup := by
  cases parent with
  | none => exact h.nodup_root
  | some r =>
    obtain ⟨hm, ha⟩ := hp r rfl
    obtain ⟨hl, hk⟩ := isAddressable_iff.1 ha
    have := h.nodup_below r (Ref.mem_refs_iff.2 hm) hl hk
    refine List.Nodup.of_map (fun id : Schema.Id => id.name) ?_
    rw [List.map_map]
    exact this

/-- A key that addresses a node leads from the node above to it. -/
theorem Navigable.childOf?_eq (h : reg.Navigable m)
    (hp : ∀ r, parent = some r → r.model = m ∧ isAddressable r.kind = true)
    (he : e ∈ reg.below parent) (hs : reg.Suits key e.node) :
    reg.childOf? parent key.name key.ns = some e := by
  have := h.sole.childOf?_of_mem_below (fun r hr => (hp r hr).1) (h.nodup_ids hp) he
  rw [NodeKey.name, NodeKey.ns, hs.id_eq]
  exact this

theorem Navigable.step_context (h : reg.Navigable m)
    (hp : ∀ r, parent = some r → r.model = m ∧ isAddressable r.kind = true)
    (he : e ∈ reg.below parent) :
    ∀ r, some e.node = some r → r.model = m ∧ isAddressable r.kind = true := by
  rintro r ⟨⟩
  exact ⟨h.sole.model_of_mem_below (fun r hr => (hp r hr).1) he,
    h.isAddressable_of_mem_below (fun r hr => (hp r hr).1) he⟩

/-- A resource id is resolved along its route. -/
theorem Route.resolve_eq (h : reg.Navigable m) (id : ResourceId)
    (hp : ∀ r, parent = some r → r.model = m ∧ isAddressable r.kind = true)
    (hr : reg.Route parent stops last) :
    (stops.map Prod.fst).foldlM (fun parent key => some <$> reg.resolveKey id parent key) parent =
      .ok last := by
  induction hr with
  | nil parent => rfl
  | @cons parent e key stops last below suits rest ih =>
    rw [List.map_cons, List.foldlM_cons]
    refine Except.bind_eq_ok_iff.2 ⟨_, ?_, ih (h.step_context hp below)⟩
    have hkey : reg.resolveKey id parent key = .ok e.node := by
      rw [resolveKey, h.childOf?_eq hp below suits]
      exact Except.bind_eq_ok_iff.2 ⟨_, rfl, if_pos suits.selector⟩
    rw [hkey]
    rfl

/-- The part of a route up to one of its nodes is a route to that node. -/
theorem Route.take (hr : reg.Route parent stops last) {i : Nat} (hi : i < stops.length) :
    reg.Route parent (stops.take (i + 1)) (some stops[i].2) ∧
      reg.Suits stops[i].1 stops[i].2 := by
  induction hr generalizing i with
  | nil parent => cases hi
  | cons below suits rest ih =>
    cases i with
    | zero => exact ⟨.single below suits, suits⟩
    | succ i =>
      obtain ⟨hroute, hsuits⟩ := ih (Nat.lt_of_succ_lt_succ hi)
      exact ⟨.cons below suits hroute, hsuits⟩

/-- A route ends at a node of the model that shows up in data, unless it leads nowhere. -/
theorem Route.last_context (h : reg.Navigable m) (hr : reg.Route parent stops last)
    (hp : ∀ r, parent = some r → r.model = m ∧ isAddressable r.kind = true) :
    ∀ r, last = some r → r.model = m ∧ isAddressable r.kind = true := by
  induction hr with
  | nil parent => exact hp
  | cons below suits rest ih => exact ih (h.step_context hp below)

theorem Route.resolve_root (h : reg.Navigable m) (hr : reg.Route none stops last) :
    reg.resolve ⟨stops.map Prod.fst⟩ = .ok last :=
  hr.resolve_eq h _ (by simp)

/-! ### Routes of object ids -/

/-- The key of a node that is no list, above the first step of an object id. -/
theorem suits_single (ha : isAddressable r.kind = true) (hk : r.kind ≠ .list) :
    reg.Suits { id := r.id } r where
  id_eq := rfl
  addressable := ha
  selector := by cases hr : r.kind <;> simp [fitsSelector, hr] at hk ⊢
  entry := by simp

/-- A node that offers anything is no anydata node, so what it offers is below it. -/
theorem mem_below_of_mem_offers (hl : r.model.Linked) (he : e ∈ r.offers) :
    e ∈ reg.below (some r) := by
  have hk : r.kind ≠ .anydata := by
    intro hk
    have := Ref.canHoldChildren_of_mem_offers hl he
    simp [Kind.canHoldChildren, hk] at this
  rwa [below, if_neg hk]

/-- Whatever shows up in data is found below its nearest ancestor that does. -/
theorem Sole.exists_mem_below (h : reg.Sole m) (hfit : m.AugmentsFit) (hr : r.model = m)
    (hk : r.kind ≠ .module) (hl : r.isLayer = false) :
    ∃ e ∈ reg.below r.dataParent?, e.node = r := by
  have hlinked : r.model.Linked := hr ▸ h.linked
  obtain ⟨p, hpm, hpl, e, he, rfl⟩ := Ref.exists_mem_offers hlinked (hr ▸ hfit) hk hl
  have hplinked : p.model.Linked := hpm ▸ hlinked
  by_cases hpk : p.kind = .module
  · rw [Ref.dataParent?_of_mem_module hplinked hpk he]
    exact ⟨e, h.mem_below_root_iff.2 ⟨p, (Ref.mem_moduleRefs_iff h.linked).2 ⟨hpm.trans hr, hpk⟩, he⟩,
      rfl⟩
  · rw [Ref.dataParent?_of_mem_offers hplinked hpk hpl he]
    exact ⟨e, mem_below_of_mem_offers hplinked he, rfl⟩

/-- From the root a route leads through the ancestors of a node, if none of them is a list. -/
theorem Navigable.route_ancestors (h : reg.Navigable m) (hr : r.model = m)
    (ha : isAddressable r.kind = true) (hlist : ∀ a ∈ r.dataAncestors, a.kind ≠ .list) :
    reg.Route none (r.dataAncestors.reverse.map fun a => ({ id := a.id }, a)) r.dataParent? := by
  -- The data parent comes before the node, so the induction is on the number of the node.
  induction hi : r.index.val using Nat.strongRecOn generalizing r with
  | ind n ih =>
    have hlinked : r.model.Linked := hr ▸ h.sole.linked
    obtain ⟨hl, hk⟩ := isAddressable_iff.1 ha
    obtain ⟨p, hpm, hpl, e, he, rfl⟩ :=
      Ref.exists_mem_offers hlinked (hr ▸ h.augmentsFit) hk hl
    have hplinked : p.model.Linked := hpm ▸ hlinked
    have hanc := Ref.dataAncestors_of_mem_offers hplinked he
    by_cases hpk : p.kind = .module
    · rw [Ref.dataAncestry_of_module hpk] at hanc
      rw [Ref.dataParent?, hanc]
      exact .nil _
    · rw [Ref.dataAncestry_of_data hplinked hpk hpl] at hanc
      have hpa := isAddressable_iff.2 ⟨hpl, hpk⟩
      rw [hanc] at hlist
      rw [Ref.dataParent?, hanc]
      have hroute := ih p.index.val (hi ▸ Ref.index_lt_of_mem_offers he)
        (hpm.trans hr) hpa (fun a ha => hlist a (by simp [ha])) rfl
      obtain ⟨f, hf, hfp⟩ := h.sole.exists_mem_below h.augmentsFit (hpm.trans hr) hpk hpl
      simp only [List.reverse_cons, List.map_append, List.head?_cons, List.map_singleton]
      subst hfp
      exact hroute.append (.single hf (suits_single hpa (hlist _ (by simp))))

theorem ancestorKey_eq_ok (hk : ancestorKey r = .ok key) : r.kind ≠ .list ∧ key = { id := r.id } := by
  unfold ancestorKey at hk
  split at hk
  · cases hk
  · next hr =>
    cases hk
    exact ⟨hr, rfl⟩

/-- A key is resolved to the child of its name if it addresses an instance as that asks for. -/
theorem resolveKey_eq_ok_iff {id : ResourceId} : reg.resolveKey id parent key = .ok r ↔
    ∃ e, reg.childOf? parent key.name key.ns = some e ∧ fitsSelector r.kind key.selector = true ∧
      e.node = r := by
  rw [resolveKey, Except.bind_eq_ok_iff]
  simp only [found_eq_ok_iff]
  refine exists_congr fun e => and_congr_right fun _ => ?_
  constructor
  · intro hk
    split at hk
    · next hfits =>
      cases hk
      exact ⟨hfits, rfl⟩
    · cases hk
  · rintro ⟨hfits, rfl⟩
    exact if_pos hfits

/-- A first step leads to the node of the class that it names, if this shows up in data, or to what
the node of the class in a leaf id finds by the name in it. -/
theorem locateFirst_eq_ok_iff {step : Step} : reg.locateFirst step = .ok r ↔
    (∃ c, step.className? = some c ∧ reg.nodeOfClass? c = some r ∧ isAddressable r.kind = true) ∨
      ∃ l owner child, (step = .leaf l ∨ ∃ v, step = .leafEntry l v) ∧
        reg.nodeOfClass? l.owner = some owner ∧
        owner.findDataChild? l.name none = some child ∧ child.node = r := by
  have of_class {c : String} : (do
      let node ← reg.nodeOfClass c
      if isAddressable node.kind then pure node
      else throw (.resolution (.notADataClass c node.kind node.name))) = Except.ok r ↔
      reg.nodeOfClass? c = some r ∧ isAddressable r.kind = true := by
    simp only [Except.bind_eq_ok_iff, nodeOfClass_eq_ok_iff]
    constructor
    · rintro ⟨node, hnode, hr⟩
      split at hr <;> cases hr
      exact ⟨hnode, ‹_›⟩
    · rintro ⟨hnode, ha⟩
      exact ⟨r, hnode, if_pos ha⟩
  have of_leaf {l : LeafId} : (do
      let owner ← reg.nodeOfClass l.owner
      let child ← Result.found (.noLeaf l.owner l.name) (owner.findDataChild? l.name none)
      pure child.node) = Except.ok r ↔ ∃ owner child, reg.nodeOfClass? l.owner = some owner ∧
        owner.findDataChild? l.name none = some child ∧ child.node = r := by
    simp only [Except.bind_eq_ok_iff, nodeOfClass_eq_ok_iff, found_eq_ok_iff, pure, Except.pure,
      Except.ok.injEq, exists_and_left]
  -- Steps differ in whether they name a class or a leaf, and that is all a look-up sees.
  cases step with
  | child c => exact of_class.trans (by simp [Step.className?])
  | entry c k => exact of_class.trans (by simp [Step.className?])
  | leaf l => exact of_leaf.trans (by simp [Step.className?])
  | leafEntry l v => exact of_leaf.trans (by simp [Step.className?])

/-- The node that a first step leads to shows up in data, and has the class that the step names. -/
theorem Navigable.locateFirst_eq_ok (h : reg.Navigable m) {step : Step}
    (hs : reg.locateFirst step = .ok r) :
    r.model = m ∧ isAddressable r.kind = true ∧
      ∀ c, step.className? = some c → r.className = some c := by
  obtain ⟨c, hc, hnode, ha⟩ | ⟨l, owner, child, hstep, howner, hchild, rfl⟩ :=
    locateFirst_eq_ok_iff.1 hs
  · obtain ⟨hm, hclass⟩ := h.sole.nodeOfClass?_eq_some_iff.1 hnode
    refine ⟨hm, ha, fun d hd => ?_⟩
    obtain rfl := Option.some.inj (hc.symm.trans hd)
    exact hclass
  · have hm := (h.sole.nodeOfClass?_eq_some_iff.1 howner).1
    have he := (Ref.mem_offers_of_findDataChild? hchild).1
    refine ⟨(Ref.model_of_mem_offers he).trans hm,
      isAddressable_of_mem_offers (hm ▸ h.sole.linked) he, ?_⟩
    rintro c hc
    obtain rfl | ⟨v, rfl⟩ := hstep <;> cases hc

/-- A later step leads to what its name is found to mean below the node before, if this has the class
that the step names. -/
theorem locateBelow_eq_ok_iff {step : Step} : reg.locateBelow p step = .ok r ↔
    ∃ name ns e, reg.stepName step = .ok (name, ns) ∧ reg.childOf? (some p) name ns = some e ∧
      e.node = r ∧ ∀ c, step.className? = some c → r.className = some c := by
  rw [locateBelow, Except.bind_eq_ok_iff]
  constructor
  · rintro ⟨⟨name, ns⟩, hname, hs⟩
    obtain ⟨child, hchild, hs⟩ := Except.bind_eq_ok_iff.1 hs
    refine ⟨name, ns, child, hname, found_eq_ok_iff.1 hchild, ?_⟩
    cases hc : step.className? with
    | none =>
      rw [hc] at hs
      cases hs
      exact ⟨rfl, by simp⟩
    | some c =>
      simp only [hc] at hs
      split at hs <;> cases hs
      next hclass => exact ⟨rfl, by rintro _ ⟨⟩; exact hclass⟩
  · rintro ⟨name, ns, child, hname, hchild, rfl, hclass⟩
    refine ⟨_, hname, Except.bind_eq_ok_iff.2 ⟨child, found_eq_ok_iff.2 hchild, ?_⟩⟩
    cases hc : step.className? with
    | none => rfl
    | some c =>
      simp only [hclass c hc, if_true]
      rfl

/-- The node that a later step leads to is below the one before, and has the class that the step
names. -/
theorem Navigable.locateBelow_eq_ok (h : reg.Navigable m) {step : Step}
    (hs : reg.locateBelow p step = .ok r) :
    (∃ e ∈ reg.below (some p), e.node = r) ∧
      ∀ c, step.className? = some c → r.className = some c := by
  obtain ⟨name, ns, e, -, he, hr, hclass⟩ := locateBelow_eq_ok_iff.1 hs
  exact ⟨⟨e, (h.sole.mem_below_of_childOf? he).1, hr⟩, hclass⟩

/-- The list entries that an object id addresses are addressed by keys of the key classes of the
lists, as the field macros build them. -/
def TypedKeys (reg : Registry) (steps : List Step) : Prop :=
  ∀ c key, Step.entry c key ∈ steps →
    ∃ type, (reg.class? c).bind Class.key = some type ∧ type.Regular ∧ key.Typed type

/-- The key of the data node that a step to a schema node leads to. -/
inductive MakesKey (r : Ref) : Step → NodeKey → Prop
  | child {c : String} (hlist : r.kind ≠ .list) : MakesKey r (.child c) { id := r.id }
  | entry {c : String} {k : Key} {leaves : List KeyLeaf} (hlist : r.kind = .list)
    (hleaves : r.keys.mapM (keyLeafOf r k) = .ok leaves) :
    MakesKey r (.entry c k) { id := r.id, selector := .list leaves }
  | leaf {l : LeafId} (hleaf : r.kind.isLeafLike = true) : MakesKey r (.leaf l) { id := r.id }
  | leafEntry {l : LeafId} {v : LeafValue} (hlist : r.kind = .leafList) :
    MakesKey r (.leafEntry l v) { id := r.id, selector := .leafList v }

theorem stepKey_eq_ok_iff {step : Step} : stepKey r step = .ok key ↔ MakesKey r step key := by
  have checked_iff {l : LeafId} {u : Unit} : checkLeaf r l = .ok u ↔ r.kind.isLeafLike = true := by
    unfold checkLeaf
    split <;> simp_all
  constructor
  · intro hs
    cases step with
    | child c =>
      simp only [stepKey] at hs
      split at hs <;> cases hs
      exact .child ‹_›
    | entry c k =>
      simp only [stepKey] at hs
      split at hs
      · obtain ⟨leaves, hleaves, hs⟩ := Except.bind_eq_ok_iff.1 hs
        cases hs
        exact .entry ‹_› hleaves
      · cases hs
    | leaf l =>
      obtain ⟨_, hleaf, hs⟩ := Except.bind_eq_ok_iff.1 hs
      cases hs
      exact .leaf (checked_iff.1 hleaf)
    | leafEntry l v =>
      obtain ⟨_, -, hs⟩ := Except.bind_eq_ok_iff.1 hs
      split at hs <;> cases hs
      exact .leafEntry ‹_›
  · intro h
    cases h with
    | child hlist => exact if_neg hlist
    | entry hlist hleaves =>
      rw [stepKey, if_pos hlist, hleaves]
      rfl
    | leaf hleaf => exact Except.bind_eq_ok_iff.2 ⟨(), checked_iff.2 hleaf, rfl⟩
    | leafEntry hlist =>
      have hleaf : r.kind.isLeafLike = true := by simp [hlist, Kind.isLeafLike]
      exact Except.bind_eq_ok_iff.2 ⟨(), checked_iff.2 hleaf, if_pos hlist⟩

/-- The key that a step stands for addresses its node, which is no operation without a class. -/
theorem Navigable.stepKey_eq_ok (h : reg.Navigable m) {step : Step} (hm : r.model = m)
    (ha : isAddressable r.kind = true) (hc : ∀ c, step.className? = some c → r.className = some c)
    (ht : reg.TypedKeys [step]) (hs : stepKey r step = .ok key) :
    reg.Suits key r ∧ r.kind ≠ .rpc := by
  -- A step to an object names the class of its node, and operations have none.
  have class_ne {c : String} (hc : r.className = some c) : r.kind ≠ .rpc := by
    intro hk
    rw [h.rpc_class r (Ref.mem_refs_iff.2 hm) hk] at hc
    cases hc
  cases stepKey_eq_ok_iff.1 hs with
  | @child c hlist => exact ⟨suits_single ha hlist, class_ne (hc c rfl)⟩
  | @entry c k leaves hlist hleaves =>
    refine ⟨⟨rfl, ha, by simp [fitsSelector, hlist], ?_⟩, class_ne (hc c rfl)⟩
    rintro _ ⟨⟩
    obtain ⟨type, htype, hregular, htyped⟩ := ht c k (by simp)
    refine ⟨k, type, ?_, hregular, htyped, hleaves⟩
    rw [classOf?, hc c rfl]
    exact htype
  | leaf hleaf =>
    refine ⟨suits_single ha ?_, ?_⟩ <;> intro hk <;> simp [Kind.isLeafLike, hk] at hleaf
  | leafEntry hlist => exact ⟨⟨rfl, ha, by simp [fitsSelector, hlist], by simp⟩, by simp [hlist]⟩

theorem mapM_ancestorKey {refs : List Ref} {keys : List NodeKey}
    (hk : refs.mapM ancestorKey = Except.ok keys) :
    (∀ a ∈ refs, a.kind ≠ .list) ∧ keys = refs.map fun a => { id := a.id } := by
  induction refs generalizing keys with
  | nil =>
    cases hk
    exact ⟨by simp, rfl⟩
  | cons a refs ih =>
    rw [List.mapM_cons] at hk
    obtain ⟨key, hkey, hk⟩ := Except.bind_eq_ok_iff.1 hk
    obtain ⟨rest, hrest, hk⟩ := Except.bind_eq_ok_iff.1 hk
    cases hk
    obtain ⟨hlist, rfl⟩ := ancestorKey_eq_ok hkey
    obtain ⟨hrefs, rfl⟩ := ih hrest
    exact ⟨by simpa using ⟨hlist, hrefs⟩, rfl⟩

/-- What one step of an object id does: it finds a node, at the root with the keys of the nodes above
it, and puts the key of the node behind the address so far. -/
theorem followSteps_cons_iff {id : ObjectId} {step : Step} {steps : List Step} {rid : ResourceId}
    {current : Option Ref} {out : ResourceId × Option Ref} :
    reg.followSteps id (step :: steps) rid current = .ok out ↔
      (step.isLeaf = true → steps = []) ∧ ∃ node above key,
        (current = none ∧ reg.locateFirst step = .ok node ∧
            node.dataAncestors.reverse.mapM ancestorKey = .ok above ∨
          (∃ p, current = some p ∧ reg.locateBelow p step = .ok node) ∧ above = []) ∧
        stepKey node step = .ok key ∧
        reg.followSteps id steps ⟨rid.segments ++ above ++ [key]⟩ (some node) = .ok out := by
  rw [followSteps]
  have hleaf : (step.isLeaf && !steps.isEmpty) = true ↔ ¬ (step.isLeaf = true → steps = []) := by
    cases step.isLeaf <;> cases steps <;> simp
  by_cases hl : (step.isLeaf && !steps.isEmpty) = true
  · simp only [hl, if_true, hleaf.1 hl, false_and, iff_false]
    intro hs
    cases hs
  · have hend := not_not.1 (mt hleaf.2 hl)
    rw [if_neg hl, and_iff_right hend]
    -- A first step brings the keys of its ancestors along, a later one only its own.
    cases current with
    | none =>
      simp only [Except.bind_eq_ok_iff]
      constructor
      · rintro ⟨node, hnode, above, habove, _, ⟨⟩, key, hkey, hs⟩
        exact ⟨node, above, key, .inl ⟨trivial, hnode, habove⟩, hkey, hs⟩
      · rintro ⟨node, above, key, ⟨-, hnode, habove⟩ | ⟨⟨_, ⟨⟩, -⟩, -⟩, hkey, hs⟩
        exact ⟨node, hnode, above, habove, _, rfl, key, hkey, hs⟩
    | some p =>
      simp only [Except.bind_eq_ok_iff]
      constructor
      · rintro ⟨node, hnode, _, ⟨⟩, key, hkey, hs⟩
        exact ⟨node, [], key, .inr ⟨⟨p, rfl, hnode⟩, rfl⟩, hkey, hs⟩
      · rintro ⟨node, above, key, ⟨⟨⟩, -⟩ | ⟨⟨_, ⟨⟩, hnode⟩, rfl⟩, hkey, hs⟩
        exact ⟨node, hnode, _, rfl, key, hkey, hs⟩

/-- A class that is bound to a node at the root, other than a list, addresses that node. -/
theorem toResourceId_child {c : String} (hc : reg.nodeOfClass? c = some r)
    (ha : isAddressable r.kind = true) (hlist : r.kind ≠ .list) (htop : r.dataAncestors = []) :
    reg.toResourceId ⟨[.child c]⟩ = .ok (⟨[{ id := r.id }]⟩, some r) := by
  have hfirst : reg.locateFirst (.child c) = .ok r := locateFirst_eq_ok_iff.2 (.inl ⟨c, rfl, hc, ha⟩)
  have habove : r.dataAncestors.reverse.mapM ancestorKey = .ok [] := by
    rw [htop]
    rfl
  exact followSteps_cons_iff.2 ⟨by simp [Step.isLeaf], r, [], { id := r.id },
    .inl ⟨rfl, hfirst, habove⟩, stepKey_eq_ok_iff.2 (.child hlist), rfl⟩

/-- The steps of an object id prolong a route. -/
theorem Navigable.route_of_followSteps (h : reg.Navigable m) {id : ObjectId} {steps : List Step}
    {rid rid' : ResourceId} {current : Option Ref}
    (hp : ∀ r, current = some r → r.model = m ∧ isAddressable r.kind = true ∧ r.kind ≠ .rpc)
    (ht : reg.TypedKeys steps) (hs : reg.followSteps id steps rid current = .ok (rid', last)) :
    ∃ stops, reg.Route current stops last ∧ rid'.segments = rid.segments ++ stops.map Prod.fst ∧
      ∀ r, last = some r → r.kind ≠ .rpc := by
  induction steps generalizing rid current with
  | nil =>
    cases hs
    exact ⟨[], .nil _, by simp, fun r hr => (hp r hr).2.2⟩
  | cons step steps ih =>
    have htstep : reg.TypedKeys [step] := fun c k hck => ht c k (by simp_all)
    have htrest : reg.TypedKeys steps := fun c k hck => ht c k (List.mem_cons_of_mem _ hck)
    obtain ⟨-, node, above, key, hnode, hkey, hs⟩ := followSteps_cons_iff.1 hs
    -- The route from the current place to the node of this step.
    obtain ⟨front, hfront, habove, hm, ha, hrpc⟩ : ∃ front,
        reg.Route current front (some node) ∧ front.map Prod.fst = above ++ [key] ∧
          node.model = m ∧ isAddressable node.kind = true ∧ node.kind ≠ .rpc := by
      obtain ⟨rfl, hfirst, hkeys⟩ | ⟨⟨p, rfl, hchild⟩, rfl⟩ := hnode
      · obtain ⟨hm, ha, hc⟩ := h.locateFirst_eq_ok hfirst
        obtain ⟨hsuits, hrpc⟩ := h.stepKey_eq_ok hm ha hc htstep hkey
        obtain ⟨hlist, rfl⟩ := mapM_ancestorKey hkeys
        have hroute := h.route_ancestors hm ha (by simpa using hlist)
        obtain ⟨hl, hk⟩ := isAddressable_iff.1 ha
        obtain ⟨e, he, rfl⟩ := h.sole.exists_mem_below h.augmentsFit hm hk hl
        exact ⟨_, hroute.append (.single he hsuits), by simp, hm, ha, hrpc⟩
      · obtain ⟨hpm, hpa, -⟩ := hp p rfl
        obtain ⟨⟨e, he, rfl⟩, hc⟩ := h.locateBelow_eq_ok hchild
        have hcontext : ∀ r, some p = some r → r.model = m ∧ isAddressable r.kind = true := by
          rintro r ⟨⟩
          exact ⟨hpm, hpa⟩
        obtain ⟨hm, ha⟩ := h.step_context hcontext he e.node rfl
        obtain ⟨hsuits, hrpc⟩ := h.stepKey_eq_ok hm ha hc htstep hkey
        exact ⟨_, .single he hsuits, rfl, hm, ha, hrpc⟩
    obtain ⟨stops, hroute, hrid, hlast⟩ := ih
      (fun r hr => by cases hr; exact ⟨hm, ha, hrpc⟩) htrest hs
    refine ⟨front ++ stops, hfront.append hroute, ?_, hlast⟩
    rw [hrid, List.map_append, habove]
    simp

/-- The resource id of an object id has a route, which ends at the node found. -/
theorem Navigable.route_of_toResourceId (h : reg.Navigable m) {id : ObjectId} {rid : ResourceId}
    (ht : reg.TypedKeys id.steps) (hs : reg.toResourceId id = .ok (rid, last)) :
    ∃ stops, reg.Route none stops last ∧ rid = ⟨stops.map Prod.fst⟩ ∧
      ∀ r, last = some r → r.kind ≠ .rpc := by
  obtain ⟨stops, hroute, hrid, hlast⟩ := h.route_of_followSteps (by simp) ht hs
  refine ⟨stops, hroute, ?_, hlast⟩
  cases rid
  simpa [ResourceId.root] using hrid

end YangBinding.Registry
