import YangBinding.Binding.Writer
import YangBinding.Proofs.Binding.Route
import YangBinding.Proofs.Object.Content
import YangBinding.Proofs.Outcome

/-!
# Schemas described by classes

The conversion of objects asks that the class of every node whose content objects hold really
describes the node: it has a field for each child that is declared there, and the field takes what
the child declares. Then nothing that a walk over the schema asks of an object is missing.

## Main definitions

* `Registry.HoldsObjects` — the nodes whose content is held by objects
* `Registry.Describes` — the class of a node has the fields of its children
* `Registry.Covered` — the nodes of a registry are described by their classes and told apart
* `Registry.Described` — what the conversion of objects asks of a registry: nothing besides is added to
  augments of choices
* `Registry.Classified` — what the writing of objects alone asks of it
* `Registry.FieldFor` — the field of a class for a child

## Main results

* `Registry.Classified.exists_field` — every declared child has its field
* `Registry.Described.nodup_offers` — what a node offers differs in name or namespace
-/

namespace YangBinding

open Schema (DataChild Kind Layer Model Ref)

namespace Registry

/-- The content of the node is held by objects. An augment of a choice has no content of its own, it
only adds cases. -/
def HoldsObjects (r : Ref) : Prop :=
  r.kind = .container ∨ r.kind = .list ∨ r.kind = .anydata ∨ r.kind = .case ∨ r.kind = .input ∨
    r.kind = .output ∨ r.kind = .notification ∨
    r.kind = .augment ∧ ∀ t, r.target? = some t → t.kind ≠ .choice

/-- The class has exactly the fields of the declared children of a node, as the field macros build
them: each takes what its child declares, and objects of the class that is bound to it. -/
structure Describes (reg : Registry) (c : Class) (r : Ref) : Prop where
  owner : ∀ f ∈ c.fields, f.owner = c.typeName
  names : (c.fields.map Field.name).Perm (r.declared.map Ref.name)
  suits : ∀ f ∈ c.fields, ∀ child ∈ r.declared, child.name = f.name →
    f.type.suits child.kind = true
  objects : ∀ f ∈ c.fields, ∀ child ∈ r.declared, child.name = f.name →
    ∀ t, f.type = .container t ∨ f.type = .list t →
      ∃ type, reg.classOf? child = some type ∧ type.typeName = t

/-- In a registry with one model the nodes that objects are for are described by their classes and told
apart by their names, and augments declare what has its place at their targets. -/
structure Covered (reg : Registry) (m : Model) : Prop where
  sole : reg.Sole m
  described : ∀ r ∈ m.refs, HoldsObjects r → ∃ c, reg.classOf? r = some c ∧ reg.Describes c r
  casesForChoices : m.CasesForChoices
  payload_kind : ∀ r ∈ m.refs, r.kind = .anydata → ∀ p ∈ reg.payloads r,
    p.kind = .container ∨ p.kind = .list ∨ p.kind = .anydata ∨ p.kind = .notification
  nodup_declared : ∀ r ∈ m.refs, (r.declared.map Ref.name).Nodup
  nodup_below : ∀ r ∈ m.refs, r.isLayer = false → r.kind ≠ .module →
    ((reg.below (some r)).map fun e => e.node.id).Nodup
  nodup_root : ((reg.below none).map fun e => e.node.id).Nodup

/-- What the conversion of objects asks of a registry with one model: besides being covered by classes
it has nothing that is added to an augment of a choice, which no look-up finds. -/
structure Described (reg : Registry) (m : Model) : Prop extends Covered reg m where
  choiceAugmentsFinal : m.ChoiceAugmentsFinal

/-- What writing objects asks of a registry with one model: the nodes whose content objects hold, the
payloads of anydata nodes among them, are described by their classes. -/
structure Classified (reg : Registry) (m : Model) : Prop where
  sole : reg.Sole m
  described : ∀ r ∈ m.refs, HoldsObjects r → ∃ c, reg.classOf? r = some c ∧ reg.Describes c r
  payload_object : ∀ r ∈ m.refs, r.kind = .anydata → ∀ p ∈ reg.payloads r, HoldsObjects p
  nodup_declared : ∀ r ∈ m.refs, HoldsObjects r → (r.declared.map Ref.name).Nodup
  nodup_offers : ∀ r ∈ m.refs, r.isLayer = false → r.kind ≠ .module →
    (r.offers.map fun e => e.node.id).Nodup

/-- The field of a class for a child of the node that the class describes. -/
structure FieldFor (reg : Registry) (c : Class) (child : Ref) (f : Field) : Prop where
  own : f ∈ c.ownFields
  name_eq : f.name = child.name
  owner : c.typeName = f.owner
  found : fieldFor c child = .ok f
  suits : f.type.suits child.kind = true
  objects : ∀ t, f.type = .container t ∨ f.type = .list t →
    ∃ type, reg.classOf? child = some type ∧ type.typeName = t

variable {reg : Registry} {m : Model} {r child t : Ref} {c : Class} {f : Field} {layer : Layer}

/-! ### Fields -/

/-- A field is for a child if it has the name of the child and takes what the child declares. -/
theorem fieldFor_eq_ok_iff : fieldFor c child = .ok f ↔
    c.field? child.name = some f ∧ f.type.suits child.kind = true := by
  rw [fieldFor, Except.bind_eq_ok_iff]
  simp only [found_eq_ok_iff]
  constructor
  · rintro ⟨g, hg, h⟩
    split at h
    · next hs =>
      cases h
      exact ⟨hg, hs⟩
    · cases h
  · rintro ⟨hg, hs⟩
    refine ⟨f, hg, ?_⟩
    rw [if_pos hs]
    rfl

theorem Describes.ownFields_eq (h : reg.Describes c r) : c.ownFields = c.fields :=
  List.filter_eq_self.2 fun f hf => by simp [h.owner f hf]

/-- A class without fields describes a node without children. -/
theorem Describes.of_isEmpty (hc : c.fields = []) (hr : r.declared = []) : reg.Describes c r := by
  constructor <;> simp [hc, hr]

/-- Every declared child has its field. -/
theorem Describes.exists_field (h : reg.Describes c r) (hn : (r.declared.map Ref.name).Nodup)
    (hc : child ∈ r.declared) : ∃ f, reg.FieldFor c child f := by
  obtain ⟨f, hf, hname⟩ := List.mem_map.1 (h.names.mem_iff.2 (List.mem_map_of_mem hc))
  have hfind : c.field? child.name = some f := by
    refine List.find?_eq_some_of_unique hf (by simp [hname]) fun g hg hgn => ?_
    exact List.eq_of_nodup_map (h.names.nodup_iff.2 hn) hg hf (by simpa [hname] using hgn)
  have hsuits := h.suits f hf child hc hname.symm
  refine ⟨f, h.ownFields_eq ▸ hf, hname, (h.owner f hf).symm, ?_, hsuits,
    h.objects f hf child hc hname.symm⟩
  exact fieldFor_eq_ok_iff.2 ⟨hfind, hsuits⟩

theorem Classified.exists_class (h : reg.Classified m) (hr : r.model = m) (hh : HoldsObjects r) :
    ∃ c, reg.classOf? r = some c ∧ reg.Describes c r :=
  h.described r (Ref.mem_refs_iff.2 hr) hh

theorem Classified.describes (h : reg.Classified m) (hr : r.model = m) (hh : HoldsObjects r)
    (hc : reg.classOf? r = some c) : reg.Describes c r := by
  obtain ⟨c', hc', hd⟩ := h.exists_class hr hh
  rw [hc] at hc'
  cases hc'
  exact hd

/-- The class of a node that holds objects has a field for each declared child. -/
theorem Classified.exists_field (h : reg.Classified m) (hr : r.model = m) (hh : HoldsObjects r)
    (hc : reg.classOf? r = some c) (hchild : child ∈ r.declared) :
    ∃ f, reg.FieldFor c child f :=
  (h.describes hr hh hc).exists_field (h.nodup_declared r (Ref.mem_refs_iff.2 hr) hh) hchild

/-- Every field is for a declared child. -/
theorem Classified.exists_child (h : reg.Classified m) (hr : r.model = m) (hh : HoldsObjects r)
    (hc : reg.classOf? r = some c) (hf : f ∈ c.ownFields) :
    ∃ child ∈ r.declared, reg.FieldFor c child f := by
  have hd := h.describes hr hh hc
  have hn := h.nodup_declared r (Ref.mem_refs_iff.2 hr) hh
  rw [hd.ownFields_eq] at hf
  obtain ⟨child, hchild, hname⟩ := List.mem_map.1 (hd.names.mem_iff.1 (List.mem_map_of_mem hf))
  obtain ⟨g, hg⟩ := hd.exists_field hn hchild
  obtain rfl : g = f := List.eq_of_nodup_map (hd.names.nodup_iff.2 hn)
    (hd.ownFields_eq ▸ hg.own) hf (hg.name_eq.trans hname)
  exact ⟨child, hchild, hg⟩

theorem FieldFor.checkTarget_eq (h : reg.FieldFor c child f) {o : Object} (ho : o.type = c) :
    f.checkTarget o = .ok () := by
  rw [Field.checkTarget, ho, if_pos h.owner]

theorem FieldFor.field?_eq (h : reg.FieldFor c child f) : c.field? child.name = some f :=
  (fieldFor_eq_ok_iff.1 h.found).1

/-- The field of a leaf or leaf-list holds values. -/
theorem FieldFor.holdsValues_eq (h : reg.FieldFor c child f) :
    f.type.holdsValues = child.kind.isLeafLike := by
  have hs := h.suits
  cases hk : child.kind <;> cases hf : f.type <;>
    simp_all [FieldType.suits, FieldType.holdsValues, Kind.isLeafLike, Kind.isSingleObject]

/-- The field of anything but a list or leaf-list is single. -/
theorem FieldFor.isSingle_eq (h : reg.FieldFor c child f) :
    f.type.isSingle = !(child.kind == .leafList || child.kind == .list) := by
  have hs := h.suits
  cases hk : child.kind <;> cases hf : f.type <;>
    simp_all [FieldType.suits, FieldType.isSingle, Kind.isSingleObject]

theorem FieldFor.mem_valueNames (h : reg.FieldFor c child f) (hk : child.kind.isLeafLike = true) :
    child.name ∈ c.valueNames :=
  h.name_eq ▸ Field.name_mem_valueNames h.own (h.holdsValues_eq.trans hk)

theorem FieldFor.mem_objectNames (h : reg.FieldFor c child f)
    (hk : child.kind.isLeafLike = false) : child.name ∈ c.objectNames :=
  h.name_eq ▸ Field.name_mem_objectNames h.own (h.holdsValues_eq.trans hk)

/-- The fields that hold values are those of the leaves and leaf-lists. -/
theorem Classified.mem_valueNames (h : reg.Classified m) (hr : r.model = m) (hh : HoldsObjects r)
    (hc : reg.classOf? r = some c) {name : String} (hname : name ∈ c.valueNames) :
    ∃ child ∈ r.declared, child.name = name ∧ child.kind.isLeafLike = true := by
  obtain ⟨f, hf, rfl⟩ := List.mem_map.1 hname
  obtain ⟨hf, hv⟩ := List.mem_filter.1 hf
  obtain ⟨child, hchild, hfield⟩ := h.exists_child hr hh hc hf
  exact ⟨child, hchild, hfield.name_eq.symm, hfield.holdsValues_eq ▸ hv⟩

/-- The fields that hold objects are those of all other children. -/
theorem Classified.mem_objectNames (h : reg.Classified m) (hr : r.model = m) (hh : HoldsObjects r)
    (hc : reg.classOf? r = some c) {name : String} (hname : name ∈ c.objectNames) :
    ∃ child ∈ r.declared, child.name = name ∧ child.kind.isLeafLike = false := by
  obtain ⟨f, hf, rfl⟩ := List.mem_map.1 hname
  obtain ⟨hf, hv⟩ := List.mem_filter.1 hf
  obtain ⟨child, hchild, hfield⟩ := h.exists_child hr hh hc hf
  exact ⟨child, hchild, hfield.name_eq.symm, by
    rw [← hfield.holdsValues_eq]; simpa using hv⟩

/-! ### Nodes that hold objects -/

/-- A node of a kind that may stand on its own holds objects. -/
theorem HoldsObjects.of_standalone (hk : r.kind = .container ∨ r.kind = .list ∨ r.kind = .anydata ∨
    r.kind = .notification) : HoldsObjects r := by
  rcases hk with hk | hk | hk | hk <;> simp [HoldsObjects, hk]

theorem HoldsObjects.kind_ne_choice (h : HoldsObjects r) : r.kind ≠ .choice := by
  intro hk
  simp [HoldsObjects, hk] at h

theorem HoldsObjects.kind_ne_module (h : HoldsObjects r) : r.kind ≠ .module := by
  intro hk
  simp [HoldsObjects, hk] at h

theorem HoldsObjects.isLeafLike_eq (h : HoldsObjects r) : r.kind.isLeafLike = false := by
  unfold HoldsObjects at h
  rcases h with h | h | h | h | h | h | h | ⟨h, -⟩ <;> simp [h, Kind.isLeafLike]

/-- A child with a field that is no leaf, leaf-list or choice holds objects. -/
theorem FieldFor.holdsObjects (h : reg.FieldFor c child f) (hk : child.kind.isLeafLike = false)
    (hc : child.kind ≠ .choice) : HoldsObjects child := by
  have hs := h.suits
  cases hkind : child.kind <;> cases hf : f.type <;>
    simp_all [FieldType.suits, HoldsObjects, Kind.isLeafLike, Kind.isSingleObject]

/-- The layers of a node hold objects, unless the node is a choice, whose augments only add cases. -/
theorem holdsObjects_of_mem_layers (hk : r.kind ≠ .choice) (hl : r.model.Linked)
    (hlayer : layer ∈ r.layers) : HoldsObjects layer.node := by
  obtain ⟨augment, ha, rfl⟩ | ⟨choice, -, -, selected, hs, rfl⟩ := Ref.mem_layers_iff.1 hlayer
  · have ht := (Ref.mem_augments_iff hl).1 ha
    refine .inr (.inr (.inr (.inr (.inr (.inr (.inr ⟨Ref.kind_of_mem_augments hl ha, ?_⟩))))))
    intro t hta
    obtain rfl : r = t := Option.some.inj (ht.symm.trans hta)
    exact hk
  · have hk : selected.kind = .case := by simpa using (List.mem_filter.1 hs).2
    exact .inr (.inr (.inr (.inl hk)))

theorem HoldsObjects.of_mem_layers (h : HoldsObjects r) (hl : r.model.Linked)
    (hlayer : layer ∈ r.layers) : HoldsObjects layer.node :=
  holdsObjects_of_mem_layers h.kind_ne_choice hl hlayer

/-- What a node offers is declared in the node itself or in a layer that holds objects. -/
theorem exists_parent_of_mem_offers {e : DataChild} (hl : r.model.Linked) (hk : r.kind ≠ .choice)
    (he : e ∈ r.offers) : ∃ p, e.node.parent? = some p ∧ (p = r ∨ HoldsObjects p) := by
  refine Ref.offers_induction (P := fun r e => r.model.Linked → r.kind ≠ .choice →
    ∃ p, e.node.parent? = some p ∧ (p = r ∨ HoldsObjects p)) ?_ ?_ he hl hk
  · intro r c hc _ hl _
    exact ⟨r, (Ref.mem_children_iff hl).1 hc, .inl rfl⟩
  · intro r layer e hlayer _ ih hl hk
    have hholds := holdsObjects_of_mem_layers hk hl hlayer
    obtain ⟨p, hp, rfl | hpo⟩ := ih (Ref.model_of_mem_layers hlayer ▸ hl) hholds.kind_ne_choice
    · exact ⟨_, hp, .inr hholds⟩
    · exact ⟨p, hp, .inr hpo⟩

theorem Classified.holdsObjects_of_mem_payloads (h : reg.Classified m) (hr : r.model = m)
    (hk : r.kind = .anydata) {p : Ref} (hp : p ∈ reg.payloads r) : HoldsObjects p :=
  h.payload_object r (Ref.mem_refs_iff.2 hr) hk p hp

/-! ### Identifiers of offers -/

theorem sublist_offers_of_mem_layers (hl : layer ∈ r.layers) :
    (layer.node.offers.map fun e => e.node.id).Sublist (r.offers.map fun e => e.node.id) := by
  rw [Ref.offers_eq r, List.map_append]
  refine List.Sublist.trans ?_ (List.sublist_append_right _ _)
  obtain ⟨before, after, hsplit⟩ := List.append_of_mem hl
  rw [hsplit, List.flatMap_append, List.flatMap_cons, List.map_append, List.map_append,
    List.map_map]
  exact (List.sublist_append_left _ _).trans (List.sublist_append_right _ _)

/-- What a node offers that is no layer differs in name or namespace. -/
theorem Covered.nodup_offers_of_data (h : reg.Covered m) (hr : r.model = m)
    (hl : r.isLayer = false) : (r.offers.map fun e => e.node.id).Nodup := by
  by_cases hmod : r.kind = .module
  · -- The offers of a module are among those at the root.
    have hroot := h.nodup_root
    rw [below, h.sole.models, List.flatMap_singleton] at hroot
    obtain ⟨before, after, hsplit⟩ :=
      List.append_of_mem ((Ref.mem_moduleRefs_iff h.sole.linked).2 ⟨hr, hmod⟩)
    rw [hsplit, List.flatMap_append, List.flatMap_cons, List.map_append, List.map_append] at hroot
    exact hroot.of_append_right.of_append_left
  by_cases hany : r.kind = .anydata
  · have hnone : r.offers = [] := by
      refine List.eq_nil_iff_forall_not_mem.2 fun e he => ?_
      have := Ref.canHoldChildren_of_mem_offers (hr ▸ h.sole.linked) he
      simp [hany, Kind.canHoldChildren] at this
    rw [hnone]
    exact List.nodup_nil
  · have hbelow := h.nodup_below r (Ref.mem_refs_iff.2 hr) hl hmod
    rwa [below, if_neg hany] at hbelow

theorem Described.augmentsFit (h : reg.Described m) : m.AugmentsFit :=
  (Ref.augmentsFit_iff h.sole.linked).2 ⟨h.casesForChoices, h.choiceAugmentsFinal⟩

/-- What a node offers differs in name or namespace. The layers of a choice are cases only, so that
all that is offered behind a layer is offered by some node that shows up in data. -/
theorem Described.nodup_offers (h : reg.Described m) (hr : r.model = m) (hk : r.kind ≠ .choice) :
    (r.offers.map fun e => e.node.id).Nodup := by
  have hlinked : r.model.Linked := hr ▸ h.sole.linked
  -- By induction on the place in the model: a layer comes after the node that has it.
  induction hi : r.index.val using Nat.strongRecOn generalizing r with
  | ind n ih =>
    cases hl : r.isLayer with
    | false => exact h.nodup_offers_of_data hr hl
    | true =>
      obtain hnone | ⟨q, hm, hqk, hlt, layer, hlayer, rfl⟩ :=
        Ref.exists_holder hlinked (hr ▸ h.augmentsFit) hk hl
      · rw [hnone]
        exact List.nodup_nil
      · exact (sublist_offers_of_mem_layers hlayer).nodup
          (ih _ (hi ▸ hlt) (hm.trans hr) hqk (hm.symm ▸ hlinked) rfl)

/-- The conversion of objects asks more than their writing alone. -/
theorem Covered.classified (h : reg.Covered m) : reg.Classified m where
  sole := h.sole
  described := h.described
  payload_object := by
    intro r hr hk p hp
    rcases h.payload_kind r hr hk p hp with h | h | h | h <;> simp [HoldsObjects, h]
  nodup_declared := fun r hr _ => h.nodup_declared r hr
  nodup_offers := by
    intro r hr hl _
    exact h.nodup_offers_of_data (Ref.model_of_mem_refs hr) hl

/-! ### The classes of a shop -/

namespace Shop

def storeRef : Ref := ⟨model, 1, by decide⟩

def itemRef : Ref := ⟨model, 2, by decide⟩

def nameRef : Ref := ⟨model, 3, by decide⟩

def tagRef : Ref := ⟨model, 4, by decide⟩

theorem eq_of_holdsObjects (hr : r ∈ model.refs) (hh : HoldsObjects r) :
    r = storeRef ∨ r = itemRef := by
  have hrefs : model.refs = [⟨model, 0, by decide⟩, storeRef, itemRef, nameRef, tagRef] := rfl
  simp only [hrefs, List.mem_cons, List.not_mem_nil, or_false] at hr
  rcases hr with rfl | rfl | rfl | rfl | rfl
  · exact absurd rfl hh.kind_ne_module
  · exact .inl rfl
  · exact .inr rfl
  all_goals cases hh.isLeafLike_eq

theorem describes_store : registry.Describes storeClass storeRef where
  owner := by decide
  names := by decide
  suits := by decide
  objects := by
    intro f hf child hc _ t ht
    obtain rfl : f = ⟨"item", "Store", .list "Item"⟩ := List.mem_singleton.1 hf
    obtain rfl : child = itemRef := List.mem_singleton.1 hc
    obtain rfl : t = "Item" := by simpa [eq_comm] using ht
    exact ⟨itemClass, by decide +kernel, rfl⟩

theorem describes_item : registry.Describes itemClass itemRef where
  owner := by decide
  names := by decide
  suits := by decide
  objects := by
    intro f hf child hc _ t ht
    simp only [itemClass, List.mem_cons, List.not_mem_nil, or_false] at hf
    rcases hf with rfl | rfl <;> simp at ht

theorem described : registry.Described model where
  sole := sole
  described := by
    intro r hr hh
    rcases eq_of_holdsObjects hr hh with rfl | rfl
    · exact ⟨storeClass, by decide +kernel, describes_store⟩
    · exact ⟨itemClass, by decide +kernel, describes_item⟩
  casesForChoices := casesForChoices
  choiceAugmentsFinal := choiceAugmentsFinal
  payload_kind := fun r hr hk => absurd hk (kind_ne_anydata r hr)
  nodup_declared := by decide
  nodup_below := by
    have h : ∀ r ∈ model.refs, ((registry.below (some r)).map fun e => e.node.id).Nodup := by
      decide +kernel
    exact fun r hr _ _ => h r hr
  nodup_root := by decide +kernel

end Shop

/-! ### The classes of a fair

The classes of a fair cover its nodes, although something is added to an augment of a choice. -/

namespace Fair

def wheelRef : Ref := ⟨model, 3, by decide⟩

theorem eq_of_holdsObjects (hr : r ∈ model.refs) (hh : HoldsObjects r) :
    r = wheelRef ∨ r = extrasRef ∨ r = boothRef := by
  have hrefs : model.refs = [⟨model, 0, by decide⟩, ⟨model, 1, by decide⟩, ⟨model, 2, by decide⟩,
    wheelRef, extrasRef, boothRef, ticketRef] := rfl
  simp only [hrefs, List.mem_cons, List.not_mem_nil, or_false] at hr
  rcases hr with rfl | rfl | rfl | rfl | rfl | rfl | rfl
  · exact absurd rfl hh.kind_ne_module
  · exact absurd rfl hh.kind_ne_choice
  · -- The augment of the choice has no content of its own.
    have hkind : Ref.kind ⟨model, 2, by decide⟩ = .augment := rfl
    simp only [HoldsObjects, hkind, reduceCtorEq, false_or, true_and] at hh
    exact absurd rfl (hh ⟨model, 1, by decide⟩ rfl)
  · exact .inl rfl
  · exact .inr (.inl rfl)
  · exact .inr (.inr rfl)
  · cases hh.isLeafLike_eq

theorem describes_extras : registry.Describes extrasClass extrasRef where
  owner := by decide
  names := by decide
  suits := by decide
  objects := by
    intro f hf child hc hname t ht
    simp only [extrasClass, List.mem_cons, List.not_mem_nil, or_false] at hf
    rcases hf with rfl | rfl
    · obtain rfl : t = "Booth" := by simpa [eq_comm] using ht
      have hbooth : ∀ child ∈ extrasRef.declared, child.name = "booth" →
          registry.classOf? child = some boothClass := by decide +kernel
      exact ⟨boothClass, hbooth child hc hname, rfl⟩
    · simp at ht

theorem covered : registry.Covered model where
  sole := sole
  described := by
    intro r hr hh
    rcases eq_of_holdsObjects hr hh with rfl | rfl | rfl
    · exact ⟨wheelClass, by decide +kernel, .of_isEmpty rfl rfl⟩
    · exact ⟨extrasClass, by decide +kernel, describes_extras⟩
    · exact ⟨boothClass, by decide +kernel, .of_isEmpty rfl rfl⟩
  casesForChoices := casesForChoices
  payload_kind := fun r hr hk => absurd hk (kind_ne_anydata r hr)
  nodup_declared := by decide
  nodup_below := by
    have h : ∀ r ∈ model.refs, ((registry.below (some r)).map fun e => e.node.id).Nodup := by
      decide +kernel
    exact fun r hr _ _ => h r hr
  nodup_root := by simp [below_root]

end Fair

end Registry

end YangBinding
