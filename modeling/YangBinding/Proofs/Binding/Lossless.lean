import YangBinding.Proofs.Binding.Restored

/-!
# Objects that data shows as they are

What comes back of an object differs from the object exactly if the object holds something that its
data does not show: values or entries that are replaced by later ones, a case or an augmentation
without content, or something that has no place in the schema.

## Main definitions

* `Registry.Visible` — all that an object holds is seen in its data
* `Registry.Lossless` — the same for all objects inside

## Main results

* `Registry.Described.restored_beq_iff` — an object comes back exactly if its data shows all of it
-/

namespace YangBinding

open Schema (Kind Layer Model Ref)

namespace Registry

/-- All that an object holds is seen in its data: no value of a leaf-list, entry or payload is
replaced by a later one, there is something behind every layer, augmentations are for augments of the
node, and only anydata has payloads. -/
structure Visible (reg : Registry) (o : Object) (r : Ref) : Prop where
  values : ∀ c ∈ r.declared, c.kind = .leafList → (o.leafValues c.name).Nodup
  entries : ∀ c ∈ r.declared, c.kind = .list →
    ((o.objects c.name).map fun x => (reg.objectNode x c).key).Nodup
  layers : ∀ l x, .layer l x ∈ reg.slots o r → reg.content x l.node ≠ []
  augments : ∀ a ∈ o.augmentations, ∃ augment ∈ r.augments, augment.className = some a.className
  payloads : if r.kind = .anydata then
      ((reg.payloadParts o r).map fun p => (reg.objectNode p.1 p.2).key).Nodup
    else o.anydata = []

/-- The data of an object shows all that the object and the objects inside hold. -/
def Lossless (reg : Registry) : Object → Ref → Prop := reg.Throughout reg.Visible

variable {reg : Registry} {m : Model} {o x : Object} {r s child augment : Ref} {layer : Layer}

/-- Every payload of an object that can be written has its schema node. -/
theorem Complete.map_payloadParts (hw : reg.Complete o r) (hk : r.kind = .anydata) :
    (reg.payloadParts o r).map Prod.fst = o.anydata := by
  have hall := hw.payloads hk
  rw [payloadParts]
  generalize o.anydata = payloads at hall ⊢
  induction payloads with
  | nil => rfl
  | cons x xs ih =>
    obtain ⟨s, hs⟩ := hall x List.mem_cons_self
    rw [List.filterMap_cons, hs]
    exact congrArg (List.cons x) (ih fun y hy => hall y (List.mem_cons_of_mem _ hy))

section Described

variable (h : reg.Described m) (hr : r.model = m) (hh : HoldsObjects r)
include h hr hh

/-- The values of a leaf or leaf-list come back exactly if no value of a leaf-list is repeated. -/
theorem Described.values_iff (ht : reg.Typed o r) :
    (∀ name ∈ o.type.valueNames, (o.leafValues name).latest id = o.leafValues name) ↔
      ∀ c ∈ r.declared, c.kind = .leafList → (o.leafValues c.name).Nodup := by
  have hclass := ht.here.1
  simp only [List.latest_eq_self_iff, List.map_id]
  constructor
  · intro hv c hc hk
    obtain ⟨f, hf⟩ := h.classified.exists_field hr hh hclass hc
    exact hv _ (hf.mem_valueNames (by simp [hk, Kind.isLeafLike]))
  · intro hv name hname
    obtain ⟨c, hc, rfl, hleaf⟩ := h.classified.mem_valueNames hr hh hclass hname
    have hkind : c.kind = .leaf ∨ c.kind = .leafList := by simpa [Kind.isLeafLike] using hleaf
    rcases hkind with hk | hk
    · exact List.pairwise_of_length_le_one (h.classified.length_leafValues_le hr hh ht hc hk)
    · exact hv c hc hk

omit h hr hh in
/-- An object behind a layer comes back as it is exactly if it shows, and comes back. -/
theorem rel_restoredBehind_iff :
    Option.Rel (fun a b => (a == b) = true) (reg.restoredBehind s x) (some x) ↔
      reg.content x s ≠ [] ∧ (reg.restored x s == x) = true := by
  cases hback : reg.restoredBehind s x with
  | none =>
    have hempty : reg.content x s = [] := by
      by_contra hne
      cases hback.symm.trans (restoredBehind_eq_some_iff.2 ⟨hne, rfl⟩)
    constructor
    · rintro ⟨⟩
    · rintro ⟨hne, -⟩
      exact absurd hempty hne
  | some y =>
    obtain ⟨hne, rfl⟩ := restoredBehind_eq_some_iff.1 hback
    simp [hne]

/-- The case of a choice comes back exactly if it shows, and comes back. -/
theorem Described.choice_iff (ht : reg.Typed o r) (hs : reg.Selects o r) (hc : child ∈ r.declared)
    (hk : child.kind = .choice) :
    List.Forall₂ (fun a b => (a == b) = true) (reg.restoredIn o child) (o.objects child.name) ↔
      ∀ x ∈ o.objects child.name, ∀ s, reg.nodeOfClass? x.className = some s →
        reg.content x s ≠ [] ∧ (reg.restored x s == x) = true := by
  have hle := h.classified.length_objects_le hr hh ht hc (by simp [hk])
  have hselect := hs child hc hk
  rw [restoredIn, if_pos hk]
  generalize o.objects child.name = selected at hle hselect ⊢
  rcases selected with _ | ⟨x, _ | ⟨y, rest⟩⟩
  · simp
  · obtain ⟨s, -, hnode⟩ := hselect x List.mem_cons_self
    by_cases hempty : reg.content x s = []
    · simp [hnode, restoredBehind, hempty]
    · simp [hnode, restoredBehind, hempty]
  · simp at hle

/-- The objects of a child that is no choice come back exactly if no entry is replaced, and each comes
back. -/
theorem Described.members_iff (ht : reg.Typed o r) (hc : child ∈ r.declared)
    (hk : child.kind ≠ .choice) :
    List.Forall₂ (fun a b => (a == b) = true) (reg.restoredIn o child) (o.objects child.name) ↔
      (child.kind = .list →
        ((o.objects child.name).map fun x => (reg.objectNode x child).key).Nodup) ∧
      ∀ x ∈ o.objects child.name, (reg.restored x child == x) = true := by
  have hall : List.Forall₂ (fun a b => (a == b) = true) (reg.restoredIn o child)
      ((o.objects child.name).map id) ↔
        ((o.objects child.name).map fun x => (reg.objectNode x child).key).Nodup ∧
          ∀ x ∈ o.objects child.name, (reg.restored x child == x) = true := by
    rw [restoredIn, if_neg hk]
    exact List.forall₂_map_latest_iff
  rw [List.map_id] at hall
  rw [hall]
  refine and_congr_left fun _ => ⟨fun hnodup _ => hnodup, fun hnodup => ?_⟩
  by_cases hlist : child.kind = .list
  · exact hnodup hlist
  · -- A field that takes one object has none to be replaced.
    have hle := h.classified.length_objects_le hr hh ht hc hlist
    exact List.pairwise_of_length_le_one (by rwa [List.length_map])

omit hh in
/-- The augmentations come back exactly if each is for an augment, shows, and comes back. -/
theorem Described.augmentations_iff (hp : o.Proper) (hback : (reg.restored o r).Proper) :
    ((reg.restoredAugmentations o r).length = o.augmentations.length ∧
      ∀ a ∈ reg.restoredAugmentations o r, ∃ b,
        (o.augmentations.find? fun b => b.className == a.className) = some b ∧ (a == b) = true) ↔
      (∀ a ∈ o.augmentations, ∃ augment ∈ r.augments, augment.className = some a.className) ∧
      ∀ augment ∈ r.augments, ∀ x, augment.className.bind o.augmentation? = some x →
        reg.content x augment ≠ [] ∧ (reg.restored x augment == x) = true := by
  have hnodup := hback.nodup_classes
  rw [augmentations_restored] at hnodup
  -- What is found of a class of augments is what stands behind the augment, if anything shows.
  have hfind {augment : Ref} {c : String} (ha : augment ∈ r.augments)
      (hc : augment.className = some c) :
      ((reg.restoredAugmentations o r).find? fun y => y.className == c) =
        (o.augmentation? c).bind (reg.restoredBehind augment) := by
    have hrestored := h.augmentation?_restored hr ha (o := o)
    rwa [hc, Option.bind_some, Option.bind_some, Object.augmentation?, augmentations_restored]
      at hrestored
  rw [List.forall_find?_iff hnodup hp.nodup_classes]
  constructor
  · intro hrel
    refine ⟨fun a ha => ?_, fun augment ha x hx => ?_⟩
    · have hrel := hrel a.className
      rw [List.find?_key_of_nodup hp.nodup_classes ha] at hrel
      generalize hy : List.find? _ _ = found at hrel
      cases hrel with
      | some =>
        obtain ⟨augment, hau, c, hc, x, hx, -, rfl⟩ :=
          mem_restoredAugmentations_iff.1 (List.mem_of_find?_eq_some hy)
        have hclass : x.className = a.className := by simpa using List.find?_some hy
        exact ⟨augment, hau, by rw [hc, ← hclass, className_of_augmentation? hx]⟩
    · obtain ⟨c, hc, hx⟩ := Option.bind_eq_some_iff.1 hx
      have hrel := hrel c
      rw [hfind ha hc, hx, Option.bind_some] at hrel
      exact rel_restoredBehind_iff.1 (hx ▸ hrel)
  · rintro ⟨hall, hslots⟩ c
    change Option.Rel _ _ (o.augmentation? c)
    cases hx : o.augmentation? c with
    | some x =>
      obtain ⟨augment, hau, hc⟩ := hall x (List.mem_of_find?_eq_some hx)
      rw [className_of_augmentation? hx] at hc
      rw [hfind hau hc, hx, Option.bind_some]
      exact rel_restoredBehind_iff.2 (hslots augment hau x (by rw [hc, Option.bind_some, hx]))
    | none =>
      -- All that comes back comes back of an augmentation of its class.
      have hnone : ((reg.restoredAugmentations o r).find? fun y => y.className == c) = none := by
        refine List.find?_eq_none.2 fun y hy hyc => ?_
        obtain ⟨augment, -, d, -, x, hd, -, rfl⟩ := mem_restoredAugmentations_iff.1 hy
        obtain rfl : d = c := by simpa [className_of_augmentation? hd] using hyc
        cases hx.symm.trans hd
      rw [hnone]
      exact .none

omit h hr hh in
/-- The payloads come back exactly if none is replaced, and each comes back. -/
theorem Complete.payloads_iff (hw : reg.Complete o r) :
    List.Forall₂ (fun a b => (a == b) = true) (reg.restoredAnydata o r) o.anydata ↔
      (if r.kind = .anydata then
        ((reg.payloadParts o r).map fun p => (reg.objectNode p.1 p.2).key).Nodup
      else o.anydata = []) ∧
      (r.kind = .anydata → ∀ x ∈ o.anydata, ∀ s, reg.payloadOf? r x = some s →
        (reg.restored x s == x) = true) := by
  unfold restoredAnydata
  by_cases hk : r.kind = .anydata
  · rw [if_pos hk, if_pos hk]
    nth_rewrite 1 [← hw.map_payloadParts hk]
    rw [List.forall₂_map_latest_iff]
    refine and_congr_right fun _ => ⟨fun hall _ x hx s hs => ?_, fun hall p hp => ?_⟩
    · exact hall (x, s) (List.mem_filterMap.2 ⟨x, hx, by simp [hs]⟩)
    · obtain ⟨hx, hs⟩ := mem_anydata_of_mem_payloadParts hp
      exact hall hk _ hx _ hs
  · rw [if_neg hk, if_neg hk, List.forall₂_nil_left_iff]
    simp [hk]

/-- The fields for objects come back exactly if those of the declared children do. -/
theorem Described.fields_iff (ht : reg.Typed o r) :
    (∀ name ∈ o.type.objectNames, List.Forall₂ (fun a b => (a == b) = true)
      (reg.restoredObjects o r name) (o.objects name)) ↔
      ∀ c ∈ r.declared, c.kind.isLeafLike = false → List.Forall₂ (fun a b => (a == b) = true)
        (reg.restoredIn o c) (o.objects c.name) := by
  obtain ⟨hclass, -⟩ := ht.here
  constructor
  · intro ho c hc hinner
    obtain ⟨f, hf⟩ := h.classified.exists_field hr hh hclass hc
    rw [← h.restoredObjects_eq hr hc]
    exact ho _ (hf.mem_objectNames hinner)
  · intro ho name hname
    obtain ⟨c, hc, rfl, hinner⟩ := h.classified.mem_objectNames hr hh hclass hname
    rw [h.restoredObjects_eq hr hc]
    exact ho c hc hinner

omit h hr hh in
/-- What comes back is compared with the object kind by kind of what they hold. -/
theorem restored_beq_iff_members (hproper : o.Proper) : (reg.restored o r == o) = true ↔
    (∀ name ∈ o.type.valueNames, (o.leafValues name).latest id = o.leafValues name) ∧
    (∀ name ∈ o.type.objectNames, List.Forall₂ (fun a b => (a == b) = true)
      (reg.restoredObjects o r name) (o.objects name)) ∧
    ((reg.restoredAugmentations o r).length = o.augmentations.length ∧
      ∀ a ∈ reg.restoredAugmentations o r, ∃ b,
        (o.augmentations.find? fun b => b.className == a.className) = some b ∧ (a == b) = true) ∧
    List.Forall₂ (fun a b => (a == b) = true) (reg.restoredAnydata o r) o.anydata := by
  rw [restored_eq]
  conv_lhs => enter [1, 2]; rw [← hproper.shape]
  exact Class.make_beq_make_iff

/-- An object comes back as it is exactly if all that it holds is seen in its data and the objects
inside come back. -/
theorem Described.restored_beq_iff_parts (ht : reg.Typed o r) (hw : reg.Writable o r) :
    (reg.restored o r == o) = true ↔
      reg.Visible o r ∧ ∀ x s, reg.Part o r x s → (reg.restored x s == x) = true := by
  have hproper := ht.here.2
  -- Behind the layers are the cases and the augmentations, of which the fields and the augmentations
  -- speak one by one.
  have hslots : (∀ l x, .layer l x ∈ reg.slots o r →
      reg.content x l.node ≠ [] ∧ (reg.restored x l.node == x) = true) ↔ _ := forall_layer_iff
  rw [restored_beq_iff_members hproper, h.values_iff hr hh ht, h.fields_iff hr hh ht,
    h.augmentations_iff hr hproper (h.proper_restored hr hh ht), hw.here.payloads_iff,
    forall_part_iff]
  constructor
  · rintro ⟨hvalues, hfields, ⟨haugments, hbehind⟩, hpayloads, hanydata⟩
    have hmembers {c : Ref} (hc : c ∈ r.declared) (hk : c.kind ≠ .choice)
        (hinner : c.kind.isLeafLike = false) :=
      (h.members_iff hr hh ht hc hk).1 (hfields c hc hinner)
    have hcases {c : Ref} (hc : c ∈ r.declared) (hk : c.kind = .choice) :=
      (h.choice_iff hr hh ht hw.here.selects hc hk).1 (hfields c hc (by simp [hk, Kind.isLeafLike]))
    have hslots := hslots.2 ⟨fun c => hcases, hbehind⟩
    have hvisible : reg.Visible o r := {
      values := hvalues
      entries := fun c hc hk =>
        (hmembers hc (by simp [hk]) (by simp [hk, Kind.isLeafLike])).1 hk
      layers := fun l x hslot => (hslots l x hslot).1
      augments := haugments
      payloads := hpayloads }
    exact ⟨hvisible, fun c hc hk hinner => (hmembers hc hk hinner).2,
      fun l x hslot => (hslots l x hslot).2, hanydata⟩
  · rintro ⟨hvisible, hfields, hbehind, hanydata⟩
    have hslots := hslots.1 fun l x hslot => ⟨hvisible.layers l x hslot, hbehind l x hslot⟩
    refine ⟨hvisible.values, fun c hc hinner => ?_, ⟨hvisible.augments, hslots.2⟩,
      hvisible.payloads, hanydata⟩
    by_cases hk : c.kind = .choice
    · exact (h.choice_iff hr hh ht hw.here.selects hc hk).2 (hslots.1 c hc hk)
    · exact (h.members_iff hr hh ht hc hk).2 ⟨hvisible.entries c hc, hfields c hc hk hinner⟩

/-- An object comes back as it is exactly if its data shows all that is in it. -/
theorem Described.restored_beq_iff (ht : reg.Typed o r) (hw : reg.Writable o r) :
    (reg.restored o r == o) = true ↔ reg.Lossless o r := by
  -- By induction on the size of the object.
  induction hn : sizeOf o using Nat.strongRecOn generalizing o r with
  | ind n ih =>
    rw [h.restored_beq_iff_parts hr hh ht hw, Lossless, throughout_iff]
    refine and_congr_right fun _ => forall_congr' fun x => forall_congr' fun s =>
      forall_congr' fun hp => ?_
    obtain ⟨hsm, hsh⟩ := h.classified.holdsObjects_of_part hr hh hw.here.selects hp
    exact ih _ (hn ▸ hp.sizeOf_lt) hsm hsh (ht.part hp) (hw.part hp) rfl

end Described

end Registry

end YangBinding
