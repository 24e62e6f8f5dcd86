import YangBinding.Proofs.Binding.Slots

/-!
# What comes back of an object

Data does not show everything about an object: of values and entries with equal keys just one is
there, and layers without content leave no trace. What comes back of an object is what its data
shows. It is an object of the same kind, and its data is the same.

## Main definitions

* `Registry.restored` — what comes back of an object

## Main results

* `Registry.Described.content_restored` — the content of what comes back is what was left
* `Registry.Described.typed_restored`, `Registry.Described.writable_restored` — what comes back can be
  written again
-/

namespace YangBinding

open Schema (DataChild Kind Layer Model Ref)
open YangBinding.Tree (Node)

namespace Registry

/-- Payloads with the schema nodes that they hold the content of. -/
def payloadParts (reg : Registry) (o : Object) (r : Ref) : List (Object × Ref) :=
  o.anydata.filterMap fun x => (reg.payloadOf? r x).map fun s => (x, s)

theorem mem_anydata_of_mem_payloadParts {reg : Registry} {o x : Object} {r s : Ref}
    (h : (x, s) ∈ reg.payloadParts o r) : x ∈ o.anydata ∧ reg.payloadOf? r x = some s := by
  obtain ⟨y, hy, h⟩ := List.mem_filterMap.1 h
  obtain ⟨t, ht, h⟩ := Option.map_eq_some_iff.1 h
  cases h
  exact ⟨hy, ht⟩

/-- What comes back of an object when its data is read: of values and objects with equal keys the
place of the first and the content of the last, of choices and augmentations only those that hold
anything, and payloads only below anydata. -/
def restored (reg : Registry) (o : Object) (r : Ref) : Object :=
  o.type.make (fun name => (o.leafValues name).latest id)
    (fun name =>
      match r.declared.find? fun c => c.name == name with
      | none => []
      | some c =>
        if c.kind = .choice then
          (o.objects c.name).attach.filterMap fun ⟨x, hx⟩ =>
            have := Object.sizeOf_lt_of_mem_members hx
            (reg.nodeOfClass? x.className).bind fun s =>
              if (reg.content x s).isEmpty then none else some (restored reg x s)
        else
          ((o.objects c.name).attach.latest fun x => (reg.objectNode x.1 c).key).map fun ⟨x, hx⟩ =>
            have := Object.sizeOf_lt_of_mem_members hx
            restored reg x c)
    (r.augments.filterMap fun augment =>
      match h : augment.className.bind o.augmentation? with
      | none => none
      | some x =>
        have : sizeOf x < sizeOf o := by
          obtain ⟨_, _, h⟩ := Option.bind_eq_some_iff.1 h
          exact Object.sizeOf_lt_of_mem_augmentations (List.mem_of_find?_eq_some h)
        if (reg.content x augment).isEmpty then none else some (restored reg x augment))
    (if r.kind = .anydata then
      ((reg.payloadParts o r).attach.latest fun p => (reg.objectNode p.1.1 p.1.2).key).map
        fun ⟨(x, s), h⟩ =>
          have := Object.sizeOf_lt_of_mem_anydata (mem_anydata_of_mem_payloadParts h).1
          restored reg x s
    else [])
termination_by sizeOf o

/-- What comes back from behind a layer, if anything shows there. -/
def restoredBehind (reg : Registry) (s : Ref) (x : Object) : Option Object :=
  if (reg.content x s).isEmpty then none else some (reg.restored x s)

/-- The objects that come back in the field of a child. -/
def restoredIn (reg : Registry) (o : Object) (child : Ref) : List Object :=
  if child.kind = .choice then
    (o.objects child.name).filterMap fun x =>
      (reg.nodeOfClass? x.className).bind fun s => reg.restoredBehind s x
  else ((o.objects child.name).latest fun x => (reg.objectNode x child).key).map fun x =>
    reg.restored x child

/-- The objects that come back under a name. -/
def restoredObjects (reg : Registry) (o : Object) (r : Ref) (name : String) : List Object :=
  match r.declared.find? fun c => c.name == name with
  | none => []
  | some c => reg.restoredIn o c

/-- The augmentations that come back, in the order of the augments. -/
def restoredAugmentations (reg : Registry) (o : Object) (r : Ref) : List Object :=
  r.augments.filterMap fun augment =>
    (augment.className.bind o.augmentation?).bind (reg.restoredBehind augment)

/-- The payloads that come back. -/
def restoredAnydata (reg : Registry) (o : Object) (r : Ref) : List Object :=
  if r.kind = .anydata then
    ((reg.payloadParts o r).latest fun p => (reg.objectNode p.1 p.2).key).map fun p =>
      reg.restored p.1 p.2
  else []

/-- The items that are left of a sequence do not depend on what is known about them. -/
private theorem map_latest_attach {α β κ : Type} [DecidableEq κ] (key : α → κ) (xs : List α)
    (f : α → β) :
    ((xs.attach.latest fun x => key x.1).map fun x => f x.1) = (xs.latest key).map f := by
  conv_rhs => rw [← List.attach_map_subtype_val xs, List.latest_map, List.map_map]
  rfl

theorem restored_eq (reg : Registry) (o : Object) (r : Ref) :
    reg.restored o r = o.type.make (fun name => (o.leafValues name).latest id)
      (reg.restoredObjects o r) (reg.restoredAugmentations o r) (reg.restoredAnydata o r) := by
  rw [restored]
  congr 1
  · funext name
    rw [restoredObjects]
    cases r.declared.find? fun c => c.name == name with
    | none => rfl
    | some c =>
      simp only [restoredIn]
      split
      · rw [List.filterMap_subtype (g := fun x => (reg.nodeOfClass? x.className).bind fun s =>
          reg.restoredBehind s x) (fun x hx => rfl), List.unattach_attach]
      · exact map_latest_attach (fun x => (reg.objectNode x c).key) _ fun x => reg.restored x c
  · rw [restoredAugmentations]
    refine List.filterMap_congr fun augment _ => ?_
    split
    · next hx => rw [hx]; rfl
    · next x hx =>
      change reg.restoredBehind augment x = _
      rw [hx]
      rfl
  · rw [restoredAnydata]
    split
    · exact map_latest_attach (fun p : Object × Ref => (reg.objectNode p.1 p.2).key) _
        fun p => reg.restored p.1 p.2
    · rfl

variable {reg : Registry} {m : Model} {o x y : Object} {r s child augment : Ref} {p : Placed}

/-! ### Reading what comes back -/

@[simp]
theorem type_restored : (reg.restored o r).type = o.type := by
  rw [restored_eq, Class.type_make]

@[simp]
theorem className_restored : (reg.restored o r).className = o.className := by
  rw [Object.className, type_restored]
  rfl

theorem leafValues_restored {name : String} : (reg.restored o r).leafValues name =
    if name ∈ o.type.valueNames then (o.leafValues name).latest id else [] := by
  rw [restored_eq, Class.leafValues_make]

theorem objects_restored {name : String} : (reg.restored o r).objects name =
    if name ∈ o.type.objectNames then reg.restoredObjects o r name else [] := by
  rw [restored_eq, Class.objects_make]

theorem augmentations_restored :
    (reg.restored o r).augmentations = reg.restoredAugmentations o r := by
  rw [restored_eq, Class.augmentations_make]

theorem anydata_restored : (reg.restored o r).anydata = reg.restoredAnydata o r := by
  rw [restored_eq, Class.anydata_make]

theorem restoredBehind_eq_some_iff :
    reg.restoredBehind s x = some y ↔ reg.content x s ≠ [] ∧ y = reg.restored x s := by
  unfold restoredBehind
  split
  · next h => simp [List.isEmpty_iff.1 h]
  · next h =>
    have h : reg.content x s ≠ [] := mt List.isEmpty_iff.2 h
    simp [h, eq_comm]

theorem length_restoredIn_le : (reg.restoredIn o child).length ≤ (o.objects child.name).length := by
  unfold restoredIn
  split
  · exact List.length_filterMap_le _ _
  · rw [List.length_map]
    exact List.length_latest_le _ _

theorem payloadOf?_congr (h : x.className = y.className) :
    reg.payloadOf? r x = reg.payloadOf? r y := by
  rw [payloadOf?, payloadOf?, h]

/-- An augmentation that comes back is of the class of its augment. -/
theorem mem_restoredAugmentations_iff : y ∈ reg.restoredAugmentations o r ↔
    ∃ augment ∈ r.augments, ∃ c, augment.className = some c ∧ ∃ x, o.augmentation? c = some x ∧
      reg.content x augment ≠ [] ∧ y = reg.restored x augment := by
  simp only [restoredAugmentations, List.mem_filterMap, Option.bind_eq_some_iff,
    restoredBehind_eq_some_iff]
  refine exists_congr fun augment => and_congr_right fun _ => ?_
  constructor
  · rintro ⟨x, ⟨c, hc, hx⟩, hy⟩
    exact ⟨c, hc, x, hx, hy⟩
  · rintro ⟨c, hc, x, hx, hy⟩
    exact ⟨x, ⟨c, hc, hx⟩, hy⟩

theorem className_of_augmentation? {c : String} (h : o.augmentation? c = some x) :
    x.className = c := by
  simpa using List.find?_some h

theorem mem_restoredAnydata_iff : y ∈ reg.restoredAnydata o r ↔
    r.kind = .anydata ∧ ∃ p ∈ (reg.payloadParts o r).latest fun p => (reg.objectNode p.1 p.2).key,
      y = reg.restored p.1 p.2 := by
  unfold restoredAnydata
  split
  · next h => simp [h, eq_comm]
  · next h => simp [h]

theorem payloadContent_eq (reg : Registry) (o : Object) (r : Ref) :
    reg.payloadContent o r = (reg.payloadParts o r).map fun p =>
      { place := { node := p.2 }, data := reg.objectNode p.1 p.2 } := by
  rw [payloadParts, List.map_filterMap, payloadContent]
  simp only [Option.map_map, Function.comp_def]

section Described

variable (h : reg.Described m) (hr : r.model = m)
include h hr

/-- Augments of a node differ in class. -/
theorem Described.eq_of_augment_class {a b : Ref} (ha : a ∈ r.augments) (hb : b ∈ r.augments)
    {c : String} (hac : a.className = some c) (hbc : b.className = some c) : a = b :=
  h.sole.eq_of_className ((Ref.model_of_mem_augments ha).trans hr)
    ((Ref.model_of_mem_augments hb).trans hr) hac hbc

theorem Described.restoredObjects_eq (hc : child ∈ r.declared) :
    reg.restoredObjects o r child.name = reg.restoredIn o child := by
  have hfind : (r.declared.find? fun c => c.name == child.name) = some child :=
    List.find?_eq_some_of_unique hc (by simp) fun c hc' hname =>
      List.eq_of_nodup_map (h.nodup_declared r (Ref.mem_refs_iff.2 hr)) hc' hc (by simpa using hname)
  rw [restoredObjects, hfind]

/-- The augmentations that come back are of different classes, like the augments that they stand
for. -/
theorem Described.nodup_augmentations_restored :
    ((reg.restored o r).augmentations.map Object.className).Nodup := by
  have hl : r.model.Linked := hr.symm ▸ h.sole.linked
  -- An augmentation that comes back has the class of its augment.
  have hclass {augment : Ref} {c : String} (hc : ((augment.className.bind o.augmentation?).bind
      (reg.restoredBehind augment)).map Object.className = some c) :
      augment.className = some c := by
    obtain ⟨y, hy, rfl⟩ := Option.map_eq_some_iff.1 hc
    obtain ⟨x, hx, hy⟩ := Option.bind_eq_some_iff.1 hy
    obtain ⟨d, hd, hx⟩ := Option.bind_eq_some_iff.1 hx
    obtain ⟨-, rfl⟩ := restoredBehind_eq_some_iff.1 hy
    rw [hd, className_restored, className_of_augmentation? hx]
  rw [augmentations_restored, restoredAugmentations, List.map_filterMap]
  refine List.pairwise_filterMap.2 ((Ref.nodup_augments hl).imp_of_mem ?_)
  rintro a b ha hb hne c hca _ hcb rfl
  exact hne (h.eq_of_augment_class hr ha hb (hclass hca) (hclass hcb))

/-- The augmentation for an augment comes back if anything shows behind the augment. -/
theorem Described.augmentation?_restored (ha : augment ∈ r.augments) :
    augment.className.bind (reg.restored o r).augmentation? =
      (augment.className.bind o.augmentation?).bind (reg.restoredBehind augment) := by
  cases hc : augment.className with
  | none => rfl
  | some c =>
    rw [Option.bind_some, Option.bind_some, Object.augmentation?, augmentations_restored]
    -- All that comes back of this class comes back of the one augmentation of this class.
    have hunique {y : Object} (hy : y ∈ reg.restoredAugmentations o r) (hyc : y.className = c) :
        (o.augmentation? c).bind (reg.restoredBehind augment) = some y := by
      obtain ⟨b, hb, d, hd, x, hx, hne, rfl⟩ := mem_restoredAugmentations_iff.1 hy
      obtain rfl : d = c := by
        rw [← className_of_augmentation? hx, ← hyc, className_restored]
      obtain rfl := h.eq_of_augment_class hr ha hb hc hd
      rw [hx, Option.bind_some, restoredBehind_eq_some_iff]
      exact ⟨hne, rfl⟩
    cases hback : (o.augmentation? c).bind (reg.restoredBehind augment) with
    | none =>
      refine List.find?_eq_none.2 fun y hy hyc => ?_
      rw [hunique hy (by simpa using hyc)] at hback
      cases hback
    | some y =>
      obtain ⟨x, hx, hy⟩ := Option.bind_eq_some_iff.1 hback
      obtain ⟨hne, rfl⟩ := restoredBehind_eq_some_iff.1 hy
      refine List.find?_eq_some_of_unique
        (mem_restoredAugmentations_iff.2 ⟨augment, ha, c, hc, x, hx, hne, rfl⟩)
        (by simp [className_of_augmentation? hx]) fun z hz hzc => ?_
      have := hunique hz (by simpa using hzc)
      rw [hback] at this
      exact (Option.some.inj this).symm

variable (hh : HoldsObjects r)
include hh

/-- What comes back in the field of a child. -/
theorem Described.objects_restored (ht : reg.Typed o r) (hc : child ∈ r.declared)
    (hk : child.kind.isLeafLike = false) :
    (reg.restored o r).objects child.name = reg.restoredIn o child := by
  obtain ⟨f, hf⟩ := h.classified.exists_field hr hh ht.here.1 hc
  rw [Registry.objects_restored, if_pos (hf.mem_objectNames hk), h.restoredObjects_eq hr hc]

/-- What comes back of the values of a leaf or leaf-list. -/
theorem Described.leafValues_restored (ht : reg.Typed o r) (hc : child ∈ r.declared)
    (hk : child.kind.isLeafLike = true) :
    (reg.restored o r).leafValues child.name = (o.leafValues child.name).latest id := by
  obtain ⟨f, hf⟩ := h.classified.exists_field hr hh ht.here.1 hc
  rw [Registry.leafValues_restored, if_pos (hf.mem_valueNames hk)]

omit h hr hh in
theorem mem_restoredIn_iff (hk : child.kind ≠ .choice) : y ∈ reg.restoredIn o child ↔
    ∃ x ∈ (o.objects child.name).latest fun x => (reg.objectNode x child).key,
      y = reg.restored x child := by
  rw [restoredIn, if_neg hk, List.mem_map]
  simp only [eq_comm (a := y)]

omit h hr hh in
/-- A case comes back in a choice if anything shows of it. -/
theorem mem_restoredIn_choice_iff (hk : child.kind = .choice) : y ∈ reg.restoredIn o child ↔
    ∃ x ∈ o.objects child.name, ∃ s, reg.nodeOfClass? x.className = some s ∧
      reg.content x s ≠ [] ∧ y = reg.restored x s := by
  rw [restoredIn, if_pos hk]
  simp only [List.mem_filterMap, Option.bind_eq_some_iff, restoredBehind_eq_some_iff]

/-! ### Parts -/

/-- The parts of what comes back are what comes back of parts. -/
theorem Described.part_restored (ht : reg.Typed o r) (hp : reg.Part (reg.restored o r) r y s) :
    ∃ x, reg.Part o r x s ∧ y = reg.restored x s := by
  -- Each kind of slot is read off what comes back in it.
  cases hp with
  | field slot inner mem =>
    obtain ⟨hc, hk⟩ := field_mem_slots_iff.1 slot
    rw [h.objects_restored hr hh ht hc inner] at mem
    obtain ⟨x, hx, rfl⟩ := (mem_restoredIn_iff hk).1 mem
    exact ⟨x, .field (field_mem_slots_iff.2 ⟨hc, hk⟩) inner (List.mem_of_mem_latest hx), rfl⟩
  | @layer l y slot =>
    cases l with
    | case choice s =>
      obtain ⟨hc, hk, hy, hnode⟩ := case_mem_slots_iff.1 slot
      rw [h.objects_restored hr hh ht hc (by simp [hk, Kind.isLeafLike])] at hy
      obtain ⟨x, hx, s', hnode', -, rfl⟩ := (mem_restoredIn_choice_iff hk).1 hy
      rw [className_restored, hnode'] at hnode
      cases hnode
      exact ⟨x, .layer (case_mem_slots_iff.2 ⟨hc, hk, hx, hnode'⟩), rfl⟩
    | augment augment =>
      obtain ⟨ha, hy⟩ := augment_mem_slots_iff.1 slot
      rw [h.augmentation?_restored hr ha] at hy
      obtain ⟨x, hx, hy⟩ := Option.bind_eq_some_iff.1 hy
      obtain ⟨-, rfl⟩ := restoredBehind_eq_some_iff.1 hy
      exact ⟨x, .layer (augment_mem_slots_iff.2 ⟨ha, hx⟩), rfl⟩
  | payload slot mem node =>
    rw [anydata_restored, mem_restoredAnydata_iff] at mem
    obtain ⟨hk, ⟨x, s'⟩, hp, rfl⟩ := mem
    obtain ⟨hx, hnode⟩ := mem_anydata_of_mem_payloadParts (List.mem_of_mem_latest hp)
    rw [payloadOf?_congr className_restored, hnode] at node
    cases node
    exact ⟨x, .payload (payloads_mem_slots_iff.2 hk) hx hnode, rfl⟩

/-- What holds of all that comes back, one object at a time, holds throughout. -/
theorem Described.throughout_restored {P Q : Object → Ref → Prop}
    (hP : ∀ o r, r.model = m → HoldsObjects r → reg.Typed o r → reg.Throughout reg.Selects o r →
      reg.Throughout Q o r → P (reg.restored o r) r)
    (ht : reg.Typed o r) (hs : reg.Throughout reg.Selects o r) (hq : reg.Throughout Q o r) :
    reg.Throughout P (reg.restored o r) r := by
  induction hn : sizeOf o using Nat.strongRecOn generalizing o r with
  | ind n ih =>
    refine throughout_iff.2 ⟨hP o r hr hh ht hs hq, fun y s hp => ?_⟩
    obtain ⟨x, hx, rfl⟩ := h.part_restored hr hh ht hp
    obtain ⟨hsm, hsh⟩ := h.classified.holdsObjects_of_part hr hh hs.here hx
    exact ih _ (hn ▸ hx.sizeOf_lt) hsm hsh (ht.part hx) (hs.part hx) (hq.part hx) rfl

/-- What comes back is proper. -/
theorem Described.proper_restored (ht : reg.Typed o r) : (reg.restored o r).Proper := by
  obtain ⟨hclass, hproper⟩ := ht.here
  constructor
  · rw [restored_eq, Class.type_make, Class.augmentations_make, Class.anydata_make,
      Class.make_shape]
  -- What comes back in a field is never more than was there, so that the bounds hold again.
  · intro f hf hsingle
    rw [type_restored] at hf
    have hle := hproper.single_values f hf hsingle
    rw [Registry.leafValues_restored]
    split
    · exact Nat.le_trans (List.length_latest_le _ _) hle
    · simp
  · intro f hf hsingle
    rw [type_restored] at hf
    obtain ⟨c, hc, hfield⟩ := h.classified.exists_child hr hh hclass hf
    have hle := hproper.single_objects f hf hsingle
    rw [hfield.name_eq] at hle ⊢
    rw [Registry.objects_restored, h.restoredObjects_eq hr hc]
    split
    · exact Nat.le_trans length_restoredIn_le hle
    · simp
  · intro f hf type htype v hv
    rw [type_restored] at hf
    rw [Registry.leafValues_restored] at hv
    split at hv
    · exact hproper.stored f hf type htype v (List.mem_of_mem_latest hv)
    · cases hv
  · exact h.nodup_augmentations_restored hr

/-- What comes back is typed. -/
theorem Described.typed_restored (ht : reg.Typed o r) (hs : reg.Throughout reg.Selects o r) :
    reg.Typed (reg.restored o r) r :=
  h.throughout_restored hr hh (fun o r hr hh ht _ _ =>
    ⟨by rw [type_restored]; exact ht.here.1, h.proper_restored hr hh ht⟩) ht hs ht

/-! ### The data of what comes back -/

omit h hr hh in
theorem leafNode_key_inj (hk : child.kind = .leafList) {v w : LeafValue} :
    (leafNode child v).key = (leafNode child w).key ↔ v = w := by
  have hne : child.kind ≠ .leaf := by simp [hk]
  simp [leafNode, hne, Tree.Node.key]

/-- The values that are left give the data nodes that are left. -/
theorem Described.leafContent_restored (ht : reg.Typed o r) (hc : child ∈ r.declared)
    (hk : child.kind.isLeafLike = true) :
    leafContent (reg.restored o r) child = (leafContent o child).latest fun p => p.data.key := by
  rw [leafContent, leafContent, h.leafValues_restored hr hh ht hc hk, List.latest_map]
  refine congrArg (List.map _) ?_
  have hkind : child.kind = .leaf ∨ child.kind = .leafList := by simpa [Kind.isLeafLike] using hk
  rcases hkind with hleaf | hlist
  · have hle := h.classified.length_leafValues_le hr hh ht hc hleaf
    rw [List.latest_of_length_le_one hle, List.latest_of_length_le_one hle]
  · exact List.latest_congr fun v _ w _ => (leafNode_key_inj hlist).symm

section Parts

variable (hparts : ∀ {x s}, reg.Part o r x s → reg.content (reg.restored x s) s = reg.kept x s)
include hparts

omit h hr hh in
theorem objectNode_restored_of_part (hp : reg.Part o r x s) :
    reg.objectNode (reg.restored x s) s = reg.objectNode x s := by
  rw [objectNode_eq_kept, objectNode_eq_kept, kept, hparts hp, kept, List.latest_latest]

omit h hr hh in
/-- What is seen behind a layer that comes back; of one that does not, nothing was seen before. -/
theorem layerContent_restored {l : Layer} (hslot : .layer l x ∈ reg.slots o r) :
    ((reg.restoredBehind l.node x).toList.flatMap fun y =>
      reg.slotContent (reg.restored o r) r (.layer l y)) = reg.keptOf o r (.layer l x) := by
  rw [keptOf, slotContent, List.latest_map]
  unfold restoredBehind
  split
  · next hempty =>
    rw [List.isEmpty_iff.1 hempty]
    rfl
  · simp only [Option.toList_some, List.flatMap_singleton, slotContent]
    rw [hparts (.layer hslot)]
    rfl

/-- What comes back of a declared child gives what was left of its data. -/
theorem Described.fieldContent_restored (ht : reg.Typed o r) (hc : child ∈ r.declared) :
    (reg.slotsOf (reg.restored o r) child).flatMap (reg.slotContent (reg.restored o r) r) =
      (reg.slotsOf o child).flatMap (reg.keptOf o r) := by
  by_cases hk : child.kind = .choice
  · rw [slotsOf, if_pos hk, slotsOf, if_pos hk,
      h.objects_restored hr hh ht hc (by simp [hk, Kind.isLeafLike]), restoredIn, if_pos hk]
    simp only [List.filterMap_eq_flatMap_toList, List.flatMap_assoc]
    refine List.flatMap_congr fun x hx => ?_
    cases hnode : reg.nodeOfClass? x.className with
    | none => rfl
    | some s =>
      simp only [Option.bind_some, Option.map_some, Option.toList_some, List.flatMap_singleton]
      rw [← layerContent_restored hparts (case_mem_slots_iff.2 ⟨hc, hk, hx, hnode⟩)]
      refine List.flatMap_congr fun y hy => ?_
      obtain ⟨-, rfl⟩ := restoredBehind_eq_some_iff.1 (Option.mem_toList.1 hy)
      simp [hnode]
  · rw [slotsOf, if_neg hk, slotsOf, if_neg hk, List.flatMap_singleton, List.flatMap_singleton,
      keptOf, slotContent, slotContent]
    split
    · next hleaf => exact h.leafContent_restored hr hh ht hc hleaf
    · next hleaf =>
      have hinner : child.kind.isLeafLike = false := by simpa using hleaf
      rw [memberContent, memberContent, h.objects_restored hr hh ht hc hinner, restoredIn,
        if_neg hk, List.latest_map, List.map_map]
      refine List.map_congr_left fun x hx => ?_
      have hp : reg.Part o r x child :=
        .field (field_mem_slots_iff.2 ⟨hc, hk⟩) hinner (List.mem_of_mem_latest hx)
      simp only [Function.comp_apply, objectNode_restored_of_part hparts hp]

omit hh in
/-- What comes back of the augmentations gives what was left of their data. -/
theorem Described.augmentContent_restored :
    (augmentSlots (reg.restored o r) r).flatMap (reg.slotContent (reg.restored o r) r) =
      (augmentSlots o r).flatMap (reg.keptOf o r) := by
  simp only [augmentSlots, List.filterMap_eq_flatMap_toList, List.flatMap_assoc]
  refine List.flatMap_congr fun augment ha => ?_
  rw [h.augmentation?_restored hr ha]
  cases hx : augment.className.bind o.augmentation? with
  | none => rfl
  | some x =>
    simp only [Option.bind_some, Option.map_some, Option.toList_some, List.flatMap_singleton]
    rw [← layerContent_restored hparts (augment_mem_slots_iff.2 ⟨ha, hx⟩)]
    simp only [Layer.node]
    cases reg.restoredBehind augment x <;> simp

omit h hr hh in
/-- The payloads that come back give what was left of their data. -/
theorem payloadContent_restored (hk : r.kind = .anydata) :
    reg.payloadContent (reg.restored o r) r =
      (reg.payloadContent o r).latest fun p => p.data.key := by
  rw [payloadContent, anydata_restored, restoredAnydata, if_pos hk, payloadContent_eq,
    List.latest_map, List.filterMap_map, ← List.filterMap_eq_map]
  refine List.filterMap_congr fun p hp => ?_
  obtain ⟨x, s⟩ := p
  obtain ⟨hx, hs⟩ := mem_anydata_of_mem_payloadParts (List.mem_of_mem_latest hp)
  simp only [Function.comp_apply, payloadOf?_congr className_restored, hs, Option.map_some,
    objectNode_restored_of_part hparts (.payload (payloads_mem_slots_iff.2 hk) hx hs)]

end Parts

/-- The content of what comes back is what was left of the content, slot by slot. -/
theorem Described.content_restored (ht : reg.Typed o r) (hs : reg.Throughout reg.Selects o r) :
    reg.content (reg.restored o r) r = reg.kept o r := by
  -- By induction on the size of the object, of which the parts are smaller.
  induction hn : sizeOf o using Nat.strongRecOn generalizing o r with
  | ind n ih =>
    have hparts {x : Object} {s : Ref} (hp : reg.Part o r x s) :
        reg.content (reg.restored x s) s = reg.kept x s := by
      obtain ⟨hsm, hsh⟩ := h.classified.holdsObjects_of_part hr hh hs.here hp
      exact ih _ (hn ▸ hp.sizeOf_lt) hsm hsh (ht.part hp) (hs.part hp) rfl
    rw [h.kept_eq hr hh ht hs, content_eq, slots, slots]
    simp only [List.flatMap_append, List.flatMap_assoc]
    rw [List.flatMap_congr fun c hc => h.fieldContent_restored hr hh hparts ht hc,
      h.augmentContent_restored hr hparts, List.append_right_inj]
    split
    · next hk => simpa [slotContent, keptOf] using payloadContent_restored hparts hk
    · rfl

/-- The data of what comes back is the data that was read. -/
theorem Described.objectNode_restored (ht : reg.Typed o r) (hs : reg.Throughout reg.Selects o r) :
    reg.objectNode (reg.restored o r) r = reg.objectNode o r := by
  rw [objectNode_eq_kept, objectNode_eq_kept, kept, h.content_restored hr hh ht hs, kept,
    List.latest_latest]

/-- The key leaves of what comes back are those of the object, wherever one was replaced. -/
theorem Described.complete_restored (ht : reg.Typed o r) (hw : reg.Writable o r) :
    reg.Complete (reg.restored o r) r := by
  refine ⟨fun c hc hk y hy => ?_, fun hk key hkey => ?_, fun hk y hy => ?_⟩
  · rw [h.objects_restored hr hh ht hc (by simp [hk, Kind.isLeafLike])] at hy
    obtain ⟨x, hx, s, -, -, rfl⟩ := (mem_restoredIn_choice_iff hk).1 hy
    rw [className_restored]
    exact hw.here.selects c hc hk x hx
  · obtain ⟨p, hp, hleaf, rfl⟩ := hw.here.keys hk key hkey
    have hmem : p.data.key ∈ (reg.kept o r).map fun p => p.data.key :=
      List.mem_map_key_latest.2 (List.mem_map_of_mem (f := fun p : Placed => p.data.key) hp)
    obtain ⟨q, hq, hqp⟩ := List.mem_map.1 hmem
    have hplace := h.classified.place_eq_of_key_eq hr hh hw.selects (by simp [hk])
      (h.nodup_offers hr hh.kind_ne_choice) (List.mem_of_mem_latest hq) hp hqp
    refine ⟨q, ?_, by rw [hplace]; exact hleaf, by rw [hplace]⟩
    rwa [h.content_restored hr hh ht hw.selects]
  · rw [anydata_restored, mem_restoredAnydata_iff] at hy
    obtain ⟨-, ⟨x, s⟩, hp, rfl⟩ := hy
    obtain ⟨-, hs⟩ := mem_anydata_of_mem_payloadParts (List.mem_of_mem_latest hp)
    exact ⟨s, by rwa [payloadOf?_congr className_restored]⟩

/-- What comes back can be written again. -/
theorem Described.writable_restored (ht : reg.Typed o r) (hw : reg.Writable o r) :
    reg.Writable (reg.restored o r) r :=
  h.throughout_restored hr hh (Q := reg.Complete)
    (fun _ _ hr hh ht _ hw => h.complete_restored hr hh ht hw) ht hw.selects hw

end Described

end Registry

end YangBinding
