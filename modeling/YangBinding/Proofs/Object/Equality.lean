import YangBinding.Proofs.Correspond
import YangBinding.Proofs.Object.Content
import YangBinding.Proofs.Object.Parts

/-!
# Equality of objects

The augmentations of two objects are compared from one side only: there have to be as many on the
other side, and each one is looked up there by its class. That this is an equivalence rests on the
way in which extensions are attached. Of each class no more than the last augmentation is kept, so
that on both sides a class leads to the same augmentation or to none, and what counts is not the
order in which they were attached.

## Main definitions

* `Object.sameExtensions` — equality of the extensions of two objects
* `Object.Attachment`, `Object.attach` — attaching extensions one after the other
* `Object.Attached` — an object whose extensions were attached in this way, as were those of
  everything in it

## Main results

* `Object.beq_iff` — what the equality of two objects consists of
* `Object.sameExtensions_iff` — each class leads to equal augmentations, and payloads are equal in
  order
* `Object.augmentations_attach`, `Object.anydata_attach` — what extensions are kept
* `Object.Attached.parts_induction` — induction over everything in an attached object
* `Object.equality_attached` — equality is an equivalence that ignores the order of augmentations
  and nothing else
-/

/-- A relation that relates everything to itself and what is related to the same is an equivalence.
-/
theorem Equivalence.of_common {α : Type} {r : α → α → Prop} (refl : ∀ a, r a a)
    (common : ∀ {a b c}, r a b → r a c → r b c) : Equivalence r where
  refl := refl
  symm hab := common hab (refl _)
  trans hab hbc := common (common hab (refl _)) hbc

namespace YangBinding.Object

variable {o o' a b c : Object} {name : String}

/-! ### What equality consists of -/

/-- The same extensions: as many augmentations, each one found by its class on the other side, and
the same payloads in the same order. -/
def sameExtensions (o o' : Object) : Bool :=
  o.augmentations.length == o'.augmentations.length &&
    foundIn o.augmentations o'.augmentations && beqAll o.anydata o'.anydata

theorem beqMembers_iff_forall₂ {xs ys : List (String × List Object)} :
    beqMembers xs ys = true ↔ List.Forall₂ (fun x y => x.1 = y.1 ∧
      List.Forall₂ (fun a b => (a == b) = true) x.2 y.2) xs ys := by
  induction xs generalizing ys with
  | nil => cases ys <;> simp [beqMembers]
  | cons x xs ih =>
    cases ys with
    | nil => simp [beqMembers]
    | cons y ys =>
      obtain ⟨name, as⟩ := x
      obtain ⟨name', bs⟩ := y
      simp [beqMembers, beqAll_iff, ih]

/-- Equal objects are of the same type, hold equal things under the same names, in order, and have
the same extensions. -/
theorem beq_iff : (o == o') = true ↔ o.type.typeName = o'.type.typeName ∧ o.leaves = o'.leaves ∧
    List.Forall₂ (fun x y => x.1 = y.1 ∧ List.Forall₂ (fun a b => (a == b) = true) x.2 y.2)
      o.members o'.members ∧ o.sameExtensions o' = true := by
  obtain ⟨c, leaves, members, augmentations, anydata⟩ := o
  obtain ⟨c', leaves', members', augmentations', anydata'⟩ := o'
  change Object.beq _ _ = true ↔ _
  simp only [Object.beq, sameExtensions, Bool.and_eq_true, beq_iff_eq, beqMembers_iff_forall₂,
    and_assoc]
  rfl

/-- Where no object has two augmentations of a class, the extensions are the same if each class
leads to the same augmentation and payloads are the same in order. -/
theorem sameExtensions_iff (h : (o.augmentations.map className).Nodup)
    (h' : (o'.augmentations.map className).Nodup) : o.sameExtensions o' = true ↔
      (∀ name, Option.Rel (fun a b => (a == b) = true) (o.augmentation? name)
        (o'.augmentation? name)) ∧
      List.Forall₂ (fun a b => (a == b) = true) o.anydata o'.anydata := by
  rw [sameExtensions, Bool.and_eq_true, Bool.and_eq_true, beq_iff_eq, foundIn_iff, beqAll_iff,
    List.forall_find?_iff h h']
  rfl

/-! ### Attaching extensions -/

/-- An extension that is attached to an object. -/
inductive Attachment where
  | augmentation (object : Object)
  | anydata (object : Object)

namespace Attachment

/-- The object that is attached. -/
def object : Attachment → Object
  | augmentation object => object
  | anydata object => object

/-- The object if it is attached as an augmentation. -/
def augmentation? : Attachment → Option Object
  | augmentation object => some object
  | anydata _ => none

/-- The object if it is attached as a payload. -/
def anydata? : Attachment → Option Object
  | augmentation _ => none
  | anydata object => some object

/-- The object with the extension. -/
def attachTo (o : Object) : Attachment → Object
  | augmentation object => o.addAugmentation object
  | anydata object => o.addAnydata object

end Attachment

/-- Attaches extensions one after the other. -/
def attach (o : Object) (attachments : List Attachment) : Object :=
  attachments.foldl Attachment.attachTo o

/-- The augmentation that is attached last of those of a class. -/
def lastOf? (name : String) (attachments : List Attachment) : Option Object :=
  ((attachments.filterMap Attachment.augmentation?).filter fun a => a.className == name).getLast?

/-- An object without extensions. -/
abbrev bare (type : Class) (leaves : List (String × List LeafValue))
    (members : List (String × List Object)) : Object :=
  mk type leaves members [] []

/-- An object whose extensions were attached one after the other, as were those of everything in
it. -/
inductive Attached : Object → Prop
  | bare {type : Class} {leaves : List (String × List LeafValue)}
      {members : List (String × List Object)}
      (members_attached : ∀ entry ∈ members, ∀ o ∈ entry.2, Attached o) :
      Attached (.bare type leaves members)
  | addAugmentation {o a : Object} (object : Attached o) (augmentation : Attached a) :
      Attached (o.addAugmentation a)
  | addAnydata {o payload : Object} (object : Attached o) (anydata : Attached payload) :
      Attached (o.addAnydata payload)

section Attach

variable {type : Class} {leaves : List (String × List LeafValue)}
  {members : List (String × List Object)} {attachments : List Attachment}

/-- Of each class the last augmentation is kept. -/
theorem augmentations_attach : ((bare type leaves members).attach attachments).augmentations =
    (attachments.filterMap Attachment.augmentation?).latest className := by
  -- The last attachment takes effect last, so the induction goes from the end.
  induction attachments using List.reverseRecOn with
  | nil => rfl
  | append_singleton attachments attachment ih =>
    rw [attach, List.foldl_concat, ← attach, List.filterMap_append]
    cases attachment with
    | augmentation a =>
      simp [Attachment.attachTo, Attachment.augmentation?, insertAugmentation_eq, ih,
        List.latest_concat]
    | anydata payload =>
      simp [Attachment.attachTo, Attachment.augmentation?, ih, List.filterMap_cons]

/-- All payloads are kept, in order. -/
theorem anydata_attach : ((bare type leaves members).attach attachments).anydata =
    attachments.filterMap Attachment.anydata? := by
  induction attachments using List.reverseRecOn with
  | nil => rfl
  | append_singleton attachments attachment ih =>
    rw [attach, List.foldl_concat, ← attach, List.filterMap_append]
    cases attachment with
    | augmentation a => simp [Attachment.attachTo, Attachment.anydata?, ih]
    | anydata payload => simp [Attachment.attachTo, Attachment.anydata?, ih]

/-- A class leads to the last of its augmentations. -/
theorem augmentation?_attach (name : String) :
    ((bare type leaves members).attach attachments).augmentation? name =
      lastOf? name attachments := by
  rw [augmentation?, augmentations_attach]
  exact List.find?_latest

theorem map_className_attach :
    ((bare type leaves members).attach attachments).augmentations.map className =
      ((attachments.filterMap Attachment.augmentation?).map className).eraseDups := by
  rw [augmentations_attach, List.map_key_latest]

theorem nodup_classes_attach :
    (((bare type leaves members).attach attachments).augmentations.map className).Nodup := by
  rw [augmentations_attach]
  exact List.nodup_map_key_latest className _

/-- Attached extensions are the same if payloads are equal in order and each class has equal last
augmentations or none. -/
theorem sameExtensions_attach_iff {type' : Class} {leaves' : List (String × List LeafValue)}
    {members' : List (String × List Object)} {xs ys : List Attachment} :
    ((bare type leaves members).attach xs).sameExtensions
        ((bare type' leaves' members').attach ys) = true ↔
      List.Forall₂ (fun a b => (a == b) = true) (xs.filterMap Attachment.anydata?)
        (ys.filterMap Attachment.anydata?) ∧
      ∀ name, Option.Rel (fun a b => (a == b) = true) (lastOf? name xs) (lastOf? name ys) := by
  rw [sameExtensions_iff nodup_classes_attach nodup_classes_attach, and_comm, anydata_attach,
    anydata_attach]
  simp only [augmentation?_attach]

end Attach

/-! ### What is in an attached object -/

/-- The objects directly in an object. -/
def parts (o : Object) : List Object :=
  o.members.flatMap Prod.snd ++ (o.augmentations ++ o.anydata)

theorem mem_parts_of_mem_members {entry : String × List Object} (hentry : entry ∈ o.members)
    (ha : a ∈ entry.2) : a ∈ o.parts :=
  List.mem_append_left _ (List.mem_flatMap.2 ⟨entry, hentry, ha⟩)

theorem mem_parts_of_mem_augmentation? (h : a ∈ o.augmentation? name) : a ∈ o.parts :=
  List.mem_append_right _ (List.mem_append_left _ (List.mem_of_find?_eq_some h))

theorem mem_parts_of_mem_anydata (h : a ∈ o.anydata) : a ∈ o.parts :=
  List.mem_append_right _ (List.mem_append_right _ h)

theorem mem_parts_bare {type : Class} {leaves : List (String × List LeafValue)}
    {members : List (String × List Object)} :
    a ∈ (bare type leaves members).parts ↔ ∃ entry ∈ members, a ∈ entry.2 := by
  change a ∈ members.flatMap Prod.snd ++ ([] ++ []) ↔ _
  simp

theorem mem_parts_addAugmentation (h : b ∈ (o.addAugmentation a).parts) :
    b = a ∨ b ∈ o.parts := by
  obtain ⟨type, leaves, members, augmentations, anydata⟩ := o
  change b ∈ members.flatMap Prod.snd ++ (insertAugmentation a augmentations ++ anydata) at h
  change b = a ∨ b ∈ members.flatMap Prod.snd ++ (augmentations ++ anydata)
  rw [insertAugmentation_eq] at h
  simp only [List.mem_append] at h ⊢
  obtain h | h | h := h
  · exact .inr (.inl h)
  · exact (List.mem_upsert h).imp_right fun h => .inr (.inl h)
  · exact .inr (.inr (.inr h))

theorem mem_parts_addAnydata : b ∈ (o.addAnydata a).parts ↔ b = a ∨ b ∈ o.parts := by
  obtain ⟨type, leaves, members, augmentations, anydata⟩ := o
  change b ∈ members.flatMap Prod.snd ++ (augmentations ++ (anydata ++ [a])) ↔
    b = a ∨ b ∈ members.flatMap Prod.snd ++ (augmentations ++ anydata)
  simp only [List.mem_append, List.mem_singleton]
  tauto

namespace Attached

/-- No two augmentations are of the same class. -/
theorem nodup_classes (h : o.Attached) : (o.augmentations.map className).Nodup := by
  induction h with
  | bare => exact List.nodup_nil
  | addAugmentation _ _ ih =>
    rw [augmentations_addAugmentation, insertAugmentation_eq]
    exact List.nodup_map_key_upsert ih
  | addAnydata _ _ ih =>
    rw [augmentations_addAnydata]
    exact ih

/-- What is directly in an attached object is attached. -/
theorem of_mem_parts (h : o.Attached) : ∀ part ∈ o.parts, part.Attached := by
  induction h with
  | bare hmembers =>
    intro part hpart
    obtain ⟨entry, hentry, hpart⟩ := mem_parts_bare.1 hpart
    exact hmembers entry hentry part hpart
  | addAugmentation _ ha ih =>
    intro part hpart
    obtain rfl | hpart := mem_parts_addAugmentation hpart
    · exact ha
    · exact ih part hpart
  | addAnydata _ hp ih =>
    intro part hpart
    obtain rfl | hpart := mem_parts_addAnydata.1 hpart
    · exact hp
    · exact ih part hpart

/-- What passes from the parts of attached objects to the objects holds of all attached objects. -/
theorem parts_induction {P : Object → Prop} (h : o.Attached)
    (step : ∀ o, o.Attached → (∀ part ∈ o.parts, P part) → P o) : P o := by
  -- Attaching changes the object, so what the induction carries is said of the parts only.
  refine step o h ?_
  induction h with
  | bare hmembers ih =>
    intro part hpart
    obtain ⟨entry, hentry, hpart⟩ := mem_parts_bare.1 hpart
    exact step part (hmembers entry hentry part hpart) (ih entry hentry part hpart)
  | addAugmentation _ ha ih iha =>
    intro part hpart
    obtain rfl | hpart := mem_parts_addAugmentation hpart
    · exact step part ha iha
    · exact ih part hpart
  | addAnydata _ hp ih ihp =>
    intro part hpart
    obtain rfl | hpart := mem_parts_addAnydata.1 hpart
    · exact step part hp ihp
    · exact ih part hpart

theorem attach (h : o.Attached) {attachments : List Attachment}
    (hattachments : ∀ attachment ∈ attachments, attachment.object.Attached) :
    (o.attach attachments).Attached := by
  induction attachments using List.reverseRecOn with
  | nil => exact h
  | append_singleton attachments attachment ih =>
    rw [Object.attach, List.foldl_concat, ← Object.attach]
    have ho := ih fun attachment ha => hattachments attachment (List.mem_append_left _ ha)
    have ha := hattachments attachment (by simp)
    cases attachment with
    | augmentation a => exact ho.addAugmentation ha
    | anydata payload => exact ho.addAnydata ha

/-! ### Equality of attached objects -/

theorem sameExtensions_refl (h : o.Attached) (hparts : ∀ part ∈ o.parts, (part == part) = true) :
    o.sameExtensions o = true := by
  refine (sameExtensions_iff h.nodup_classes h.nodup_classes).2 ⟨fun name => ?_, ?_⟩
  · cases ha : o.augmentation? name with
    | none => exact .none
    | some a => exact .some (hparts a (mem_parts_of_mem_augmentation? ha))
  · exact List.forall₂_same.2 fun a ha => hparts a (mem_parts_of_mem_anydata ha)

theorem beq_self (h : o.Attached) : (o == o) = true :=
  h.parts_induction fun _ ho ih =>
    beq_iff.2 ⟨rfl, rfl, List.forall₂_same.2 fun _ hentry => ⟨rfl, List.forall₂_same.2 fun a ha =>
      ih a (mem_parts_of_mem_members hentry ha)⟩, ho.sameExtensions_refl ih⟩

/-- Extensions that are the same as those of a common object are the same if this is so of the
objects in them. -/
theorem sameExtensions_of_common (ha : a.Attached) (hb : b.Attached) (hc : c.Attached)
    (h : ∀ x ∈ a.parts, ∀ y ∈ b.parts, ∀ z ∈ c.parts,
      (x == y) = true → (x == z) = true → (y == z) = true)
    (hab : a.sameExtensions b = true) (hac : a.sameExtensions c = true) :
    b.sameExtensions c = true := by
  obtain ⟨hab, hab'⟩ := (sameExtensions_iff ha.nodup_classes hb.nodup_classes).1 hab
  obtain ⟨hac, hac'⟩ := (sameExtensions_iff ha.nodup_classes hc.nodup_classes).1 hac
  refine (sameExtensions_iff hb.nodup_classes hc.nodup_classes).2 ⟨fun name => ?_, ?_⟩
  · exact Option.rel_of_common (hab name) (hac name) fun x hx y hy z hz =>
      h x (mem_parts_of_mem_augmentation? hx) y (mem_parts_of_mem_augmentation? hy) z
        (mem_parts_of_mem_augmentation? hz)
  · exact List.forall₂_of_common hab' hac' fun x hx y hy z hz =>
      h x (mem_parts_of_mem_anydata hx) y (mem_parts_of_mem_anydata hy) z
        (mem_parts_of_mem_anydata hz)

/-- Objects that equal a common object equal each other. -/
theorem beq_of_common (ha : a.Attached) : ∀ b c : Object, b.Attached → c.Attached →
    (a == b) = true → (a == c) = true → (b == c) = true := by
  refine ha.parts_induction (P := fun a => ∀ b c : Object, b.Attached → c.Attached →
    (a == b) = true → (a == c) = true → (b == c) = true) ?_
  intro a ha ih b c hb hc hab hac
  have hparts : ∀ x ∈ a.parts, ∀ y ∈ b.parts, ∀ z ∈ c.parts,
      (x == y) = true → (x == z) = true → (y == z) = true :=
    fun x hx y hy z hz => ih x hx y z (hb.of_mem_parts y hy) (hc.of_mem_parts z hz)
  obtain ⟨htype, hleaves, hmembers, hextensions⟩ := beq_iff.1 hab
  obtain ⟨htype', hleaves', hmembers', hextensions'⟩ := beq_iff.1 hac
  refine beq_iff.2 ⟨htype.symm.trans htype', hleaves.symm.trans hleaves', ?_,
    ha.sameExtensions_of_common hb hc hparts hextensions hextensions'⟩
  refine List.forall₂_of_common hmembers hmembers' fun x hx y hy z hz hxy hxz =>
    ⟨hxy.1.symm.trans hxz.1, ?_⟩
  exact List.forall₂_of_common hxy.2 hxz.2 fun x' hx' y' hy' z' hz' =>
    hparts x' (mem_parts_of_mem_members hx hx') y' (mem_parts_of_mem_members hy hy') z'
      (mem_parts_of_mem_members hz hz')

end Attached

/-- Equality is an equivalence of attached objects and of their extensions, and of augmentations
only the order does not matter. Of each class no more than one augmentation is kept, the last, in
the order in which the classes first came. -/
theorem equality_attached :
    (Equivalence fun a b : {o : Object // o.Attached} => (a.1 == b.1) = true) ∧
    (Equivalence fun a b : {o : Object // o.Attached} => a.1.sameExtensions b.1 = true) ∧
    (∀ a : {o : Object // o.Attached}, ∀ part ∈ a.1.parts, part.Attached) ∧
    (∀ a b : Object, (a == b) = true ↔
      a.type.typeName = b.type.typeName ∧ a.leaves = b.leaves ∧
      List.Forall₂ (fun x y => x.1 = y.1 ∧ List.Forall₂ (fun a b => (a == b) = true) x.2 y.2)
        a.members b.members ∧ a.sameExtensions b = true) ∧
    (∀ (c c' : Class) (leaves leaves' : List (String × List LeafValue))
      (members members' : List (String × List Object)) (xs ys : List Attachment),
      ((bare c leaves members).attach xs).sameExtensions
          ((bare c' leaves' members').attach ys) = true ↔
        List.Forall₂ (fun a b => (a == b) = true) (xs.filterMap Attachment.anydata?)
          (ys.filterMap Attachment.anydata?) ∧
        ∀ name, Option.Rel (fun a b => (a == b) = true) (lastOf? name xs) (lastOf? name ys)) ∧
    ∀ (c : Class) (leaves : List (String × List LeafValue)) (members : List (String × List Object))
      (xs : List Attachment),
      let o := (bare c leaves members).attach xs
      (o.augmentations.map className).Nodup ∧
      o.augmentations.map className =
        ((xs.filterMap Attachment.augmentation?).map className).eraseDups ∧
      ∀ name, o.augmentation? name = lastOf? name xs := by
  refine ⟨?_, ?_, ?_, ?_, ?_, ?_⟩
  -- Each object is compared with a common one, so one induction serves symmetry and transitivity.
  · exact Equivalence.of_common (fun a => a.2.beq_self)
      fun {a b c} => a.2.beq_of_common b c b.2 c.2
  · refine Equivalence.of_common (fun a => a.2.sameExtensions_refl fun part hpart =>
      (a.2.of_mem_parts part hpart).beq_self) fun {a b c} => ?_
    exact a.2.sameExtensions_of_common b.2 c.2 fun x hx y hy z hz =>
      (a.2.of_mem_parts x hx).beq_of_common y z (b.2.of_mem_parts y hy) (c.2.of_mem_parts z hz)
  · exact fun a => a.2.of_mem_parts
  · exact fun a b => beq_iff
  · exact fun _ _ _ _ _ _ _ _ => sameExtensions_attach_iff
  · exact fun _ _ _ _ => ⟨nodup_classes_attach, map_className_attach, augmentation?_attach⟩

/-- An object of a class with one leaf. -/
private def flag (className : String) (value : Bool) : Object :=
  bare
    { className, typeName := "flags::" ++ className,
      fields := [⟨"value", "flags::" ++ className, .leaf .bool⟩] }
    [("value", [.bool value])] []

private theorem flag_attached (className : String) (value : Bool) :
    (flag className value).Attached :=
  .bare (by simp)

/-- Two augmentations in either order are the same; one that replaces an earlier one counts alone.
-/
theorem equality_attached_reordered :
    let a := (flag "Outer" true).attach
      [.augmentation (flag "Left" false), .augmentation (flag "Right" true),
        .augmentation (flag "Left" true)]
    let b := (flag "Outer" true).attach
      [.augmentation (flag "Right" true), .augmentation (flag "Left" true)]
    (a == b) = true ∧ (b == a) = true ∧ b.augmentation? "Left" = some (flag "Left" true) ∧
      (a == b.addAugmentation (flag "Left" false)) = false := by
  intro a b
  have ha : a.Attached :=
    (flag_attached "Outer" true).attach (by simp [Attachment.object, flag_attached])
  have hb : b.Attached :=
    (flag_attached "Outer" true).attach (by simp [Attachment.object, flag_attached])
  have hab : (a == b) = true := by decide +kernel
  exact ⟨hab, equality_attached.1.symm (x := ⟨a, ha⟩) (y := ⟨b, hb⟩) hab,
    (equality_attached.2.2.2.2.2 _ _ _ _).2.2 "Left", by decide +kernel⟩

end YangBinding.Object
