import YangBinding.Proofs.Binding.Items

/-!
# Round trips

Objects at the root that are written as data and read back come back exactly if the data shows all of
them. In any case what comes back is written as the same data. What is added to an augment of a choice
has its place in data too, and is written; but no look-up finds it, so that it cannot be read.

## Main definitions

* `Registry.Retained` — an item that comes back as it is
* `Registry.LosslessData` — positioned objects that come back as they are

## Main results

* `Registry.Described.objects_round_trip` — from objects to data and back
* `Registry.Described.data_round_trip` — from data to objects and back
* `Registry.booth_not_read`, `Registry.ticket_not_read` — what is added to an augment of a choice
-/

namespace YangBinding

open Schema (Kind Model Ref)
open YangBinding.Tree (Node ResourceData)

namespace Registry

/-- An item comes back as it is: the data of an object shows all of it, and a leaf has values and is
given by the class around it. -/
def Retained (reg : Registry) : Item → Prop
  | .object o => ∃ r, reg.nodeOfClass? o.className = some r ∧ reg.Lossless o r
  | .leaf leaf values => values ≠ [] ∧ ∃ s, reg.leafOf? leaf = some s ∧ ownerId? s = some leaf

/-- Two items are not of one leaf-list. -/
def Apart (reg : Registry) (a b : Item) : Prop :=
  ∀ leaf, leafIdOf? a = some leaf → leafIdOf? b = some leaf → reg.isLeafList leaf = false

/-- Positioned objects come back as they are: all items do, and the values of a leaf-list make up one
item. -/
structure LosslessData (reg : Registry) (d : ObjectData) : Prop where
  retained : ∀ item ∈ d.items, reg.Retained item
  apart : d.items.IsChain reg.Apart

variable {reg : Registry} {m : Model} {x y : Item} {items : List Item}

/-! ### What comes back can be written again -/

/-- An item stays on its own, or its values join those of the same leaf-list. -/
theorem join_cases (reg : Registry) (items : List Item) (x : Item) :
    reg.join items x = items ++ [x] ∧ (∀ last ∈ items.getLast?, reg.Apart last x) ∨
      ∃ front leaf vs ws, items = front ++ [.leaf leaf vs] ∧ x = .leaf leaf ws ∧
        reg.isLeafList leaf = true ∧ reg.join items x = front ++ [.leaf leaf (vs ++ ws)] := by
  rcases List.eq_nil_or_concat items with rfl | ⟨front, last, rfl⟩
  · exact .inl ⟨rfl, by simp⟩
  rw [List.concat_eq_append]
  cases last with
  | object o => exact .inl ⟨by simp [join, merged?], by simp [Apart, leafIdOf?]⟩
  | leaf leaf vs =>
    cases x with
    | object o => exact .inl ⟨by simp [join, merged?], by simp [Apart, leafIdOf?]⟩
    | leaf leaf' ws =>
      by_cases hsame : leaf = leaf' ∧ reg.isLeafList leaf' = true
      · obtain ⟨rfl, hlist⟩ := hsame
        exact .inr ⟨front, leaf, vs, ws, rfl, rfl, hlist, by simp [join, merged?, hlist]⟩
      · refine .inl ⟨by simp [join, merged?, hsame], ?_⟩
        simp only [List.getLast?_append, List.getLast?_singleton, Option.some_or, Option.mem_def,
          Option.some.injEq, forall_eq', Apart, leafIdOf?]
        rintro rfl
        simpa using hsame

/-- Items that are joined have the data nodes of both. -/
theorem itemNodes_join : (reg.join items x).flatMap reg.itemNodes =
    items.flatMap reg.itemNodes ++ reg.itemNodes x := by
  rcases reg.join_cases items x with ⟨hjoin, -⟩ | ⟨front, leaf, vs, ws, rfl, rfl, -, hjoin⟩
  · rw [hjoin, List.flatMap_append, List.flatMap_singleton]
  · have hboth : reg.itemNodes (.leaf leaf (vs ++ ws)) =
        reg.itemNodes (.leaf leaf vs) ++ reg.itemNodes (.leaf leaf ws) := by
      cases hs : reg.leafOf? leaf <;> simp [itemNodes, hs]
    rw [hjoin, List.flatMap_append, List.flatMap_append, List.flatMap_singleton,
      List.flatMap_singleton, hboth, List.append_assoc]

/-- Items that have their place at the root keep it when one joins them. -/
theorem placeable_join (hitems : ∀ i ∈ items, reg.WellTyped i ∧ reg.Placeable i)
    (hx : reg.WellTyped x ∧ reg.Placeable x) :
    ∀ i ∈ reg.join items x, reg.WellTyped i ∧ reg.Placeable i := by
  rcases reg.join_cases items x with ⟨hjoin, -⟩ | ⟨front, leaf, vs, ws, rfl, rfl, hlist, hjoin⟩
  · rw [hjoin]
    intro i hi
    rcases List.mem_append.1 hi with hi | hi
    · exact hitems i hi
    · exact List.mem_singleton.1 hi ▸ hx
  · rw [hjoin]
    intro i hi
    rcases List.mem_append.1 hi with hi | hi
    · exact hitems i (List.mem_append_left _ hi)
    · obtain rfl := List.mem_singleton.1 hi
      obtain ⟨s, hs, hp, -⟩ := hx.2
      refine ⟨trivial, s, hs, hp, fun hk => ?_⟩
      simp [isLeafList, hs, hk] at hlist

/-- What comes back of items that are joined to others has their data nodes. -/
theorem foldl_join (hitems : ∀ i ∈ items, reg.WellTyped i ∧ reg.Placeable i) (before : List Item)
    (hbefore : ∀ i ∈ before, reg.WellTyped i ∧ reg.Placeable i) :
    (∀ i ∈ items.foldl reg.join before, reg.WellTyped i ∧ reg.Placeable i) ∧
      (items.foldl reg.join before).flatMap reg.itemNodes =
        before.flatMap reg.itemNodes ++ items.flatMap reg.itemNodes := by
  induction items generalizing before with
  | nil => exact ⟨hbefore, (List.append_nil _).symm⟩
  | cons x items ih =>
    obtain ⟨hplaceable, hnodes⟩ := ih (fun i hi => hitems i (List.mem_cons_of_mem _ hi)) _
      (placeable_join hbefore (hitems x List.mem_cons_self))
    refine ⟨hplaceable, ?_⟩
    rw [List.foldl_cons, hnodes, itemNodes_join, List.append_assoc, List.flatMap_cons]

section Described

variable (h : reg.Described m)
include h

/-- What comes back of an item has its place at the root and the data nodes of the item. -/
theorem Described.restoredItem?_spec (ht : reg.WellTyped x) (hw : reg.Placeable x)
    (hy : reg.restoredItem? x = some y) :
    (reg.WellTyped y ∧ reg.Placeable y) ∧ reg.itemNodes y = reg.itemNodes x := by
  -- An object comes back on its own, a leaf under the id that it is read as.
  cases x with
  | object o =>
    obtain ⟨r, hclass, hk, ht⟩ := ht
    obtain ⟨r', hclass', hp, hw⟩ := hw
    rw [hclass] at hclass'
    cases hclass'
    have hr : r.model = m := (h.sole.nodeOfClass?_eq_some_iff.1 hclass).1
    have hh : HoldsObjects r := .of_standalone hk
    rw [restoredItem?, hclass] at hy
    cases hy
    refine ⟨⟨⟨r, ?_, hk, h.typed_restored hr hh ht hw.selects⟩, r, ?_, hp,
      h.writable_restored hr hh ht hw⟩, ?_⟩
    · rw [className_restored, hclass]
    · rw [className_restored, hclass]
    · simp [itemNodes, hclass, h.objectNode_restored hr hh ht hw.selects]
  | leaf leaf values =>
    obtain ⟨s, hs, hp, hcount⟩ := hw
    obtain ⟨l, hl, hls⟩ := h.exists_ownerId hs
    rw [restoredItem?] at hy
    split at hy
    · cases hy
    · rw [hs, Option.bind_some, hl] at hy
      cases hy
      exact ⟨⟨trivial, s, hls, hp, hcount⟩, by simp [itemNodes, hs, hls]⟩

/-- An item of which nothing comes back has no data nodes. -/
theorem Described.itemNodes_eq_nil (hw : reg.Placeable x) (hx : reg.restoredItem? x = none) :
    reg.itemNodes x = [] := by
  cases x with
  | object o =>
    obtain ⟨r, hclass, -⟩ := hw
    simp [restoredItem?, hclass] at hx
  | leaf leaf values =>
    obtain ⟨s, hs, -⟩ := hw
    obtain ⟨l, hl, -⟩ := h.exists_ownerId hs
    have hnone : values = [] := by simpa [restoredItem?, hs, hl] using hx
    simp [itemNodes, hnone]

/-- What comes back has its place at the root and the same data nodes. -/
theorem Described.restoredItems_spec (ht : ∀ item ∈ items, reg.WellTyped item)
    (hw : ∀ item ∈ items, reg.Placeable item) :
    (∀ i ∈ reg.restoredItems items, reg.WellTyped i ∧ reg.Placeable i) ∧
      (reg.restoredItems items).flatMap reg.itemNodes = items.flatMap reg.itemNodes := by
  have hback : ∀ y ∈ items.filterMap reg.restoredItem?, reg.WellTyped y ∧ reg.Placeable y := by
    intro y hy
    obtain ⟨x, hx, hy⟩ := List.mem_filterMap.1 hy
    exact (h.restoredItem?_spec (ht x hx) (hw x hx) hy).1
  have hnodes : (items.filterMap reg.restoredItem?).flatMap reg.itemNodes =
      items.flatMap reg.itemNodes := by
    rw [List.filterMap_eq_flatMap_toList, List.flatMap_assoc]
    refine List.flatMap_congr fun x hx => ?_
    cases hy : reg.restoredItem? x with
    | none => rw [h.itemNodes_eq_nil (hw x hx) hy]; rfl
    | some y =>
      rw [Option.toList_some, List.flatMap_singleton, (h.restoredItem?_spec (ht x hx) (hw x hx) hy).2]
  obtain ⟨hplaceable, hjoin⟩ := foldl_join hback [] (by simp)
  exact ⟨hplaceable, hjoin.trans hnodes⟩

/-! ### What comes back as it was -/

omit h in
theorem beq_object {a b : Object} : (Item.object a == Item.object b) = (a == b) := rfl

omit h in
theorem beq_leaf {l l' : LeafId} {vs ws : List LeafValue} :
    (Item.leaf l vs == Item.leaf l' ws) = true ↔ l = l' ∧ vs = ws := by
  change (l == l' && vs == ws) = true ↔ _
  simp

omit h in
theorem leafIdOf?_eq_of_beq (hxy : (x == y) = true) : leafIdOf? x = leafIdOf? y := by
  cases x <;> cases y
  · rfl
  · cases hxy
  · cases hxy
  · rw [beq_leaf] at hxy
    rw [leafIdOf?, leafIdOf?, hxy.1]

/-- An item comes back as it is exactly if it is retained. -/
theorem Described.retained_iff (ht : reg.WellTyped x) (hw : reg.Placeable x) :
    reg.Retained x ↔ ∃ y, reg.restoredItem? x = some y ∧ (y == x) = true := by
  cases x with
  | object o =>
    obtain ⟨r, hclass, hk, ht⟩ := ht
    obtain ⟨r', hclass', hp, hw⟩ := hw
    rw [hclass] at hclass'
    cases hclass'
    have hr : r.model = m := (h.sole.nodeOfClass?_eq_some_iff.1 hclass).1
    have hh : HoldsObjects r := .of_standalone hk
    simp [Retained, restoredItem?, hclass, beq_object, h.restored_beq_iff hr hh ht hw]
  | leaf leaf values =>
    obtain ⟨s, hs, -⟩ := hw
    obtain ⟨l, hl, -⟩ := h.exists_ownerId hs
    by_cases hnone : values = []
    · simp [Retained, restoredItem?, hnone]
    · simp [Retained, restoredItem?, hnone, hs, hl, beq_leaf]

omit h in
/-- Two sequences of items are equal if the items are, one by one. -/
theorem beq_items_iff {as bs : List Item} :
    (as == bs) = true ↔ List.Forall₂ (fun a b => (a == b) = true) as bs := by
  induction as generalizing bs with
  | nil => cases bs <;> simp
  | cons a as ih =>
    cases bs with
    | nil => simp
    | cons b bs => rw [List.cons_beq_cons, Bool.and_eq_true, ih, List.forall₂_cons]

omit h in
theorem length_join_le (reg : Registry) (items : List Item) (x : Item) :
    (reg.join items x).length ≤ items.length + 1 := by
  rcases reg.join_cases items x with ⟨hjoin, -⟩ | ⟨front, leaf, vs, ws, rfl, -, -, hjoin⟩
  · simp [hjoin]
  · simp [hjoin]

omit h in
theorem length_foldl_join_le (reg : Registry) (items before : List Item) :
    (items.foldl reg.join before).length ≤ before.length + items.length := by
  induction items generalizing before with
  | nil => exact Nat.le_refl _
  | cons x items ih =>
    have hle := ih (reg.join before x)
    have hjoin := length_join_le reg before x
    rw [List.foldl_cons, List.length_cons]
    omega

omit h in
theorem length_restoredItems_le (reg : Registry) (items : List Item) :
    (reg.restoredItems items).length ≤ items.length := by
  have hle := length_foldl_join_le reg (items.filterMap reg.restoredItem?) []
  have hfilter := List.length_filterMap_le reg.restoredItem? items
  rw [List.length_nil, Nat.zero_add] at hle
  exact Nat.le_trans hle hfilter

omit h in
/-- Whether an item stays on its own depends on the leaves of items only. -/
theorem apart_congr (reg : Registry) {as bs : List Item} (has : as.map leafIdOf? = bs.map leafIdOf?)
    (hxy : leafIdOf? x = leafIdOf? y) :
    (∀ last ∈ as.getLast?, reg.Apart last x) ↔ ∀ last ∈ bs.getLast?, reg.Apart last y := by
  have hlast : as.getLast?.map leafIdOf? = bs.getLast?.map leafIdOf? := by
    rw [← List.getLast?_map, ← List.getLast?_map, has]
  cases ha : as.getLast? <;> cases hb : bs.getLast? <;> rw [ha, hb] at hlast
  · simp
  · cases hlast
  · cases hlast
  · simp only [Option.map_some, Option.some.injEq] at hlast
    simp [Apart, hlast, hxy]

omit h in
/-- Items that come back come out as they were, with one more at the end, exactly if they were the same
before, and the last does not join the one before it. -/
theorem forall₂_join_iff {as : List Item} (hle : as.length ≤ items.length) :
    List.Forall₂ (fun a b => (a == b) = true) (reg.join as y) (items ++ [x]) ↔
      List.Forall₂ (fun a b => (a == b) = true) as items ∧ (y == x) = true ∧
        ∀ last ∈ items.getLast?, reg.Apart last x := by
  have hsame (hall : List.Forall₂ (fun a b => (a == b) = true) as items) (hyx : (y == x) = true) :
      (∀ last ∈ as.getLast?, reg.Apart last y) ↔ ∀ last ∈ items.getLast?, reg.Apart last x := by
    refine apart_congr reg ?_ (leafIdOf?_eq_of_beq hyx)
    rw [← List.forall₂_eq_eq_eq, List.forall₂_map_left_iff, List.forall₂_map_right_iff]
    exact hall.imp fun _ _ => leafIdOf?_eq_of_beq
  rcases reg.join_cases as y with
    ⟨hjoin, hapart⟩ | ⟨front, leaf, vs, ws, rfl, rfl, hlist, hjoin⟩
  · rw [hjoin, List.forall₂_concat_iff]
    constructor
    · rintro ⟨hall, hyx⟩
      exact ⟨hall, hyx, (hsame hall hyx).1 hapart⟩
    · rintro ⟨hall, hyx, -⟩
      exact ⟨hall, hyx⟩
  · refine iff_of_false (fun hall => ?_) ?_
    · -- The values have joined others, so that there are too few items.
      have hlength := hall.length_eq
      rw [hjoin] at hlength
      simp only [List.length_append, List.length_singleton] at hlength hle
      omega
    · rintro ⟨hall, hyx, hapart⟩
      have hfalse := (hsame hall hyx).2 hapart (.leaf leaf vs) (by simp) leaf rfl rfl
      rw [hlist] at hfalse
      cases hfalse

/-- Positioned objects come back as they are exactly if each item does and none joins the one before
it. -/
theorem Described.restoredItems_beq_iff (ht : ∀ item ∈ items, reg.WellTyped item)
    (hw : ∀ item ∈ items, reg.Placeable item) :
    List.Forall₂ (fun a b => (a == b) = true) (reg.restoredItems items) items ↔
      (∀ item ∈ items, reg.Retained item) ∧ items.IsChain reg.Apart := by
  -- By induction on the items, the last of which is read last.
  induction items using List.reverseRecOn with
  | nil => simp [restoredItems]
  | append_singleton items x ih =>
    have ih := ih (fun i hi => ht i (List.mem_append_left _ hi))
      (fun i hi => hw i (List.mem_append_left _ hi))
    have hretained := h.retained_iff (ht x (by simp)) (hw x (by simp))
    have hright : ((∀ item ∈ items ++ [x], reg.Retained item) ∧ (items ++ [x]).IsChain reg.Apart) ↔
        List.Forall₂ (fun a b => (a == b) = true) (reg.restoredItems items) items ∧
          reg.Retained x ∧ ∀ last ∈ items.getLast?, reg.Apart last x := by
      rw [ih, List.isChain_append]
      simp [or_imp, forall_and]
      tauto
    have hlast : reg.restoredItems (items ++ [x]) =
        (reg.restoredItem? x).toList.foldl reg.join (reg.restoredItems items) := by
      rw [restoredItems, List.filterMap_append, List.foldl_append]
      cases hy : reg.restoredItem? x <;> simp [restoredItems, hy]
    have hle := length_restoredItems_le reg items
    rw [hright, hlast, hretained]
    cases hy : reg.restoredItem? x with
    | none =>
      -- Nothing comes back of the last item, so that there are too few.
      refine iff_of_false (fun hall => ?_) (by simp)
      have hlength := hall.length_eq
      simp only [Option.toList_none, List.foldl_nil, List.length_append, List.length_singleton]
        at hlength
      omega
    | some y =>
      rw [Option.toList_some, List.foldl_cons, List.foldl_nil, forall₂_join_iff hle]
      simp

/-! ### Round trips -/

/-- Objects at the root are written exactly if all have their place there and nothing is missing in
them. They come back equal exactly if their data shows all that they hold: no value of a leaf-list,
list entry or payload is replaced by one with the same key, every case and augmentation has content,
augmentations are for augments, only anydata has payloads, and leaves are given by the class around
them, the values of a leaf-list at once. -/
theorem Described.objects_round_trip {d : ObjectData} (hroot : d.id.isRoot = true)
    (ht : ∀ item ∈ d.items, reg.WellTyped item) :
    ((∃ t, reg.write d = .ok t) ↔ ∀ item ∈ d.items, reg.Placeable item) ∧
      ∀ t, reg.write d = .ok t →
        ∃ d', reg.read t = .ok d' ∧ ((d' == d) = true ↔ reg.LosslessData d) := by
  have hwrite {t : ResourceData} := h.write_eq_ok_iff (t := t) hroot ht
  refine ⟨⟨fun ⟨t, hok⟩ => (hwrite.1 hok).1, fun hw => ⟨_, hwrite.2 ⟨hw, rfl⟩⟩⟩, ?_⟩
  intro t hok
  obtain ⟨hw, rfl⟩ := hwrite.1 hok
  refine ⟨_, h.read_itemNodes ht hw, ?_⟩
  have hid : (({} : ObjectId) == d.id) = true := by
    obtain ⟨⟨steps⟩, items⟩ := d
    obtain rfl := List.isEmpty_iff.1 hroot
    rfl
  have hbeq : (({ items := reg.restoredItems d.items } : ObjectData) == d) = true ↔
      (reg.restoredItems d.items == d.items) = true := by
    change (({} : ObjectId) == d.id && reg.restoredItems d.items == d.items) = true ↔ _
    rw [hid, Bool.true_and]
  rw [hbeq, beq_items_iff, h.restoredItems_beq_iff ht hw]
  exact ⟨fun ⟨hretained, hapart⟩ => ⟨hretained, hapart⟩, fun hd => ⟨hd.retained, hd.apart⟩⟩

end Described

namespace Shop

/-- An item with a name and two tags. -/
def pen : Object :=
  itemClass.make
    (fun name => if name = "name" then [.string "pen"] else [.string "blue", .string "red"])
    (fun _ => []) [] []

/-- A store with one item. -/
def store : Object := storeClass.make (fun _ => []) (fun _ => [pen]) [] []

/-- What the shop has in stock. -/
def stock : ObjectData where
  items := [.object store]

theorem slots_store : registry.slots store storeRef = [.field itemRef] := rfl

theorem slots_pen : registry.slots pen itemRef = [.field nameRef, .field tagRef] := rfl

theorem proper_pen : pen.Proper where
  shape := rfl
  single_values := by decide
  single_objects := by decide
  stored := by
    intro f hf type ht v hv
    have hfields : pen.type.ownFields =
        [⟨"name", "Item", .leaf .string⟩, ⟨"tag", "Item", .leafList .string⟩] := rfl
    simp only [hfields, List.mem_cons, List.not_mem_nil, or_false] at hf
    rcases hf with rfl | rfl <;> cases ht
    · obtain rfl : v = .string "pen" := List.mem_singleton.1 hv
      rfl
    · have hv : v ∈ [LeafValue.string "blue", .string "red"] := hv
      simp only [List.mem_cons, List.not_mem_nil, or_false] at hv
      rcases hv with rfl | rfl <;> rfl
  nodup_classes := by decide

theorem proper_store : store.Proper where
  shape := rfl
  single_values := by decide
  single_objects := by decide
  stored := by
    intro f hf type ht v hv
    obtain rfl : f = ⟨"item", "Store", .list "Item"⟩ := List.mem_singleton.1 hf
    cases hv
  nodup_classes := by decide

/-- An item has no parts, and the store has just the one item. -/
theorem throughout_store {P : Object → Ref → Prop} (hpen : P pen itemRef)
    (hstore : P store storeRef) : registry.Throughout P store storeRef := by
  refine ⟨hstore, fun x s hp => ?_⟩
  obtain ⟨rfl, rfl⟩ : x = pen ∧ s = itemRef := by
    cases hp with
    | field slot inner mem =>
      rw [slots_store, List.mem_singleton] at slot
      cases slot
      exact ⟨List.mem_singleton.1 mem, rfl⟩
    | layer slot => simp [slots_store] at slot
    | payload slot mem node => simp [slots_store] at slot
  refine ⟨hpen, fun x s hp => ?_⟩
  cases hp with
  | field slot inner mem =>
    simp only [slots_pen, List.mem_cons, List.not_mem_nil, or_false] at slot
    rcases slot with h | h <;> cases h <;> cases inner
  | layer slot => simp [slots_pen] at slot
  | payload slot mem node => simp [slots_pen] at slot

theorem writable_store : registry.Writable store storeRef := by
  apply throughout_store
  · have hchoice : ∀ c ∈ itemRef.declared, c.kind ≠ .choice := by decide
    refine ⟨fun c hc hk => absurd hk (hchoice c hc), fun _ key hkey => ?_, fun hk => by cases hk⟩
    obtain rfl : key = "name" := List.mem_singleton.1 hkey
    refine ⟨⟨{ node := nameRef }, leafNode nameRef (.string "pen")⟩, ?_, rfl, rfl⟩
    exact mem_content_iff.2 ⟨.field nameRef, List.mem_cons_self, List.mem_cons_self⟩
  · have hchoice : ∀ c ∈ storeRef.declared, c.kind ≠ .choice := by decide
    exact ⟨fun c hc hk => absurd hk (hchoice c hc), (by rintro ⟨⟩), (by rintro ⟨⟩)⟩

theorem lossless_store : registry.Lossless store storeRef := by
  apply throughout_store
  · have hlist : ∀ c ∈ itemRef.declared, c.kind ≠ .list := by decide
    exact ⟨by decide, fun c hc hk => absurd hk (hlist c hc),
      fun l x hslot => (by simp [slots_pen] at hslot), fun a ha => (by cases ha), rfl⟩
  · refine ⟨by decide, fun c hc _ => ?_, fun l x hslot => (by simp [slots_store] at hslot),
      fun a ha => (by cases ha), rfl⟩
    obtain rfl : c = itemRef := List.mem_singleton.1 hc
    exact List.nodup_singleton _

theorem nodeOfClass?_store : registry.nodeOfClass? store.className = some storeRef :=
  sole.nodeOfClass?_eq_some_iff.2 ⟨rfl, rfl⟩

theorem wellTyped_stock : ∀ item ∈ stock.items, registry.WellTyped item := by
  intro item hitem
  obtain rfl := List.mem_singleton.1 hitem
  exact ⟨storeRef, nodeOfClass?_store, .inl rfl,
    throughout_store ⟨by decide +kernel, proper_pen⟩ ⟨by decide +kernel, proper_store⟩⟩

theorem placeable_stock : ∀ item ∈ stock.items, registry.Placeable item := by
  intro item hitem
  obtain rfl := List.mem_singleton.1 hitem
  exact ⟨storeRef, nodeOfClass?_store, by decide +kernel, writable_store⟩

theorem write_stock : registry.write stock =
    .ok { id := .root, nodes := [registry.objectNode store storeRef] } := by
  have hwrite := (described.write_eq_ok_iff (d := stock) rfl wellTyped_stock).2
    ⟨placeable_stock, rfl⟩
  have hnodes : stock.items.flatMap registry.itemNodes = [registry.objectNode store storeRef] := by
    simp [stock, itemNodes, nodeOfClass?_store]
  rwa [hnodes] at hwrite

/-- The store is all that is in stock. -/
theorem eq_of_mem_stock {o : Object} {r : Ref} (ho : .object o ∈ stock.items)
    (hr : registry.nodeOfClass? o.className = some r) : o = store ∧ r = storeRef := by
  obtain rfl : o = store := by simpa [stock] using ho
  exact ⟨rfl, Option.some.inj (hr.symm.trans nodeOfClass?_store)⟩

end Shop

/-- The stock of a shop is written and read back as it was. -/
theorem objects_round_trip_stock : ∃ t d', Shop.registry.write Shop.stock = .ok t ∧
    Shop.registry.read t = .ok d' ∧ (d' == Shop.stock) = true := by
  obtain ⟨hwrite, hread⟩ := Shop.described.objects_round_trip (d := Shop.stock) rfl
    Shop.wellTyped_stock
  obtain ⟨t, ht⟩ := hwrite.2 Shop.placeable_stock
  obtain ⟨d', hd, hbeq⟩ := hread t ht
  refine ⟨t, d', ht, hd, hbeq.2 ⟨fun item hitem => ?_, List.isChain_singleton _⟩⟩
  obtain rfl := List.mem_singleton.1 hitem
  exact ⟨Shop.storeRef, Shop.nodeOfClass?_store, Shop.lossless_store⟩

namespace Fair

/-- An empty booth, which shows all that it holds. -/
def booth : ObjectData where
  items := [.object boothClass.new]

theorem slots_booth : registry.slots boothClass.new boothRef = [] := by decide +kernel

/-- There is nothing inside a booth. -/
theorem throughout_booth {P : Object → Ref → Prop} (h : P boothClass.new boothRef) :
    registry.Throughout P boothClass.new boothRef := by
  refine ⟨h, fun x s hp => ?_⟩
  cases hp with
  | field slot inner mem => simp [slots_booth] at slot
  | layer slot => simp [slots_booth] at slot
  | payload slot mem node => simp [slots_booth] at slot

theorem nodeOfClass?_booth : registry.nodeOfClass? "Booth" = some boothRef :=
  sole.nodeOfClass?_eq_some_iff.2 ⟨rfl, rfl⟩

theorem wellTyped_booth : ∀ item ∈ booth.items, registry.WellTyped item := by
  intro item hitem
  obtain rfl := List.mem_singleton.1 hitem
  exact ⟨boothRef, nodeOfClass?_booth, .inl rfl,
    throughout_booth ⟨by decide +kernel, Object.proper_new _⟩⟩

theorem placeable_booth : ∀ item ∈ booth.items, registry.Placeable item := by
  intro item hitem
  obtain rfl := List.mem_singleton.1 hitem
  exact ⟨boothRef, nodeOfClass?_booth, by decide +kernel, throughout_booth
    ⟨fun c hc => (by cases hc), (by rintro ⟨⟩), (by rintro ⟨⟩)⟩⟩

theorem losslessData_booth : registry.LosslessData booth where
  retained := by
    intro item hitem
    obtain rfl := List.mem_singleton.1 hitem
    exact ⟨boothRef, nodeOfClass?_booth, throughout_booth
      ⟨fun c hc => (by cases hc), fun c hc => (by cases hc),
        fun l x hslot => (by simp [slots_booth] at hslot), fun a ha => (by cases ha), rfl⟩⟩
  apart := List.isChain_singleton _

/-- A ticket, which has its place at the root as well. -/
def ticket : ObjectData where
  items := [.leaf { owner := "Extras", name := "ticket" } [.string "adult"]]

theorem leafOf?_ticket :
    registry.leafOf? { owner := "Extras", name := "ticket" } = some ticketRef := by
  rw [leafOf?, sole.nodeOfClass?_eq_some_iff (r := extrasRef) |>.2 ⟨rfl, rfl⟩, Option.bind_some,
    Ref.findDataChild?_of_own rfl]
  rfl

theorem placeable_ticket : ∀ item ∈ ticket.items, registry.Placeable item := by
  intro item hitem
  obtain rfl := List.mem_singleton.1 hitem
  exact ⟨ticketRef, leafOf?_ticket, by decide +kernel, fun _ => rfl⟩

/-- No data at the root of the fair is read. -/
theorem read_ne_ok {n : Node} {nodes : List Node} {d : ObjectData} :
    registry.read { id := .root, nodes := n :: nodes } ≠ .ok d := by
  intro hread
  obtain ⟨base, hbase, hread⟩ := Except.bind_eq_ok_iff.1 hread
  cases hbase
  obtain ⟨id, -, hread⟩ := Except.bind_eq_ok_iff.1 hread
  obtain ⟨items, hitems, -⟩ := Except.bind_eq_ok_iff.1 hread
  rw [List.foldlM_cons] at hitems
  obtain ⟨first, hfirst, -⟩ := Except.bind_eq_ok_iff.1 hitems
  obtain ⟨e, he, -⟩ := Except.bind_eq_ok_iff.1 hfirst
  rw [resolveNode, found_eq_ok_iff, childOf?_root] at he
  cases he

end Fair

/-- Something added to an augment of a choice is written but not read back: the booth of a fair is such
an object, although the classes cover the fair and the booth shows all that it holds. -/
theorem booth_not_read : Fair.registry.Covered Fair.model ∧
    (∀ item ∈ Fair.booth.items, Fair.registry.WellTyped item) ∧
    Fair.registry.LosslessData Fair.booth ∧
    ∃ t, Fair.registry.write Fair.booth = .ok t ∧ ∀ d, Fair.registry.read t ≠ .ok d :=
  ⟨Fair.covered, Fair.wellTyped_booth, Fair.losslessData_booth, _,
    (Fair.covered.write_eq_ok_iff rfl Fair.wellTyped_booth).2 ⟨Fair.placeable_booth, rfl⟩,
    fun _ => Fair.read_ne_ok⟩

/-- The data of objects at the root is read as objects that are written as just this data, whatever
the data does not show of the objects that it was first written from. -/
theorem Described.data_round_trip (h : reg.Described m) {d : ObjectData} (hroot : d.id.isRoot = true)
    (ht : ∀ item ∈ d.items, reg.WellTyped item) {t : ResourceData} (hok : reg.write d = .ok t) :
    ∃ d', reg.read t = .ok d' ∧ reg.write d' = .ok t := by
  obtain ⟨hw, rfl⟩ := (h.write_eq_ok_iff hroot ht).1 hok
  obtain ⟨hback, hnodes⟩ := h.restoredItems_spec ht hw
  refine ⟨_, h.read_itemNodes ht hw, ?_⟩
  apply (h.write_eq_ok_iff rfl fun item hitem => (hback item hitem).1).2
  exact ⟨fun item hitem => (hback item hitem).2, by rw [hnodes]⟩

/-- The data of the stock of a shop comes back. -/
theorem data_round_trip_stock : ∃ t d', Shop.registry.write Shop.stock = .ok t ∧
    Shop.registry.read t = .ok d' ∧ Shop.registry.write d' = .ok t := by
  obtain ⟨d', hread, hagain⟩ :=
    Shop.described.data_round_trip (d := Shop.stock) rfl Shop.wellTyped_stock Shop.write_stock
  exact ⟨_, d', Shop.write_stock, hread, hagain⟩

/-- The ticket of a fair, which is added to an augment of a choice, is written as data that nothing is
read from. -/
theorem ticket_not_read : Fair.registry.Covered Fair.model ∧
    ∃ t, Fair.registry.write Fair.ticket = .ok t ∧
      ¬ ∃ d, Fair.registry.read t = .ok d ∧ Fair.registry.write d = .ok t := by
  have htyped : ∀ item ∈ Fair.ticket.items, Fair.registry.WellTyped item := by
    intro item hitem
    obtain rfl := List.mem_singleton.1 hitem
    trivial
  have hwrite := (Fair.covered.write_eq_ok_iff (d := Fair.ticket) rfl htyped).2
    ⟨Fair.placeable_ticket, rfl⟩
  refine ⟨Fair.covered, _, hwrite, ?_⟩
  rintro ⟨d, hread, -⟩
  have hnodes : Fair.ticket.items.flatMap Fair.registry.itemNodes =
      [leafNode Fair.ticketRef (.string "adult")] := by
    simp [Fair.ticket, itemNodes, Fair.leafOf?_ticket]
  rw [hnodes] at hread
  exact Fair.read_ne_ok hread

end Registry

end YangBinding
