import Mathlib.Data.List.Flatten
import YangBinding.Proofs.Binding.Addressed
import YangBinding.Proofs.Binding.Slots

/-!
# Outlines of objects

The data nodes of an object do not show any more what has been written: of two siblings with one key
only the later one is left. The outline of an object keeps them all, each with the object it was
written for and its place in the schema. From an outline the data nodes are had by dropping whatever a
later sibling takes the place of, and what is dropped can be told from the outline alone.

## Main definitions

* `Outline`, `Outline.node` — data nodes before any gives way to a later one, and what is left of them
* `Trail` — a way down outlines, with the siblings on either side of it
* `Stop.Overtaken` — a later sibling takes the place of the outline at a stop of a trail
* `Registry.outlines` — the outlines of what an object holds
* `Registry.Within` — an object stands inside another one

## Main results

* `Trail.occurs` — a data node occurs unless something on the way to it gives way
* `Registry.exists_trail` — what an object inside holds is at the end of a trail
-/

namespace YangBinding

open Schema (DataChild Kind Layer Model Ref)
open YangBinding.Tree (Node NodeKey Occurs)

/-- A data node to be, with its place in the schema: a value that an object holds, or an object with
what it holds itself. -/
inductive Outline where
  | leaf (holder : Object) (place : DataChild) (value : LeafValue)
  | inner (object : Object) (place : DataChild) (inside : List Outline)

namespace Outline

/-- Where the schema has the data node. -/
def place : Outline → DataChild
  | leaf _ place _ | inner _ place _ => place

/-- The outlines of what stands below. -/
def inside : Outline → List Outline
  | leaf .. => []
  | inner _ _ inside => inside

/-- The object that becomes the data node. -/
def object? : Outline → Option Object
  | leaf .. => none
  | inner object _ _ => some object

/-- The same outline as seen from outside one more layer. -/
def under (layer : Layer) : Outline → Outline
  | leaf holder place value => leaf holder (place.under layer) value
  | inner object place inside => inner object (place.under layer) inside

/-- The data node that is left: among siblings with one key the latest. -/
def node : Outline → Node
  | leaf _ place value => Registry.leafNode place.node value
  | inner _ place inside => Registry.innerNode place.node ((inside.map node).latest Node.key)

variable {t : Outline} {l : Layer}

@[simp]
theorem place_under (t : Outline) (l : Layer) : (t.under l).place = t.place.under l := by
  cases t <;> rfl

@[simp]
theorem inside_under (t : Outline) (l : Layer) : (t.under l).inside = t.inside := by
  cases t <;> rfl

@[simp]
theorem object?_under (t : Outline) (l : Layer) : (t.under l).object? = t.object? := by
  cases t <;> rfl

/-- Layers do not show in data. -/
@[simp]
theorem node_under (t : Outline) (l : Layer) : (t.under l).node = t.node := by
  cases t <;> simp only [under, node] <;> rfl

theorem map_node_under (ts : List Outline) (l : Layer) :
    (ts.map (under l)).map node = ts.map node := by
  rw [List.map_map]
  exact List.map_congr_left fun t _ => node_under t l

/-- Below a data node stands what is left of the outlines below. -/
theorem children_node (t : Outline) : t.node.children = (t.inside.map node).latest Node.key := by
  cases t with
  | leaf holder place value =>
    rw [node, Registry.leafNode]
    split <;> rfl
  | inner object place inside =>
    rw [node, Registry.innerNode]
    split <;> rfl

end Outline

/-! ### Trails -/

/-- An outline among its siblings, which are what stands below a schema node. -/
structure Stop where
  holder : Ref
  before : List Outline
  here : Outline
  after : List Outline

/-- A later sibling has the key of the outline at a stop. Either both are payloads of an anydata node,
or entries of one list or leaf-list, or the schema has them in different places. -/
def Stop.Overtaken (stop : Stop) : Prop :=
  ∃ u ∈ stop.after, u.node.key = stop.here.node.key ∧
    (stop.holder.kind = .anydata ∨ stop.here.place.node.kind = .list ∨
      stop.here.place.node.kind = .leafList ∨ u.place ≠ stop.here.place)

/-- A way down from outlines of what stands below a schema node, through one outline after the other,
to the one at the end. -/
inductive Trail : Ref → List Outline → List Stop → Outline → Prop
  | last {holder : Ref} {before after : List Outline} {here : Outline} :
      Trail holder (before ++ here :: after) [⟨holder, before, here, after⟩] here
  | deeper {holder : Ref} {before after : List Outline} {here last : Outline} {stops : List Stop}
      (deeper : Trail here.place.node here.inside stops last) :
      Trail holder (before ++ here :: after) (⟨holder, before, here, after⟩ :: stops) last

namespace Trail

variable {holder : Ref} {outlines : List Outline} {stops : List Stop} {t last : Outline}

theorem of_mem (holder : Ref) (h : t ∈ outlines) :
    ∃ before after, Trail holder outlines [⟨holder, before, t, after⟩] t := by
  obtain ⟨before, after, rfl⟩ := List.append_of_mem h
  exact ⟨before, after, .last⟩

theorem ne_nil (h : Trail holder outlines stops last) : outlines ≠ [] := by
  cases h <;> simp

/-- A trail through an outline among others. -/
theorem through (holder : Ref) (h : t ∈ outlines)
    (h' : Trail t.place.node t.inside stops last) :
    ∃ before after, Trail holder outlines (⟨holder, before, t, after⟩ :: stops) last := by
  obtain ⟨before, after, rfl⟩ := List.append_of_mem h
  exact ⟨before, after, .deeper h'⟩

/-- A trail leads on among more outlines, where only its first stop looks different: it is seen from
outside one more layer. -/
theorem behind (h : Trail holder outlines stops last) (l : Layer) (outer : Ref)
    (before after : List Outline) :
    ∃ stops' last', Trail outer (before ++ outlines.map (Outline.under l) ++ after) stops' last' ∧
      (last' = last ∨ last' = last.under l) ∧
      stops'.filterMap (fun stop => stop.here.object?) =
        stops.filterMap fun stop => stop.here.object? := by
  have hsplit (first rest : List Outline) (here : Outline) :
      before ++ (first ++ here :: rest).map (Outline.under l) ++ after =
        (before ++ first.map (Outline.under l)) ++ here.under l ::
          (rest.map (Outline.under l) ++ after) := by simp
  -- Only the first stop depends on what stands beside the outlines.
  cases h with
  | last =>
    rw [hsplit]
    refine ⟨_, _, .last, .inr rfl, ?_⟩
    simp only [List.filterMap_cons, Outline.object?_under]
  | @deeper _ first rest here _ stops hdeeper =>
    rw [hsplit]
    refine ⟨⟨outer, before ++ first.map (Outline.under l), here.under l,
      rest.map (Outline.under l) ++ after⟩ :: stops, last, .deeper ?_, .inl rfl, ?_⟩
    · rw [Outline.place_under, Outline.inside_under]
      exact hdeeper
    · simp only [List.filterMap_cons, Outline.object?_under]

/-- A data node occurs unless something on the way to it, or the data node itself, has a later sibling
of the same key. -/
theorem occurs (h : Trail holder outlines stops last)
    (hlast : ∀ stop ∈ stops, ∀ u ∈ stop.after, u.node.key ≠ stop.here.node.key) :
    Occurs ((outlines.map Outline.node).latest Node.key)
      (stops.map fun stop => stop.here.node.key) last.node := by
  have hleft {before after : List Outline} {here : Outline}
      (hafter : ∀ u ∈ after, u.node.key ≠ here.node.key) :
      here.node ∈ ((before ++ here :: after).map Outline.node).latest Node.key := by
    rw [List.map_append, List.map_cons]
    apply List.mem_latest_of_last
    simpa using hafter
  induction h with
  | last => exact .top (hleft (hlast _ List.mem_cons_self))
  | @deeper holder before after here last stops _ ih =>
    apply Occurs.under (hleft (hlast _ List.mem_cons_self))
    rw [Outline.children_node]
    exact ih fun stop hstop => hlast stop (List.mem_cons_of_mem _ hstop)

end Trail

namespace Registry

/-! ### Objects inside an object -/

/-- An object stands inside another one, each with the schema node whose content it holds. The path
has the objects on the way, the one inside at the end. -/
inductive Within (reg : Registry) : Object → Ref → List Object → Object → Ref → Prop
  | here {o : Object} {r : Ref} : Within reg o r [] o r
  | part {o x y : Object} {r s q : Ref} {path : List Object} (part : reg.Part o r x s)
      (within : Within reg x s path y q) : Within reg o r (x :: path) y q

variable {reg : Registry} {o x y : Object} {r s child : Ref} {slot : Slot} {path : List Object}
  {stops : List Stop} {place : DataChild} {t last : Outline} {v : LeafValue} {l : Layer}

theorem Within.throughout {P : Object → Ref → Prop} (h : reg.Within o r path x s)
    (hp : reg.Throughout P o r) : reg.Throughout P x s := by
  induction h with
  | here => exact hp
  | part part _ ih => exact ih (hp.part part)

/-! ### Outlines -/

mutual

/-- The outline of an object. At a leaf nothing is left of an object but an empty leaf. -/
def outline (reg : Registry) (o : Object) (place : DataChild) : Outline :=
  if place.node.kind.isLeafLike then .leaf o place .empty
  else .inner o place (outlines reg o place.node)
termination_by (sizeOf o, 1)

/-- The outlines of what an object holds, slot by slot. -/
def outlines (reg : Registry) (o : Object) (r : Ref) : List Outline :=
  (reg.slots o r).attach.flatMap fun ⟨slot, h⟩ =>
    match slot, h with
    | .field c, _ =>
      if c.kind.isLeafLike then (o.leafValues c.name).map fun v => .leaf o { node := c } v
      else (o.objects c.name).attach.map fun ⟨x, hx⟩ =>
        have := Object.sizeOf_lt_of_mem_members hx
        outline reg x { node := c }
    | .layer l x, h =>
      have := sizeOf_lt_of_mem_slots h
      (outlines reg x l.node).map (Outline.under l)
    | .payloads, _ =>
      o.anydata.attach.filterMap fun ⟨x, hx⟩ =>
        have := Object.sizeOf_lt_of_mem_anydata hx
        (reg.payloadOf? r x).map fun s => outline reg x { node := s }
termination_by (sizeOf o, 0)

end

/-- The outlines of a slot. -/
def slotOutlines (reg : Registry) (o : Object) (r : Ref) : Slot → List Outline
  | .field c =>
    if c.kind.isLeafLike then (o.leafValues c.name).map fun v => .leaf o { node := c } v
    else (o.objects c.name).map fun x => reg.outline x { node := c }
  | .layer l x => (reg.outlines x l.node).map (Outline.under l)
  | .payloads => o.anydata.filterMap fun x =>
      (reg.payloadOf? r x).map fun s => reg.outline x { node := s }

theorem outlines_eq (reg : Registry) (o : Object) (r : Ref) :
    reg.outlines o r = (reg.slots o r).flatMap (reg.slotOutlines o r) := by
  rw [outlines]
  rw [List.flatMap_subtype (g := reg.slotOutlines o r), List.unattach_attach]
  rintro (c | ⟨l, x⟩ | _) h
  · simp [slotOutlines]
  · rfl
  · simp [slotOutlines]

@[simp]
theorem place_outline (reg : Registry) (o : Object) (place : DataChild) :
    (reg.outline o place).place = place := by
  rw [outline]
  split <;> rfl

theorem outline_of_inner (h : place.node.kind.isLeafLike = false) :
    reg.outline o place = .inner o place (reg.outlines o place.node) := by
  rw [outline, if_neg (by simp [h])]

theorem mem_outlines_iff : t ∈ reg.outlines o r ↔
    ∃ slot ∈ reg.slots o r, t ∈ reg.slotOutlines o r slot := by
  rw [outlines_eq, List.mem_flatMap]

/-- Outside of anydata the outlines of a slot have their places by the child or augment of the slot. -/
theorem origin_of_mem_slotOutlines (ht : t ∈ reg.slotOutlines o r slot) (hs : slot ≠ .payloads) :
    slot.origin? = some (origin t.place) := by
  cases slot with
  | field c =>
    rw [slotOutlines] at ht
    split at ht
    · obtain ⟨v, -, rfl⟩ := List.mem_map.1 ht
      rfl
    · obtain ⟨x, -, rfl⟩ := List.mem_map.1 ht
      rw [place_outline]
      rfl
  | layer l x =>
    obtain ⟨u, -, rfl⟩ := List.mem_map.1 ht
    rw [Outline.place_under]
    cases l <;> rfl
  | payloads => exact absurd rfl hs

/-- The outlines behind a layer stand among those of the object that holds them. -/
theorem exists_outlines_eq_of_layer (h : .layer l x ∈ reg.slots o r) : ∃ before after,
    reg.outlines o r = before ++ (reg.outlines x l.node).map (Outline.under l) ++ after := by
  obtain ⟨before, after, hslots⟩ := List.append_of_mem h
  refine ⟨before.flatMap (reg.slotOutlines o r), after.flatMap (reg.slotOutlines o r), ?_⟩
  rw [outlines_eq, hslots, List.flatMap_append, List.flatMap_cons, ← List.append_assoc]
  rfl

theorem outline_of_leafLike (h : place.node.kind.isLeafLike = true) :
    reg.outline o place = .leaf o place .empty := by
  rw [outline, if_pos h]

/-- Among the outlines of what an object holds, those of leaves are values, and the others are those of
objects inside. -/
theorem exists_object_of_mem {P : Object → Ref → Prop} (hP : reg.Throughout P o r)
    (ht : t ∈ reg.outlines o r) :
    (t.place.node.kind.isLeafLike = true ∧ ∃ holder v, t = .leaf holder t.place v) ∨
      t.place.node.kind.isLeafLike = false ∧ ∃ x, reg.Throughout P x t.place.node ∧
        t = .inner x t.place (reg.outlines x t.place.node) := by
  have hnode {x : Object} {c : Ref} (hx : reg.Throughout P x c) :
      (c.kind.isLeafLike = true ∧ ∃ holder v,
        reg.outline x { node := c } = .leaf holder { node := c } v) ∨
        c.kind.isLeafLike = false ∧ ∃ y, reg.Throughout P y c ∧
          reg.outline x { node := c } = .inner y { node := c } (reg.outlines y c) := by
    cases hk : c.kind.isLeafLike with
    | true => exact .inl ⟨rfl, x, .empty, outline_of_leafLike hk⟩
    | false => exact .inr ⟨rfl, x, hx, outline_of_inner hk⟩
  -- By induction on the object: the outlines behind its layers are those of smaller objects.
  induction hn : sizeOf o using Nat.strongRecOn generalizing o r t with
  | ind n ih =>
    obtain ⟨slot, hslot, ht⟩ := mem_outlines_iff.1 ht
    cases slot with
    | field c =>
      rw [slotOutlines] at ht
      split at ht
      · next hk =>
        obtain ⟨v, -, rfl⟩ := List.mem_map.1 ht
        exact .inl ⟨hk, o, v, rfl⟩
      · next hk =>
        obtain ⟨x, hx, rfl⟩ := List.mem_map.1 ht
        rw [place_outline]
        exact hnode (hP.part (.field hslot (by simpa using hk) hx))
    | layer l x =>
      obtain ⟨u, hu, rfl⟩ := List.mem_map.1 ht
      have hpart : reg.Part o r x l.node := .layer hslot
      rw [Outline.place_under]
      obtain ⟨hk, holder, v, hleaf⟩ | ⟨hk, y, hy, hinner⟩ :=
        ih _ (hn ▸ hpart.sizeOf_lt) (hP.part hpart) hu rfl
      · exact .inl ⟨hk, holder, v, by rw [hleaf]; rfl⟩
      · exact .inr ⟨hk, y, hy, by rw [hinner]; rfl⟩
    | payloads =>
      obtain ⟨x, hx, ht⟩ := List.mem_filterMap.1 ht
      obtain ⟨s, hs, rfl⟩ := Option.map_eq_some_iff.1 ht
      rw [place_outline]
      exact hnode (hP.part (.payload hslot hx hs))

/-- What stands below an outline are the outlines of an object inside. -/
theorem exists_object_of_inside {P : Object → Ref → Prop} (hP : reg.Throughout P o r)
    (ht : t ∈ reg.outlines o r) (hne : t.inside ≠ []) :
    ∃ x, reg.Throughout P x t.place.node ∧ t.inside = reg.outlines x t.place.node := by
  obtain ⟨-, holder, v, hleaf⟩ | ⟨-, x, hx, hinner⟩ := exists_object_of_mem hP ht
  · rw [hleaf] at hne
    exact absurd rfl hne
  · exact ⟨x, hx, congrArg Outline.inside hinner⟩

/-- What holds no content has no outlines. -/
theorem outlines_of_isLeafLike (hl : r.model.Linked) (hk : r.kind.isLeafLike = true) :
    reg.outlines o r = [] := by
  obtain ⟨hdeclared, haugments⟩ := Ref.childless_of_isLeafLike hl hk
  have hany : r.kind ≠ .anydata := by
    intro hany
    simp [hany, Kind.isLeafLike] at hk
  simp [outlines_eq, slots, augmentSlots, hdeclared, haugments, hany]

/-! ### What an object inside holds -/

/-- A trail to a value inside a part of an object is the rest of one inside the object. -/
theorem exists_trail_of_part (hl : s.model.Linked) (hp : reg.Part o r x s)
    (h : Trail s (reg.outlines x s) stops (.leaf y place v)) : ∃ stops' place',
      Trail r (reg.outlines o r) stops' (.leaf y place' v) ∧ place'.node = place.node ∧
      (stops'.filterMap fun stop => stop.here.object?).Sublist
        (x :: stops.filterMap fun stop => stop.here.object?) := by
  -- The objects of fields and payloads have data nodes of their own.
  have hnode (hk : s.kind.isLeafLike = false) (ht : reg.outline x { node := s } ∈ reg.outlines o r) :
      ∃ stops', Trail r (reg.outlines o r) stops' (.leaf y place v) ∧
        stops'.filterMap (fun stop => stop.here.object?) =
          x :: stops.filterMap fun stop => stop.here.object? := by
    rw [outline_of_inner hk] at ht
    obtain ⟨before, after, htrail⟩ := Trail.through r ht h
    exact ⟨_, htrail, rfl⟩
  cases hp with
  | field slot inner mem =>
    have ht : reg.outline x { node := s } ∈ reg.outlines o r := by
      refine mem_outlines_iff.2 ⟨_, slot, ?_⟩
      rw [slotOutlines, if_neg (by simp [inner])]
      exact List.mem_map_of_mem mem
    obtain ⟨stops', htrail, hobjects⟩ := hnode inner ht
    exact ⟨stops', place, htrail, rfl, hobjects ▸ List.Sublist.refl _⟩
  | payload slot mem node =>
    have ht : reg.outline x { node := s } ∈ reg.outlines o r :=
      mem_outlines_iff.2 ⟨_, slot, List.mem_filterMap.2 ⟨x, mem, by rw [node]; rfl⟩⟩
    have hk : s.kind.isLeafLike = false := by
      -- Nothing can stand below a payload that is a leaf.
      cases hk : s.kind.isLeafLike
      · rfl
      · exact absurd (outlines_of_isLeafLike hl hk) h.ne_nil
    obtain ⟨stops', htrail, hobjects⟩ := hnode hk ht
    exact ⟨stops', place, htrail, rfl, hobjects ▸ List.Sublist.refl _⟩
  | @layer l _ slot =>
    -- Layers have none: the trail begins among the outlines of the object itself.
    obtain ⟨before, after, heq⟩ := exists_outlines_eq_of_layer slot
    obtain ⟨stops', last, htrail, hlast, hobjects⟩ := h.behind l r before after
    have hsub : (stops'.filterMap fun stop => stop.here.object?).Sublist
        (x :: stops.filterMap fun stop => stop.here.object?) := by
      rw [hobjects]
      exact List.sublist_cons_self _ _
    rw [← heq] at htrail
    rcases hlast with rfl | rfl
    · exact ⟨stops', place, htrail, rfl, hsub⟩
    · exact ⟨stops', place.under l, htrail, rfl, hsub⟩

/-- A value of an object inside is at the end of a trail that passes no other objects than those on
the way to it. -/
theorem exists_trail (hl : reg.Throughout (fun _ q => q.model.Linked) o r)
    (h : reg.Within o r path x s) (hc : child ∈ s.declared) (hk : child.kind.isLeafLike = true)
    (hv : v ∈ x.leafValues child.name) : ∃ stops place,
      Trail r (reg.outlines o r) stops (.leaf x place v) ∧ place.node = child ∧
        (stops.filterMap fun stop => stop.here.object?).Sublist path := by
  induction h with
  | @here o r =>
    have hchoice : child.kind ≠ .choice := by
      intro hchoice
      simp [hchoice, Kind.isLeafLike] at hk
    have ht : .leaf o { node := child } v ∈ reg.outlines o r := by
      refine mem_outlines_iff.2 ⟨.field child, field_mem_slots_iff.2 ⟨hc, hchoice⟩, ?_⟩
      rw [slotOutlines, if_pos hk]
      exact List.mem_map_of_mem hv
    obtain ⟨before, after, htrail⟩ := Trail.of_mem r ht
    exact ⟨_, _, htrail, rfl, List.nil_sublist _⟩
  | part part _ ih =>
    obtain ⟨stops, place, htrail, hplace, hsub⟩ := ih (hl.part part) hc hv
    obtain ⟨stops', place', htrail', hplace', hsub'⟩ :=
      exists_trail_of_part (hl.part part).here part htrail
    exact ⟨stops', place', htrail', hplace'.trans hplace, hsub'.trans (hsub.cons_cons _)⟩

end Registry

end YangBinding
