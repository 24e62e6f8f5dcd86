import YangBinding.Proofs.Binding.Positioned

/-!
# What writing keeps

The walk over the schema asks an object for the values and objects of the fields that the schema node
declares, for the augmentations of the classes of its augments and, below anydata, for its payloads.
Whatever it asks for it writes, or it fails: a choice that selects no case of its own, a payload that
is not registered and a field that does not suit its child are refused. What it never asks for it
passes over without a word. So an object is written in full if it holds nothing that is not asked for,
and of what is written only entries and payloads give way to later ones of the same key, besides nodes
that share an identifier in the schema.

## Main definitions

* `Registry.Found` — what the walk over an object comes upon when it succeeds
* `Registry.Asked` — an object holds nothing but what the walk asks for
* `Registry.Yields` — what is known, and what has been placed, once an operation has succeeded

## Main results

* `Registry.Reachable.yields_object` — what is written is what is left of the outline
* `Registry.Reachable.pairwise_outlines` — siblings from one place in the schema
* `Registry.Reachable.kept_of_write` — where every value ends up
-/

namespace YangBinding

open Schema (DataChild Kind Layer Model Ref)
open YangBinding.Tree (Assembly Frame Node NodeKey Occurs ResourceData keyLeaf?)

/-- An object holds another one, in a field, as an augmentation or as a payload. -/
def Object.Holds (o x : Object) : Prop :=
  (∃ name, x ∈ o.objects name) ∨ x ∈ o.augmentations ∨ x ∈ o.anydata

/-- Objects, each held by the one before, lead from an object to the last of them. -/
inductive Object.Leads : Object → List Object → Object → Prop
  | here {o : Object} : Leads o [] o
  | step {o x y : Object} {path : List Object} (holds : o.Holds x) (leads : Leads x path y) :
      Leads o (x :: path) y

namespace Registry

variable {reg : Registry} {o x y : Object} {r s child choice : Ref} {nodes : List Node}
  {path : List Object} {stops : List Stop} {t last : Outline} {v : LeafValue} {name : String}

/-- What the walk over an object comes upon when it succeeds: a field of the object for each child,
cases of the choices that objects are selected for, and the schema nodes of the payloads. -/
structure Found (reg : Registry) (o : Object) (r : Ref) : Prop where
  model : r.model ∈ reg.models
  fields : ∀ c ∈ r.declared, ∃ f ∈ o.type.ownFields, f.name = c.name ∧ f.type.suits c.kind = true
  selects : reg.Selects o r
  payloads : r.kind = .anydata → ∀ x ∈ o.anydata, ∃ s, reg.payloadOf? r x = some s

/-- A proper object holds nothing but what the walk over the schema asks for: values under the names
of leaves and leaf-lists, objects under those of other children, augmentations of the classes of
augments, and payloads only if the schema node is an anydata node. -/
structure Asked (o : Object) (r : Ref) : Prop where
  proper : o.Proper
  values : ∀ name, ∀ v ∈ o.leafValues name,
    ∃ c ∈ r.declared, c.name = name ∧ c.kind.isLeafLike = true
  objects : ∀ name, ∀ x ∈ o.objects name,
    ∃ c ∈ r.declared, c.name = name ∧ c.kind.isLeafLike = false
  augmentations : ∀ x ∈ o.augmentations, ∃ a ∈ r.augments, a.className = some x.className
  payloads : ∀ x ∈ o.anydata, r.kind = .anydata

/-! ### What an operation yields -/

/-- Whenever an operation on assemblies succeeds, something holds and nodes have been put at the
current position. -/
def Yields (f : Assembly → Result Assembly) (P : Prop) (nodes : List Node) : Prop :=
  ∀ a a' : Assembly, f a = .ok a' → P ∧ a' = a.placeAll nodes

namespace Yields

variable {f g : Assembly → Result Assembly} {P Q : Prop} {ns ms : List Node}

theorem imp (h : Yields f P ns) (hPQ : P → Q) (hn : ns = ms) : Yields f Q ms := by
  intro a a' hf
  rw [← hn]
  exact (h a a' hf).imp_left hPQ

theorem nothing : Yields pure True [] := by
  intro a a' hf
  cases hf
  exact ⟨trivial, rfl⟩

/-- What is yielded by two operations, one after the other. -/
theorem bind (hf : Yields f P ns) (hg : Yields g Q ms) :
    Yields (fun a => f a >>= g) (P ∧ Q) (ns ++ ms) := by
  intro a a' h
  obtain ⟨b, hb, h⟩ := Except.bind_eq_ok_iff.1 h
  obtain ⟨hP, rfl⟩ := hf a b hb
  obtain ⟨hQ, rfl⟩ := hg _ a' h
  exact ⟨⟨hP, hQ⟩, (a.placeAll_append ns ms).symm⟩

/-- An operation for each item of a list yields the nodes of all items. -/
theorem foldlM {α : Type} {f : Assembly → α → Result Assembly} {P : α → Prop}
    {n : α → List Node} {xs : List α} (h : ∀ x ∈ xs, Yields (fun a => f a x) (P x) (n x)) :
    Yields (fun a => xs.foldlM f a) (∀ x ∈ xs, P x) (xs.flatMap n) := by
  induction xs with
  | nil => exact nothing.imp (by simp) rfl
  | cons x xs ih =>
    have hx := h x List.mem_cons_self
    have hxs := ih fun y hy => h y (List.mem_cons_of_mem _ hy)
    simp only [List.foldlM_cons]
    exact (hx.bind hxs).imp (by simp) rfl

end Yields

/-! ### What the walk over an object yields -/

/-- The values of a leaf or leaf-list are always written. -/
theorem yields_values (hk : child.kind.isLeafLike = true) (values : List LeafValue) :
    Yields (fun a => values.foldlM (writeLeaf child) a) True (values.map (leafNode child)) := by
  have hleaf (v : LeafValue) : Yields (fun a => writeLeaf child a v) True [leafNode child v] := by
    intro a a' hw
    obtain ⟨b, hb, -⟩ := Except.bind_eq_ok_iff.1 hw
    exact (writes_leaf hk v a (Assembly.open_of_enter hb) a').1 hw
  exact (Yields.foldlM (P := fun _ => True) fun v _ => hleaf v).imp (fun _ => trivial)
    List.map_eq_flatMap.symm

section Reachable

variable (h : reg.Reachable)
include h

theorem Reachable.model_mem_of_part (hr : r.model ∈ reg.models) (hp : reg.Part o r x s) :
    s.model ∈ reg.models := by
  obtain ⟨c, hc, hpart⟩ | ⟨augment, ha, -, rfl⟩ | ⟨-, -, hs⟩ := part_iff.1 hp
  · obtain ⟨-, hs⟩ := hpart
    split at hs
    · exact h.model_mem_of_nodeOfClass? hs
    · obtain ⟨-, rfl⟩ := hs
      exact Ref.model_of_mem_children (List.mem_filter.1 hc).1 ▸ hr
  · exact Ref.model_of_mem_augments ha ▸ hr
  · obtain ⟨_, _, -, -, hnode⟩ := mem_payloads_iff.1 (mem_payloads_of_payloadOf? hs)
    exact h.model_mem_of_nodeOfClass? hnode

omit h in
/-- Where nothing is wrong with an object, the walk comes upon all that it asks for. -/
theorem found_of_sound (hr : r.model ∈ reg.models) (hsound : ∀ e, ¬ reg.Fault o r e) :
    reg.Found o r := by
  have hfield {c : Ref} {e : Error} (hc : c ∈ r.declared) : ¬ reg.FieldFault o c e :=
    fun he => hsound e (.content (.field hc he))
  -- Whatever is not found is a fault, so that each search has to succeed.
  refine ⟨hr, fun c hc => ?_, fun c hc hk x hx => ?_, fun hk x hx => ?_⟩
  · cases hf : o.type.field? c.name with
    | none => exact absurd (.absent hf) (hfield hc)
    | some f =>
      have hname : f.name = c.name := by simpa using List.find?_some hf
      have howner : o.type.typeName = f.owner :=
        Classical.byContradiction fun hne => hfield hc (.foreign hf hne)
      refine ⟨f, List.mem_filter.2 ⟨List.mem_of_find?_eq_some hf, by simp [howner]⟩, hname, ?_⟩
      cases hsuits : f.type.suits c.kind with
      | true => rfl
      | false => exact absurd (.unsuited hf hsuits) (hfield hc)
  · cases hnode : reg.nodeOfClass? x.className with
    | none => exact absurd (.unbound hk hx hnode) (hfield hc)
    | some s =>
      exact ⟨s, Classical.byContradiction fun hs => hfield hc (.noCase hk hx hnode hs), rfl⟩
  · cases hs : reg.payloadOf? r x with
    | some s => exact ⟨s, rfl⟩
    | none =>
      cases hc : r.className with
      | none => exact absurd (.content (.holder hk hc)) (hsound _)
      | some c => exact absurd (.content (.payload hk hc hx hs)) (hsound _)

theorem Reachable.throughout_found (hr : r.model ∈ reg.models) (hsound : ∀ e, ¬ reg.Faulty o r e) :
    reg.Throughout reg.Found o r := by
  have hmodel : reg.Throughout (fun _ s => s.model ∈ reg.models) o r :=
    .of_inherited h.model_mem_of_part hr
  refine (hmodel.and (throughout_sound hsound)).imp ?_
  rintro x s ⟨hs, hx⟩
  exact found_of_sound hs hx

/-- What is written of an object is what is left of its outline, and the walk has come upon all that
the outline is made of. -/
theorem Reachable.yields_object (hr : r.model ∈ reg.models) :
    Yields (fun a => reg.writeObject o r a) (reg.Throughout reg.Found o r)
      [(reg.outline o { node := r }).node] := by
  intro a a' hw
  have hopen : a.Open := by
    obtain ⟨b, hb, -⟩ := Except.bind_eq_ok_iff.1 ((writeObject_eq o r a).symm.trans hw)
    exact Assembly.open_of_enter hb
  have hputs := h.puts_object (o := o) hr
  exact ⟨h.throughout_found hr (hputs.sound a a' hopen hw), hputs.puts a a' hopen hw⟩

/-! ### Siblings from one place in the schema -/

omit h in
theorem Found.length_leafValues_le (hf : reg.Found o r) (hp : o.Proper) (hc : child ∈ r.declared)
    (hk : child.kind = .leaf) : (o.leafValues child.name).length ≤ 1 := by
  obtain ⟨f, hown, hname, hsuits⟩ := hf.fields child hc
  rw [← hname]
  apply hp.single_values f hown
  cases htype : f.type <;> simp_all [FieldType.suits, FieldType.isSingle, Kind.isSingleObject]

omit h in
theorem Found.length_objects_le (hf : reg.Found o r) (hp : o.Proper) (hc : child ∈ r.declared)
    (hk : child.kind.isLeafLike = false) (hlist : child.kind ≠ .list) :
    (o.objects child.name).length ≤ 1 := by
  obtain ⟨f, hown, hname, hsuits⟩ := hf.fields child hc
  rw [← hname]
  apply hp.single_objects f hown
  cases htype : f.type <;>
    simp_all [FieldType.suits, FieldType.isSingle, Kind.isSingleObject, Kind.isLeafLike]

omit h in
/-- The field of a child has one outline at most, unless the child is a list or leaf-list. -/
theorem Found.pairwise_field (hf : reg.Found o r) (hp : o.Proper) (hc : child ∈ r.declared) :
    (reg.slotOutlines o r (.field child)).Pairwise fun t _ =>
      t.place.node.kind = .list ∨ t.place.node.kind = .leafList := by
  rw [slotOutlines]
  split
  case isTrue hleaf =>
    rw [List.pairwise_map]
    by_cases hk : child.kind = .leaf
    · exact List.pairwise_of_length_le_one (hf.length_leafValues_le hp hc hk)
    · have hlist : child.kind = .leafList := by simpa [Kind.isLeafLike, hk] using hleaf
      exact List.pairwise_of_forall fun _ _ => .inr hlist
  case isFalse hleaf =>
    rw [List.pairwise_map]
    by_cases hk : child.kind = .list
    · exact List.pairwise_of_forall fun x _ => .inl (by rw [place_outline]; exact hk)
    · exact List.pairwise_of_length_le_one
        (hf.length_objects_le hp hc (by simpa using hleaf) hk)

/-- Siblings from one place in the schema are entries of a list or leaf-list or payloads of an anydata
node. -/
theorem Reachable.pairwise_outlines (ht : reg.Throughout (fun o r => reg.Found o r ∧ o.Proper) o r) :
    (reg.outlines o r).Pairwise fun t u => t.place = u.place →
      r.kind = .anydata ∨ t.place.node.kind = .list ∨ t.place.node.kind = .leafList := by
  -- By induction on the object: behind a layer stands the content of a smaller one.
  induction hn : sizeOf o using Nat.strongRecOn generalizing o r with
  | ind n ih =>
    obtain ⟨hf, hp⟩ := ht.here
    by_cases hany : r.kind = .anydata
    · exact List.pairwise_of_forall fun t u _ => .inl hany
    have hnone : ∀ slot ∈ reg.slots o r, slot ≠ .payloads := by
      rintro slot hslot rfl
      exact hany (payloads_mem_slots_iff.1 hslot)
    rw [outlines_eq, List.pairwise_flatMap]
    constructor
    · intro slot hslot
      cases slot with
      | field c =>
        obtain ⟨hc, -⟩ := field_mem_slots_iff.1 hslot
        exact (hf.pairwise_field hp hc).imp fun hlist _ => .inr hlist
      | layer l x =>
        have hpart : reg.Part o r x l.node := .layer hslot
        have hk : l.node.kind ≠ .anydata := by
          have hlayer := Ref.isLayer_of_mem_layers (h.linked hf.model) (hf.selects.mem_layers hslot)
          intro hk
          simp [Ref.isLayer_iff, hk] at hlayer
        rw [slotOutlines, List.pairwise_map]
        refine (ih _ (hn ▸ hpart.sizeOf_lt) (ht.part hpart) rfl).imp fun {t u} hrel hplace => ?_
        rw [Outline.place_under, Outline.place_under, DataChild.under_inj] at hplace
        rw [Outline.place_under]
        exact .inr ((hrel hplace).resolve_left hk)
      | payloads => exact absurd rfl (hnone _ hslot)
    · -- Different slots belong to different children or augments.
      have horigins : ((reg.slots o r).map Slot.origin?).Nodup :=
        nodup_origins (h.linked hf.model) fun c hc hk =>
          hf.length_objects_le hp hc (by simp [hk, Kind.isLeafLike]) (by simp [hk])
      refine (List.pairwise_map.1 horigins).imp_of_mem fun {s s'} hs hs' hne t ht u hu hplace => ?_
      refine absurd ?_ hne
      rw [origin_of_mem_slotOutlines ht (hnone s hs), origin_of_mem_slotOutlines hu (hnone s' hs'),
        hplace]

/-- Where a later sibling on a trail has the key of an earlier one, the earlier one is overtaken. -/
theorem Reachable.overtaken_of_trail
    (ht : reg.Throughout (fun o r => reg.Found o r ∧ o.Proper) o r)
    (htrail : Trail r (reg.outlines o r) stops last) : ∀ stop ∈ stops, ∀ u ∈ stop.after,
      u.node.key = stop.here.node.key → stop.Overtaken := by
  -- One level: siblings of one place differ in key unless one of the exceptions holds.
  have hhere {o : Object} {r : Ref} {before after : List Outline} {here : Outline}
      (ht : reg.Throughout (fun o r => reg.Found o r ∧ o.Proper) o r)
      (heq : before ++ here :: after = reg.outlines o r) : ∀ u ∈ after,
        u.node.key = here.node.key → Stop.Overtaken ⟨r, before, here, after⟩ := by
    intro u hu hkey
    refine ⟨u, hu, hkey, ?_⟩
    by_cases hplace : here.place = u.place
    · have hpairs := h.pairwise_outlines ht
      rw [← heq, List.pairwise_append, List.pairwise_cons] at hpairs
      rcases hpairs.2.1.1 u hu hplace with hk | hk | hk
      · exact .inl hk
      · exact .inr (.inl hk)
      · exact .inr (.inr (.inl hk))
    · exact .inr (.inr (.inr (Ne.symm hplace)))
  generalize hall : reg.outlines o r = all at htrail
  induction htrail generalizing o with
  | last =>
    intro stop hstop
    obtain rfl := List.mem_singleton.1 hstop
    exact hhere ht hall.symm
  | @deeper holder before after here last stops hdeeper ih =>
    intro stop hstop
    rcases List.mem_cons.1 hstop with rfl | hstop
    · exact hhere ht hall.symm
    · obtain ⟨x, hx, hinside⟩ := exists_object_of_inside ht (t := here) (by simp [hall]) hdeeper.ne_nil
      exact ih hx hinside.symm stop hstop

/-! ### Where values end up -/

omit h in
/-- An object that is held is one of the parts of its holder, unless it is never asked for. -/
theorem Asked.exists_part (ha : Asked o r) (hf : reg.Found o r) (hx : o.Holds x) :
    ∃ s, reg.Part o r x s := by
  rcases hx with ⟨name, hx⟩ | hx | hx
  · obtain ⟨c, hc, rfl, hinner⟩ := ha.objects name x hx
    by_cases hk : c.kind = .choice
    · -- What stands in the field of a choice is the content of a case.
      obtain ⟨s, -, hs⟩ := hf.selects c hc hk x hx
      exact ⟨s, .layer (case_mem_slots_iff.2 ⟨hc, hk, hx, hs⟩)⟩
    · exact ⟨c, .field (field_mem_slots_iff.2 ⟨hc, hk⟩) hinner hx⟩
  · -- The classes of augmentations are distinct, so that looking for the class finds this one.
    obtain ⟨augment, haugment, hc⟩ := ha.augmentations x hx
    have hfound : o.augmentation? x.className = some x := by
      apply List.find?_eq_some_of_unique hx (by simp)
      intro y hy hclass
      exact List.eq_of_nodup_map ha.proper.nodup_classes hy hx (by simpa using hclass)
    have hslot : .layer (.augment augment) x ∈ reg.slots o r :=
      augment_mem_slots_iff.2 ⟨haugment, Option.bind_eq_some_iff.2 ⟨_, hc, hfound⟩⟩
    exact ⟨augment, .layer hslot⟩
  · have hk := ha.payloads x hx
    obtain ⟨s, hs⟩ := hf.payloads hk x hx
    exact ⟨s, .payload (payloads_mem_slots_iff.2 hk) hx hs⟩

omit h in
/-- Objects that hold nothing but what is asked for have a place for every object inside. -/
theorem exists_within (ht : reg.Throughout (fun o r => reg.Found o r ∧ Asked o r) o r)
    (hx : o.Leads path x) : ∃ s, reg.Within o r path x s := by
  induction hx generalizing r with
  | here => exact ⟨r, .here⟩
  | step holds _ ih =>
    obtain ⟨hf, ha⟩ := ht.here
    obtain ⟨s, hpart⟩ := ha.exists_part hf holds
    obtain ⟨q, hwithin⟩ := ih (ht.part hpart)
    exact ⟨q, .part hpart hwithin⟩

/-- What stands in the outline of an object occurs below its data node unless it is overtaken. -/
theorem Reachable.occurs_of_trail {n : Node}
    (ht : reg.Throughout (fun o r => reg.Found o r ∧ o.Proper) o r)
    (hn : (reg.outline o { node := r }).node = n) (hmem : n ∈ nodes)
    (htrail : Trail r (reg.outlines o r) stops last) :
    Occurs nodes (n.key :: stops.map fun stop => stop.here.node.key) last.node ∨
      ∃ stop ∈ stops, stop.Overtaken := by
  by_cases hover : ∃ stop ∈ stops, stop.Overtaken
  · exact .inr hover
  left
  have hinner : r.kind.isLeafLike = false := by
    -- There is no way down from a leaf.
    cases hk : r.kind.isLeafLike
    · rfl
    · exact absurd (outlines_of_isLeafLike (h.linked ht.here.1.model) hk) htrail.ne_nil
  apply Occurs.under hmem
  rw [← hn, Outline.children_node, outline_of_inner hinner]
  apply htrail.occurs
  intro stop hstop u hu hkey
  exact hover ⟨stop, hstop, h.overtaken_of_trail ht htrail stop hstop u hu hkey⟩

/-- An item has a schema node if it is written. -/
private theorem Reachable.yields_item (base : Option Ref) (item : Item) :
    Yields (fun a => reg.writeItem base a item)
      (match item with
        | .object o => ∃ r, reg.nodeOfClass? o.className = some r ∧ reg.Throughout reg.Found o r
        | .leaf leaf _ => ∃ s, reg.leafOf? leaf = some s)
      (topNodes reg item) := by
  intro a a' hw
  cases item with
  | object o =>
    obtain ⟨r, hr, -, -, hw⟩ := writeTop_eq_ok_iff.1 hw
    obtain ⟨hfound, ha'⟩ := h.yields_object (h.model_mem_of_nodeOfClass? hr) a a' hw
    refine ⟨⟨r, hr, hfound⟩, ?_⟩
    rw [topNodes, hr]
    exact ha'
  | leaf leaf values =>
    obtain ⟨s, hs, -, -, hw⟩ := writeLeafItem_eq_ok_iff.1 hw
    obtain ⟨owner, -, hleaf⟩ := Option.bind_eq_some_iff.1 hs
    have hk : s.kind.isLeafLike = true := by simpa using (Option.filter_eq_some_iff.1 hleaf).2
    refine ⟨⟨s, hs⟩, ?_⟩
    rw [topNodes, hs, Option.toList_some, List.flatMap_singleton]
    exact (yields_values hk values a a' hw).2

/-- Nothing is lost on the way from objects to data, provided that the objects hold nothing but what is
asked for. The values of a leaf are leaves at the top. Every object that a top-level object leads to
has a place, and every value that it holds is the one of a child of its schema node: the value stands in
the outline of the top-level object, at the end of a trail through objects on the way to it, and
wherever it stands there it occurs in the data, unless it or something on the trail is overtaken. -/
theorem Reachable.kept_of_write {d : ObjectData} {t : ResourceData} (hw : reg.write d = .ok t)
    (hasked : ∀ o, .object o ∈ d.items → ∀ r, reg.nodeOfClass? o.className = some r →
      reg.Throughout Asked o r) :
    (∀ leaf values, .leaf leaf values ∈ d.items → ∃ s, reg.leafOf? leaf = some s ∧
      ∀ v ∈ values, leafNode s v ∈ t.nodes) ∧
    ∀ o, .object o ∈ d.items → ∃ r, reg.nodeOfClass? o.className = some r ∧
      ∃ n ∈ t.nodes, (reg.outline o { node := r }).node = n ∧
        ∀ path x, o.Leads path x → ∃ s, reg.Within o r path x s ∧
          ∀ name, ∀ v ∈ x.leafValues name, ∃ child ∈ s.declared, child.name = name ∧
            child.kind.isLeafLike = true ∧
            (∃ stops place, Trail r (reg.outlines o r) stops (.leaf x place v) ∧
              place.node = child ∧
              (stops.filterMap fun stop => stop.here.object?).Sublist path) ∧
            ∀ stops place, Trail r (reg.outlines o r) stops (.leaf x place v) →
              place.node = child →
              Occurs t.nodes (n.key :: stops.map fun stop => stop.here.node.key)
                (leafNode child v) ∨ ∃ stop ∈ stops, stop.Overtaken := by
  obtain ⟨hitems, hnodes⟩ : (∀ item ∈ d.items, match item with
      | .object o => ∃ r, reg.nodeOfClass? o.className = some r ∧ reg.Throughout reg.Found o r
      | .leaf leaf _ => ∃ s, reg.leafOf? leaf = some s) ∧ t.nodes = d.items.flatMap (topNodes reg) := by
    obtain ⟨base, -, ⟨-, hnone, hnodes⟩ | ⟨-, a, ha, hfinish⟩⟩ := write_eq_ok_iff.1 hw
    · rw [hnone, hnodes]
      exact ⟨by simp, rfl⟩
    · obtain ⟨hall, rfl⟩ := Yields.foldlM (fun item _ => h.yields_item base item) _ a ha
      rw [Assembly.placeAll_forest rfl] at hfinish
      exact ⟨hall, (Except.ok.inj hfinish).symm⟩
  constructor
  · -- The values of a leaf stand at the top themselves.
    intro leaf values hmem
    obtain ⟨s, hs⟩ := hitems _ hmem
    refine ⟨s, hs, fun v hv => ?_⟩
    rw [hnodes, List.mem_flatMap]
    refine ⟨_, hmem, ?_⟩
    rw [topNodes, hs, Option.toList_some, List.flatMap_singleton]
    exact List.mem_map_of_mem hv
  · intro o hmem
    obtain ⟨r, hr, hfound⟩ := hitems _ hmem
    have hn : (reg.outline o { node := r }).node ∈ t.nodes := by
      rw [hnodes, List.mem_flatMap]
      refine ⟨_, hmem, ?_⟩
      rw [topNodes, hr]
      exact List.mem_singleton_self _
    -- The walk has come upon everything, and nothing but what it comes upon is there.
    have hboth := hfound.and (hasked o hmem r hr)
    refine ⟨r, hr, _, hn, rfl, fun path x hx => ?_⟩
    obtain ⟨s, hwithin⟩ := exists_within hboth hx
    refine ⟨s, hwithin, fun name v hv => ?_⟩
    obtain ⟨child, hc, hname, hk⟩ := (hwithin.throughout hboth).here.2.values name v hv
    refine ⟨child, hc, hname, hk, ?_, fun stops place htrail hplace => ?_⟩
    · exact exists_trail (hfound.imp fun hf => h.linked hf.model) hwithin hc hk (hname ▸ hv)
    · have hoccurs := h.occurs_of_trail (hboth.imp fun hb => ⟨hb.1, hb.2.proper⟩) rfl hn htrail
      rwa [Outline.node, hplace] at hoccurs

end Reachable

/-! ### A shop that is closed -/

namespace Shop

theorem outlines_pen : registry.outlines pen itemRef =
    [.leaf pen { node := nameRef } (.string "pen"), .leaf pen { node := tagRef } (.string "blue"),
      .leaf pen { node := tagRef } (.string "red")] := by
  rw [outlines_eq, slots_pen]
  rfl

theorem outlines_store : registry.outlines store storeRef =
    [.inner pen { node := itemRef } (registry.outlines pen itemRef)] := by
  rw [outlines_eq, slots_store, List.flatMap_singleton, slotOutlines, if_neg (by decide)]
  change [registry.outline pen { node := itemRef }] = _
  rw [outline_of_inner rfl]

/-- The store holds an item, and the item its name and tags, just as they are asked for. -/
theorem asked_store : registry.Throughout Asked store storeRef := by
  apply throughout_store
  · refine ⟨proper_pen, fun name v hv => ?_, fun name x hx => ?_, fun x hx => (by cases hx),
      fun x hx => (by cases hx)⟩
    · rw [pen, Class.leafValues_make] at hv
      split at hv
      · next hname =>
        have hnames : itemClass.valueNames = ["name", "tag"] := by decide
        simp only [hnames, List.mem_cons, List.not_mem_nil, or_false] at hname
        rcases hname with rfl | rfl
        · exact ⟨nameRef, List.mem_cons_self, rfl, rfl⟩
        · exact ⟨tagRef, List.mem_cons_of_mem nameRef List.mem_cons_self, rfl, rfl⟩
      · cases hv
    · rw [pen, Class.objects_make] at hx
      split at hx <;> cases hx
  · refine ⟨proper_store, fun name v hv => ?_, fun name x hx => ?_, fun x hx => (by cases hx),
      fun x hx => (by cases hx)⟩
    · rw [store, Class.leafValues_make] at hv
      split at hv <;> cases hv
    · rw [store, Class.objects_make] at hx
      split at hx
      · next hname =>
        have hnames : storeClass.objectNames = ["item"] := by decide
        obtain rfl : name = "item" := by simpa [hnames] using hname
        exact ⟨itemRef, List.mem_cons_self, rfl, rfl⟩
      · cases hx

end Shop

/-- The name of the pen in stock occurs below the pen. -/
theorem kept_of_write_stock : ∃ t, Shop.registry.write Shop.stock = .ok t ∧
    ∃ path, Occurs t.nodes path (leafNode Shop.nameRef (.string "pen")) := by
  obtain ⟨-, hobjects⟩ := Shop.sole.reachable.kept_of_write Shop.write_stock fun o ho r hr => by
    obtain ⟨rfl, rfl⟩ := Shop.eq_of_mem_stock ho hr
    exact Shop.asked_store
  obtain ⟨r, hr, n, -, -, hinside⟩ := hobjects Shop.store List.mem_cons_self
  obtain rfl : r = Shop.storeRef := Option.some.inj (hr.symm.trans Shop.nodeOfClass?_store)
  have hleads : Shop.store.Leads [Shop.pen] Shop.pen :=
    .step (.inl ⟨"item", List.mem_singleton_self _⟩) .here
  obtain ⟨s, hwithin, hvalues⟩ := hinside _ _ hleads
  have hitem : Shop.registry.Throughout (fun x q => x.type = Shop.itemClass → q = Shop.itemRef)
      Shop.store Shop.storeRef :=
    Shop.throughout_store (fun _ => rfl) fun htype => absurd htype (by decide)
  obtain rfl : s = Shop.itemRef := (hwithin.throughout hitem).here rfl
  obtain ⟨child, hc, hname, -, -, hoccurs⟩ := hvalues "name" (.string "pen") List.mem_cons_self
  obtain rfl : child = Shop.nameRef := by
    have hdeclared : Shop.itemRef.declared = [Shop.nameRef, Shop.tagRef] := rfl
    rw [hdeclared] at hc
    simp only [List.mem_cons, List.not_mem_nil, or_false] at hc
    rcases hc with rfl | rfl
    · rfl
    · exact absurd hname (by decide)
  -- The pen is the only item, and its name comes before its tags.
  have htrail : Trail Shop.storeRef (Shop.registry.outlines Shop.store Shop.storeRef)
      [⟨Shop.storeRef, [], .inner Shop.pen { node := Shop.itemRef }
          (Shop.registry.outlines Shop.pen Shop.itemRef), []⟩,
        ⟨Shop.itemRef, [], .leaf Shop.pen { node := Shop.nameRef } (.string "pen"),
          [.leaf Shop.pen { node := Shop.tagRef } (.string "blue"),
            .leaf Shop.pen { node := Shop.tagRef } (.string "red")]⟩]
      (.leaf Shop.pen { node := Shop.nameRef } (.string "pen")) := by
    rw [Shop.outlines_store, ← List.nil_append [_]]
    apply Trail.deeper
    rw [Outline.inside, Shop.outlines_pen, ← List.nil_append (_ :: _)]
    exact .last
  refine ⟨_, Shop.write_stock, _, (hoccurs _ _ htrail rfl).resolve_right ?_⟩
  rintro ⟨stop, hstop, u, hu, hkey, -⟩
  simp only [List.mem_cons, List.not_mem_nil, or_false] at hstop
  rcases hstop with rfl | rfl
  · cases hu
  · have hid := congrArg NodeKey.id hkey
    simp only [List.mem_cons, List.not_mem_nil, or_false] at hu
    rcases hu with rfl | rfl
    all_goals
      rw [Outline.node, Outline.node, key_id_leafNode, key_id_leafNode] at hid
      exact absurd hid (by decide)

/-! ### A note at the door

A note about the store is attached to it, although the schema knows nothing of notes. -/

namespace Shop

def noteClass : Class where
  className := "Note"
  typeName := "Note"
  fields := [⟨"text", "Note", .leaf .string⟩]

/-- A note with a text. -/
def note : Object := noteClass.make (fun _ => [.string "closed"]) (fun _ => []) [] []

/-- An empty store with a note attached. -/
def notedStore : Object := storeClass.make (fun _ => []) (fun _ => []) [note] []

def notice : ObjectData where
  items := [.object notedStore]

/-- The data node of the store, in which there is nothing. -/
def emptyStoreNode : Node := .inner { id := storeRef.id } .singleNode []

theorem write_notice : registry.write notice = .ok { id := .root, nodes := [emptyStoreNode] } := by
  refine write_eq_ok_iff.2 ⟨none, rfl, .inr ⟨by simp, { forest := [emptyStoreNode] }, ?_, rfl⟩⟩
  have htop : registry.writeTop none notedStore {} = .ok { forest := [emptyStoreNode] } := by
    refine writeTop_eq_ok_iff.2
      ⟨storeRef, nodeOfClass?_store, by decide, .inl (by decide +kernel), ?_⟩
    refine writeObject_of_content (b := { stack := [{ schema := storeRef }] })
      (c := { stack := [{ schema := storeRef }] }) (by decide) rfl ?_ rfl
    rw [writeContent_eq]
    simp only [writeField_unfold]
    rfl
  exact Except.bind_eq_ok_iff.2 ⟨_, htop, rfl⟩

end Shop

/-- The note is lost without a word: the data has just the store, which is no entry and no payload, and
no value occurs in it. -/
theorem note_lost : Shop.registry.Reachable ∧
    Shop.registry.write Shop.notice = .ok { id := .root, nodes := [Shop.emptyStoreNode] } ∧
    .object Shop.notedStore ∈ Shop.notice.items ∧
    Shop.registry.nodeOfClass? Shop.notedStore.className = some Shop.storeRef ∧
    Shop.storeRef.kind = .container ∧ Shop.note ∈ Shop.notedStore.augmentations ∧
    LeafValue.string "closed" ∈ Shop.note.leafValues "text" ∧
    ∀ path n, Occurs [Shop.emptyStoreNode] path n → n.value? = none := by
  refine ⟨Shop.sole.reachable, Shop.write_notice, List.mem_singleton_self _,
    Shop.nodeOfClass?_store, rfl, List.mem_singleton_self _, List.mem_singleton_self _, ?_⟩
  intro path n ho
  cases ho with
  | top mem =>
    obtain rfl := List.mem_singleton.1 mem
    rfl
  | under mem inside =>
    -- Nothing stands below the store.
    obtain rfl := List.mem_singleton.1 mem
    cases inside with
    | top mem => cases mem
    | under mem _ => cases mem

end Registry

end YangBinding
