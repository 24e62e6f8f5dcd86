import YangBinding.Proofs.Binding.Storing
import YangBinding.Proofs.Object.Key

/-!
# Objects in the making

While data is read, an object grows: children are stored in its fields, and behind each layer an
object of its own is filled. At every moment each thing in it can be written again. What may still be
missing in the end are the key leaves of a list entry. A leaf that has been stored stays, since
another value only takes its place, unless it is behind a case: a choice keeps the last case alone.

## Main definitions

* `Registry.Fit` — nothing in an object stands in the way of writing it
* `Registry.Forming` — nothing in an object stands in the way, but for the keys of a list entry
* `Registry.Offered`, `Registry.Awaits` — children that may be stored on an object of a node

## Main results

* `Registry.Classified.forming_fill` — an object is still in the making when children have been stored
* `Registry.Classified.shown_of_fill` — a leaf outside of cases that has been stored is there
* `Registry.Forming.fit` — an object that has its keys is fit
-/

namespace YangBinding

open Schema (DataChild Layer Model Ref)

namespace Class

variable (c : Class) (name : String)

@[simp]
theorem type_new : c.new.type = c := rfl

@[simp]
theorem objects_new : c.new.objects name = [] := by
  rw [new_eq_make, objects_make, ite_self]

@[simp]
theorem augmentation?_new : c.new.augmentation? name = none := rfl

@[simp]
theorem anydata_new : c.new.anydata = [] := rfl

end Class

namespace Registry

/-- An object of the class of a node in which nothing is missing, and so throughout. -/
def Fit (reg : Registry) : Object → Ref → Prop :=
  reg.Throughout fun o r => reg.classOf? r = some o.type ∧ o.Proper ∧ reg.Complete o r

/-- An object of the class of a node whose parts are all fit. -/
structure Forming (reg : Registry) (o : Object) (r : Ref) : Prop where
  type : reg.classOf? r = some o.type
  proper : o.Proper
  members : ∀ c ∈ r.declared, c.kind ≠ .choice → ∀ x ∈ o.objects c.name, reg.Fit x c
  cases : ∀ c ∈ r.declared, c.kind = .choice → ∀ x ∈ o.objects c.name,
    ∃ s ∈ c.cases, reg.nodeOfClass? x.className = some s ∧ reg.Fit x s
  augmentations : ∀ a ∈ r.augments, ∀ x, a.className.bind o.augmentation? = some x → reg.Fit x a
  payloads : r.kind = .anydata → ∀ x ∈ o.anydata,
    ∃ s, reg.payloadOf? r x = some s ∧ reg.Fit x s

/-- What a child that waits to be stored stands for, seen from the layers that it has passed. -/
def Pending.child (c : Pending) : DataChild := { node := c.schema, layers := c.layers }

/-- Children each of which a node offers, behind the layers that it still has to pass. -/
def Offered (children : List Pending) (r : Ref) : Prop := ∀ c ∈ children, c.child ∈ r.offers

/-- Children that may be stored on an object of a node: each is offered there, and if it has an object,
that is fit. -/
structure Awaits (reg : Registry) (children : List Pending) (r : Ref) : Prop where
  offered : Offered children r
  objects : ∀ c ∈ children, ∀ x, c.object = .ok x → reg.Fit x c.schema

variable {reg : Registry} {m : Model} {o o' x : Object} {r a : Ref} {child c : Pending}
  {children : List Pending} {l l' : Layer} {type : Class} {f : Field}

/-! ### Objects that are fit -/

theorem Fit.typed (h : reg.Fit o r) : reg.Typed o r := h.imp fun h => ⟨h.1, h.2.1⟩

theorem Fit.writable (h : reg.Fit o r) : reg.Writable o r := h.imp fun h => h.2.2

/-- An object that has its keys is fit. -/
theorem Forming.fit (h : reg.Forming o r) (hkeys : r.kind = .list → ∀ key ∈ r.keys,
    ∃ p ∈ reg.content o r, p.place.node.kind = .leaf ∧ p.place.node.name = key) : reg.Fit o r := by
  have hselects : reg.Selects o r := by
    intro choice hc hk x hx
    obtain ⟨s, hs, hnode, -⟩ := h.cases choice hc hk x hx
    exact ⟨s, hs, hnode⟩
  have hpayloads : r.kind = .anydata → ∀ x ∈ o.anydata, ∃ s, reg.payloadOf? r x = some s := by
    intro hk x hx
    obtain ⟨s, hs, -⟩ := h.payloads hk x hx
    exact ⟨s, hs⟩
  refine .mk ⟨h.type, h.proper, hselects, hkeys, hpayloads⟩ fun x s hpart => ?_
  refine forall_part (fun c hc hk _ => h.members c hc hk) (fun c hc hk x hx s hnode => ?_)
    h.augmentations (fun hk x hx s hnode => ?_) hpart
  · obtain ⟨s', -, hs', hfit⟩ := h.cases c hc hk x hx
    obtain rfl : s' = s := Option.some.inj (hs'.symm.trans hnode)
    exact hfit
  · obtain ⟨s', hs', hfit⟩ := h.payloads hk x hx
    obtain rfl : s' = s := Option.some.inj (hs'.symm.trans hnode)
    exact hfit

/-- An object in which nothing is set has nothing in it that could be wrong. -/
theorem forming_new (hc : reg.classOf? r = some type) : reg.Forming type.new r where
  type := hc
  proper := Object.proper_new type
  members := by simp
  cases := by simp
  augmentations := by
    intro a _ x hx
    obtain ⟨name, -, hx⟩ := Option.bind_eq_some_iff.1 hx
    cases hx
  payloads := by simp

/-! ### Layers -/

/-- Layers of a node that are at the same place are the same. -/
theorem layer_eq_of_beq (hl : l ∈ r.layers) (hl' : l' ∈ r.layers) (h : (l == l') = true) : l = l' := by
  have hmodel := (Ref.model_of_mem_layers hl).trans (Ref.model_of_mem_layers hl').symm
  cases l with
  | augment a =>
    cases l' with
    | augment b =>
      obtain rfl : a = b := (Ref.beq_ref_iff hmodel).1 h
      rfl
    | case d t => cases h
  | case c s =>
    cases l' with
    | augment b => cases h
    | case d t =>
      obtain ⟨hc, -⟩ := Ref.case_mem_layers_iff.1 hl
      obtain ⟨hd, -⟩ := Ref.case_mem_layers_iff.1 hl'
      have hchoice := (Ref.model_of_mem_children hc).trans (Ref.model_of_mem_children hd).symm
      have hboth : (c == d) = true ∧ (s == t) = true := Bool.and_eq_true_iff.1 h
      obtain rfl : c = d := (Ref.beq_ref_iff hchoice).1 hboth.1
      obtain rfl : s = t := (Ref.beq_ref_iff hmodel).1 hboth.2
      rfl

/-- A layer of a node appears among the distinct ones. -/
theorem mem_distinct {ls : List Layer} (hls : ∀ l ∈ ls, l ∈ r.layers) (h : l ∈ ls) :
    l ∈ distinct ls := by
  induction ls with
  | nil => cases h
  | cons l₀ ls ih =>
    rw [distinct, List.mem_cons, List.mem_filter]
    by_cases hl₀ : (l₀ == l) = true
    · exact .inl (layer_eq_of_beq (hls l₀ List.mem_cons_self) (hls l h) hl₀).symm
    · have hmem : l ∈ ls := by
        rcases List.mem_cons.1 h with rfl | h
        · exact absurd (beq_self l) hl₀
        · exact h
      exact .inr ⟨ih (fun l hl => hls l (List.mem_cons_of_mem _ hl)) hmem, by simpa using hl₀⟩

/-- A layer that a child passes next is a layer of the node, and behind it the child is offered. -/
theorem Offered.of_next? (hc : Offered children r) (hmem : c ∈ children) (hl : c.next? = some l) :
    l ∈ r.layers ∧ c.behind.child ∈ l.node.offers := by
  obtain ⟨rest, hlayers⟩ := List.head?_eq_some_iff.1 hl
  have hoffer := hc c hmem
  rw [Pending.child, hlayers] at hoffer
  rw [Pending.child, Pending.behind, hlayers]
  exact Ref.mem_offers_cons_iff.1 hoffer

theorem Offered.mem_layers (hc : Offered children r) (hl : l ∈ children.filterMap Pending.next?) :
    l ∈ r.layers := by
  obtain ⟨c, hmem, hnext⟩ := List.mem_filterMap.1 hl
  exact (hc.of_next? hmem hnext).1

/-- Behind a layer are the children that are offered there. -/
theorem Offered.behind (hc : Offered children r) (hl : l ∈ r.layers) :
    Offered (behind l children) l.node := by
  intro c hmem
  obtain ⟨d, hd, rfl⟩ := List.mem_map.1 hmem
  obtain ⟨hd, hnext⟩ := List.mem_filter.1 hd
  obtain ⟨l', hl', heq⟩ := (Option.any_eq_true _ _).1 hnext
  obtain ⟨hlayer, hoffer⟩ := hc.of_next? hd hl'
  obtain rfl := layer_eq_of_beq hl hlayer heq
  exact hoffer

theorem Awaits.behind (hc : reg.Awaits children r) (hl : l ∈ r.layers) :
    reg.Awaits (behind l children) l.node := by
  refine ⟨hc.offered.behind hl, fun c hmem => ?_⟩
  obtain ⟨d, hd, rfl⟩ := List.mem_map.1 hmem
  exact hc.objects d (List.mem_filter.1 hd).1

/-- A child that passes no layer is declared in the node itself. -/
theorem Offered.mem_declared (hc : Offered children r) (hmem : c ∈ children) (hl : c.layers = []) :
    c.schema ∈ r.declared := by
  have hoffer := hc c hmem
  rw [Pending.child, hl] at hoffer
  obtain ⟨hchild, hlayer⟩ := Ref.mem_offers_nil_iff.1 hoffer
  refine List.mem_filter.2 ⟨hchild, ?_⟩
  by_contra hk
  have hk : c.schema.kind = .augment := by simpa using hk
  simp [Ref.isLayer_eq_false_iff, hk] at hlayer

/-! ### Content -/

/-- A leaf that holds a value contributes. -/
theorem mem_content_of_leafValues {s : Ref} (hs : s ∈ r.declared) (hk : s.kind.isLeafLike = true)
    (hv : o.leafValues s.name ≠ []) : ∃ p ∈ reg.content o r, p.place.node = s := by
  obtain ⟨v, hv⟩ := List.exists_mem_of_ne_nil _ hv
  have hchoice : s.kind ≠ .choice := by
    rintro hchoice
    simp [hchoice, Schema.Kind.isLeafLike] at hk
  refine ⟨{ place := { node := s }, data := leafNode s v }, mem_content_iff.2
    ⟨.field s, field_mem_slots_iff.2 ⟨hs, hchoice⟩, ?_⟩, rfl⟩
  rw [slotContent, if_pos hk]
  exact List.mem_map_of_mem hv

/-- What an augmentation contributes, the object contributes. -/
theorem mem_content_of_augmentation {s : Ref} (ha : a ∈ r.augments)
    (hx : a.className.bind o.augmentation? = some x) (hs : ∃ p ∈ reg.content x a, p.place.node = s) :
    ∃ p ∈ reg.content o r, p.place.node = s := by
  obtain ⟨p, hp, rfl⟩ := hs
  have hslot : .layer (.augment a) x ∈ reg.slots o r := augment_mem_slots_iff.2 ⟨ha, hx⟩
  exact ⟨p.under (.augment a), mem_content_iff.2 ⟨_, hslot, List.mem_map_of_mem hp⟩, rfl⟩

/-! ### Steps -/

theorem Sole.nodeOfClass?_of_classOf? (h : reg.Sole m) (hr : r.model = m)
    (hc : reg.classOf? r = some type) : r.className = some type.className ∧
      reg.nodeOfClass? type.className = some r := by
  obtain ⟨name, hname, hclass⟩ := Option.bind_eq_some_iff.1 hc
  obtain rfl := h.reachable.className_of_class? hclass
  exact ⟨hname, h.nodeOfClass?_eq_some_iff.2 ⟨hr, hname⟩⟩

/-- The augmentation for an augment is what was last filled behind it. -/
theorem Sole.augmentation_of_storeBehind (h : reg.Sole m) (hr : r.model = m) (ha : a ∈ r.augments)
    (hs : reg.storeBehind children o l = .ok o') (hl : l ∈ r.layers) :
    (l = .augment a ∧ ∃ type x, reg.classOf? a = some type ∧
        reg.fill (behind l children) type.new = .ok x ∧
        a.className.bind o'.augmentation? = some x) ∨
      l ≠ .augment a ∧ a.className.bind o'.augmentation? = a.className.bind o.augmentation? := by
  obtain ⟨type, x, htype, hfill, ⟨b, rfl, rfl⟩ | ⟨_, _, _, rfl, -, -, -, rfl⟩⟩ :=
    storeBehind_cases hs
  · have hclass : x.className = type.className := congrArg Class.className (type_of_fill hfill)
    have hbm := (Ref.model_of_mem_layers hl).trans hr
    obtain ⟨hname, -⟩ := h.nodeOfClass?_of_classOf? hbm htype
    by_cases hab : a.className = some x.className
    · obtain rfl : b = a := h.eq_of_className hbm ((Ref.model_of_mem_augments ha).trans hr) hname
        (hclass ▸ hab)
      refine .inl ⟨rfl, type, x, htype, hfill, ?_⟩
      rw [hab, Option.bind_some, Object.augmentation?_addAugmentation, if_pos rfl]
    · refine .inr ⟨by rintro ⟨⟩; exact hab (hclass ▸ hname), ?_⟩
      cases hac : a.className with
      | none => rfl
      | some name =>
        rw [Option.bind_some, Option.bind_some, Object.augmentation?_addAugmentation, if_neg]
        rintro rfl
        exact hab hac
  · exact .inr ⟨by simp, by simp⟩

section Classified

variable (h : reg.Classified m) (hr : r.model = m) (hh : HoldsObjects r)
include h hr hh

theorem Classified.eq_of_declared_name {c d : Ref} (hc : c ∈ r.declared) (hd : d ∈ r.declared)
    (hn : c.name = d.name) : c = d :=
  List.eq_of_nodup_map (h.nodup_declared r (Ref.mem_refs_iff.2 hr) hh) hc hd hn

/-- No two fields of the class of a node go by the same name. -/
theorem Classified.eq_of_field_name {g : Field} (hc : reg.classOf? r = some type)
    (hf : f ∈ type.ownFields) (hg : g ∈ type.ownFields) (hn : g.name = f.name) : g = f := by
  obtain ⟨c, hcd, hcf⟩ := h.exists_child hr hh hc hf
  obtain ⟨d, hdd, hdg⟩ := h.exists_child hr hh hc hg
  obtain rfl := h.eq_of_declared_name hr hh hcd hdd
    (hcf.name_eq.symm.trans (hn.symm.trans hdg.name_eq))
  exact Except.ok.inj (hdg.found.symm.trans hcf.found)

/-- Storing a fit object in its field leaves the object in the making. -/
theorem Classified.forming_updateMember {c : Ref} (ho : reg.Forming o r) (hc : c ∈ r.declared)
    (hf : reg.FieldFor o.type c f) (hv : f.type.holdsValues = false)
    (hmember : c.kind ≠ .choice → reg.Fit x c)
    (hcase : c.kind = .choice → ∃ s ∈ c.cases, reg.nodeOfClass? x.className = some s ∧ reg.Fit x s) :
    reg.Forming (o.updateMember f.name fun xs => f.type.kept xs ++ [x]) r := by
  have hobjects := ho.proper.objects_updateMember (Field.name_mem_objectNames hf.own hv)
    fun xs => f.type.kept xs ++ [x]
  -- What is stored under the name of a child is what was there, or the new object if it is the one.
  have hstored {d : Ref} (hd : d ∈ r.declared) {y : Object}
      (hy : y ∈ (o.updateMember f.name fun xs => f.type.kept xs ++ [x]).objects d.name) :
      y ∈ o.objects d.name ∨ d = c ∧ y = x := by
    rw [hobjects] at hy
    split at hy
    · next hname =>
      obtain rfl := h.eq_of_declared_name hr hh hd hc (hname.trans hf.name_eq)
      rcases List.mem_append.1 hy with hy | hy
      · exact .inl (hname ▸ FieldType.mem_of_mem_kept hy)
      · exact .inr ⟨rfl, List.mem_singleton.1 hy⟩
    · exact .inl hy
  refine ⟨by simpa using ho.type, ?_, ?_, ?_, ?_, ?_⟩
  · exact ho.proper.updateMember hf.own
      (fun g hg hn => h.eq_of_field_name hr hh ho.type hf.own hg hn) hv
  · intro d hd hk y hy
    rcases hstored hd hy with hy | ⟨rfl, rfl⟩
    · exact ho.members d hd hk y hy
    · exact hmember hk
  · intro d hd hk y hy
    rcases hstored hd hy with hy | ⟨rfl, rfl⟩
    · exact ho.cases d hd hk y hy
    · exact hcase hk
  · simpa using ho.augmentations
  · simpa using ho.payloads

/-- Storing a child in its field leaves an object in the making. -/
theorem Classified.forming_assign (ho : reg.Forming o r) (hc : child.schema ∈ r.declared)
    (hobject : ∀ x, child.object = .ok x → reg.Fit x child.schema)
    (ha : assign o child = .ok o') : reg.Forming o' r := by
  obtain ⟨f, hf, -, hcases⟩ := assign_cases ha
  obtain ⟨f', hfield⟩ := h.exists_field hr hh ho.type hc
  obtain rfl : f' = f := Except.ok.inj (hfield.found.symm.trans hf)
  rcases hcases with ⟨t, _, stored, ht, -, hstored, rfl⟩ | ⟨t, x, ht, hx, rfl⟩
  · refine ⟨by simpa using ho.type, ?_, by simpa using ho.members, by simpa using ho.cases,
      by simpa using ho.augmentations, by simpa using ho.payloads⟩
    exact ho.proper.updateLeaf hfield.own
      (fun g hg hn => h.eq_of_field_name hr hh ho.type hfield.own hg hn) ht
      (Scalar.store?_of_store? hstored)
  · have hk : child.schema.kind ≠ .choice := by
      intro hk
      have hsuits := hfield.suits
      rcases ht with ht | ht <;> simp [ht, hk, FieldType.suits, Schema.Kind.isSingleObject] at hsuits
    refine h.forming_updateMember hr hh ho hc hfield ?_ (fun _ => hobject x hx)
      fun hchoice => absurd hchoice hk
    rcases ht with ht | ht <;> rw [ht] <;> rfl

/-- Storing what is behind a layer leaves an object in the making. -/
theorem Classified.forming_storeBehind (ho : reg.Forming o r) (hl : l ∈ r.layers)
    (hcontent : ∀ type x, reg.classOf? l.node = some type →
      reg.fill (behind l children) type.new = .ok x → reg.Fit x l.node)
    (hs : reg.storeBehind children o l = .ok o') : reg.Forming o' r := by
  obtain ⟨type, x, htype, hfill, hcases⟩ := storeBehind_cases hs
  have hfit := hcontent type x htype hfill
  have hclass : x.className = type.className := congrArg Class.className (type_of_fill hfill)
  obtain ⟨hname, hnode⟩ :=
    h.sole.nodeOfClass?_of_classOf? ((Ref.model_of_mem_layers hl).trans hr) htype
  -- An augmentation is looked up by its class, a case is in the field of its choice.
  rcases hcases with ⟨a, rfl, rfl⟩ | ⟨choice, s, f, rfl, hf, hft, -, rfl⟩
  · refine ⟨by simpa using ho.type, ho.proper.addAugmentation, by simpa using ho.members,
      by simpa using ho.cases, ?_, by simpa using ho.payloads⟩
    intro b hb y hy
    obtain ⟨name, hbname, hy⟩ := Option.bind_eq_some_iff.1 hy
    rw [Object.augmentation?_addAugmentation] at hy
    split at hy
    · next heq =>
      cases hy
      obtain rfl : a = b := h.sole.eq_of_className ((Ref.model_of_mem_layers hl).trans hr)
        ((Ref.model_of_mem_augments hb).trans hr) (heq ▸ hclass ▸ hname) hbname
      exact hfit
    · exact ho.augmentations b hb y (Option.bind_eq_some_iff.2 ⟨name, hbname, hy⟩)
  · obtain ⟨hc, hk, hcase⟩ := Ref.case_mem_layers_iff.1 hl
    have hdeclared : choice ∈ r.declared := List.mem_filter.2 ⟨hc, by simp [hk]⟩
    obtain ⟨f', hfield⟩ := h.exists_field hr hh ho.type hdeclared
    obtain rfl : f' = f := Option.some.inj (hfield.field?_eq.symm.trans hf)
    exact h.forming_updateMember hr hh ho hdeclared hfield (by rw [hft]; rfl)
      (fun hne => absurd hk hne) fun _ => ⟨s, hcase, hclass ▸ hnode, hfit⟩

/-- An object is still in the making when the children that it awaits have been stored. -/
theorem Classified.forming_fill (hc : reg.Awaits children r) (ho : reg.Forming o r)
    (hf : reg.fill children o = .ok o') : reg.Forming o' r := by
  -- By induction on the layers that are still to be passed.
  induction hn : layerCount children using Nat.strongRecOn generalizing children o o' r with
  | ind n ih =>
    rw [fill_eq] at hf
    obtain ⟨mid, hmid, hf⟩ := Except.bind_eq_ok_iff.1 hf
    have hfields : reg.Forming mid r := by
      refine List.foldlM_keeps (P := (reg.Forming · r)) (fun c hmem b b' hb ha => ?_) ho hmid
      obtain ⟨hmem, hl⟩ := List.mem_filter.1 hmem
      exact h.forming_assign hr hh hb (hc.offered.mem_declared hmem (List.isEmpty_iff.1 hl))
        (hc.objects c hmem) ha
    refine List.foldlM_keeps (P := (reg.Forming · r)) (fun l hmem b b' hb hs => ?_) hfields hf
    have hl := hc.offered.mem_layers (mem_of_mem_distinct hmem)
    refine h.forming_storeBehind hr hh hb hl (fun type x htype hfill => ?_) hs
    have hx := ih _ (hn ▸ layerCount_behind_lt hmem) ((Ref.model_of_mem_layers hl).trans hr)
      (hh.of_mem_layers (hr.symm ▸ h.sole.linked) hl) (hc.behind hl) (forming_new htype) hfill rfl
    refine hx.fit fun hk => ?_
    have hlayer := Ref.isLayer_of_mem_layers (hr.symm ▸ h.sole.linked) hl
    simp [Ref.isLayer_iff, hk] at hlayer

/-! ### What has been stored is there -/

/-- A value that has been stored stays, whatever is stored later. -/
theorem Classified.leafValues_ne_nil_of_assign (ho : reg.Forming o r) (hc : c.schema ∈ r.declared)
    {name : String} (hv : o.leafValues name ≠ []) (ha : assign o c = .ok o') :
    o'.leafValues name ≠ [] := by
  obtain ⟨f, hf, -, ⟨t, _, _, ht, -, -, rfl⟩ | ⟨_, _, -, -, rfl⟩⟩ := assign_cases ha
  · obtain ⟨f', hfield⟩ := h.exists_field hr hh ho.type hc
    obtain rfl : f' = f := Except.ok.inj (hfield.found.symm.trans hf)
    have hvalues := FieldType.holdsValues_of_scalar? ht
    rw [ho.proper.leafValues_updateLeaf (Field.name_mem_valueNames hfield.own hvalues)]
    split
    · simp
    · exact hv
  · simpa using hv

/-- Storing a leaf leaves a value behind. -/
theorem Classified.leafValues_ne_nil_of_assign_self (ho : reg.Forming o r)
    (hc : c.schema ∈ r.declared) (hk : c.schema.kind.isLeafLike = true) (ha : assign o c = .ok o') :
    o'.leafValues c.schema.name ≠ [] := by
  obtain ⟨f, hf, -, hcases⟩ := assign_cases ha
  obtain ⟨f', hfield⟩ := h.exists_field hr hh ho.type hc
  obtain rfl : f' = f := Except.ok.inj (hfield.found.symm.trans hf)
  have hvalues := hfield.holdsValues_eq.trans hk
  rcases hcases with ⟨_, _, _, -, -, -, rfl⟩ | ⟨_, _, ht, -, -⟩
  · rw [ho.proper.leafValues_updateLeaf (Field.name_mem_valueNames hfield.own hvalues),
      if_pos hfield.name_eq.symm]
    simp
  · rcases ht with ht | ht <;> simp [ht, FieldType.holdsValues] at hvalues

/-- A leaf that passes no layers is there when the children have been stored. -/
theorem Classified.shown_of_fill_own (hc : reg.Awaits children r) (ho : reg.Forming o r)
    (hf : reg.fill children o = .ok o') (hmem : c ∈ children)
    (hk : c.schema.kind.isLeafLike = true) (hl : c.layers = []) :
    ∃ p ∈ reg.content o' r, p.place.node = c.schema := by
  rw [fill_eq] at hf
  obtain ⟨mid, hmid, hf⟩ := Except.bind_eq_ok_iff.1 hf
  have hdeclared {d : Pending} (hd : d ∈ children.filter fun c => c.layers.isEmpty) :
      d.schema ∈ r.declared :=
    hc.offered.mem_declared (List.mem_filter.1 hd).1 (List.isEmpty_iff.1 (List.mem_filter.1 hd).2)
  have hself : c ∈ children.filter fun c => c.layers.isEmpty :=
    List.mem_filter.2 ⟨hmem, by simp [hl]⟩
  have hstored : mid.leafValues c.schema.name ≠ [] :=
    List.foldlM_reaches (I := (reg.Forming · r)) (P := (·.leafValues c.schema.name ≠ []))
      (fun d hd b b' hb ha => h.forming_assign hr hh hb (hdeclared hd)
        (hc.objects d (List.mem_filter.1 hd).1) ha)
      ho hself
      (fun b b' hb ha => h.leafValues_ne_nil_of_assign_self hr hh hb (hdeclared hself) hk ha)
      (fun d hd b b' hb hv ha => h.leafValues_ne_nil_of_assign hr hh hb (hdeclared hd) hv ha) hmid
  -- What is stored behind layers touches no value of the object itself.
  have hkept : o'.leafValues c.schema.name ≠ [] := by
    refine List.foldlM_keeps (P := (·.leafValues c.schema.name ≠ []))
      (fun l _ b b' hb hs => ?_) hstored hf
    obtain ⟨_, _, -, -, ⟨_, -, rfl⟩ | ⟨_, _, _, -, -, -, -, rfl⟩⟩ := storeBehind_cases hs <;>
      simpa using hb
  exact mem_content_of_leafValues (hdeclared hself) hk hkept

omit hh in
/-- What is filled behind an augment shows when the children have been stored. -/
theorem Classified.shown_of_fill_augment {s : Ref} (hc : Offered children r)
    (hf : reg.fill children o = .ok o') (ha : a ∈ r.augments)
    (hpass : .augment a ∈ nextLayers children)
    (hfilled : ∀ type x, reg.classOf? a = some type →
      reg.fill (behind (.augment a) children) type.new = .ok x →
      ∃ p ∈ reg.content x a, p.place.node = s) :
    ∃ p ∈ reg.content o' r, p.place.node = s := by
  rw [fill_eq] at hf
  obtain ⟨mid, -, hf⟩ := Except.bind_eq_ok_iff.1 hf
  obtain ⟨x, hx, hshown⟩ : ∃ x, a.className.bind o'.augmentation? = some x ∧
      ∃ p ∈ reg.content x a, p.place.node = s := by
    refine List.foldlM_reaches (I := fun _ => True) (P := fun b => ∃ x,
      a.className.bind b.augmentation? = some x ∧ ∃ p ∈ reg.content x a, p.place.node = s)
      (fun _ _ _ _ _ _ => trivial) trivial hpass (fun b b' _ hs => ?_)
      (fun l hl b b' _ hb hs => ?_) hf
    · obtain ⟨-, type, x, htype, hfill, hx⟩ | ⟨hne, -⟩ :=
        h.sole.augmentation_of_storeBehind hr ha hs (Ref.augment_mem_layers ha)
      · exact ⟨x, hx, hfilled type x htype hfill⟩
      · exact absurd rfl hne
    · obtain ⟨rfl, type, x, htype, hfill, hx⟩ | ⟨-, heq⟩ :=
        h.sole.augmentation_of_storeBehind hr ha hs (hc.mem_layers (mem_of_mem_distinct hl))
      · exact ⟨x, hx, hfilled type x htype hfill⟩
      · rwa [heq]
  exact mem_content_of_augmentation ha hx hshown

/-- A leaf that passes no layers but augments is there when the children have been stored. -/
theorem Classified.shown_of_fill (hc : reg.Awaits children r) (ho : reg.Forming o r)
    (hf : reg.fill children o = .ok o') (hmem : c ∈ children)
    (hk : c.schema.kind.isLeafLike = true) (hl : ∀ l ∈ c.layers, ∃ a, l = .augment a) :
    ∃ p ∈ reg.content o' r, p.place.node = c.schema := by
  -- By induction on the layers that are still to be passed.
  induction hn : layerCount children using Nat.strongRecOn generalizing children c o o' r with
  | ind n ih =>
    cases hlayers : c.layers with
    | nil => exact h.shown_of_fill_own hr hh hc ho hf hmem hk hlayers
    | cons l rest =>
      obtain ⟨a, rfl⟩ := hl l (by simp [hlayers])
      have hnext : c.next? = some (.augment a) := by simp [Pending.next?, hlayers]
      have hlayer := (hc.offered.of_next? hmem hnext).1
      have hpass : .augment a ∈ nextLayers children :=
        mem_distinct (fun l hl => hc.offered.mem_layers hl) (List.mem_filterMap.2 ⟨c, hmem, hnext⟩)
      have hbehind : c.behind ∈ behind (.augment a) children := by
        refine List.mem_map_of_mem (List.mem_filter.2 ⟨hmem, ?_⟩)
        rw [hnext]
        exact beq_self _
      refine h.shown_of_fill_augment hr hc.offered hf (Ref.augment_mem_layers_iff.1 hlayer) hpass
        fun type x htype hx => ?_
      exact ih (c := c.behind) _ (hn ▸ layerCount_behind_lt hpass)
        ((Ref.model_of_mem_layers hlayer).trans hr)
        (hh.of_mem_layers (hr.symm ▸ h.sole.linked) hlayer) (hc.behind hlayer)
        (forming_new htype) hx hbehind hk (fun l hl' => hl l (List.mem_of_mem_tail hl')) rfl

end Classified

end Registry

end YangBinding
