import YangBinding.Proofs.Binding.Rooting

/-!
# What is written below anydata

An anydata node declares nothing. What may stand below it is registered as a payload of its class, and
the reader finds it among the payloads again. Objects inside of an anydata holder are written only if
they are registered. Objects at the top are not asked when the base is an anydata node: then it is up
to the caller that they are payloads.

## Main definitions

* `Registry.Licensed` — a registered payload of an anydata node
* `Registry.Housed` — a schema node is where its data node may stand

## Main results

* `Registry.Reachable.exists_childOf?_of_licensed` — what is licensed is found by its identifier
* `Registry.Reachable.guides_housed` — a walk over an object keeps to the places of schema nodes
* `Registry.Reachable.housed_of_write` — below anydata there are only registered payloads
-/

namespace YangBinding.Registry

open Schema (DataChild Kind Ref)
open YangBinding.Tree (Assembly Node ResourceData ResourceId)

/-- A schema node is bound to a class that is registered as a payload for the class of an anydata
node. -/
def Licensed (reg : Registry) (holder r : Ref) : Prop :=
  ∃ h c, holder.className = some h ∧ r.className = some c ∧ reg.payload? h c = some r

/-- A schema node is where its data node may stand: right below its data parent, among what the node
there offers, or below an anydata node. In the last case it is a registered payload, and its
identifier leads the reader to a payload with this identifier. -/
structure Housed (reg : Registry) (parent : Option Ref) (r : Ref) : Prop where
  model_mem : r.model ∈ reg.models
  home : r.dataParent? = parent ∨
    ∃ p, parent = some p ∧ (p.kind = .anydata ∨ ∃ e ∈ p.offers, e.node = r)
  licensed : ∀ p, parent = some p → p.kind = .anydata → reg.Licensed p r
  found : ∀ p, parent = some p → p.kind = .anydata →
    ∃ e, reg.childOf? parent r.name r.ns = some e ∧ e.node ∈ reg.payloads p ∧ e.node.id = r.id

variable {reg : Registry} {r p : Ref} {o : Object} {c : String} {parent base : Option Ref}
  {leaf : LeafId} {values : List LeafValue} {a a' : Assembly}

/-- An identifier of a registered payload leads to the first payload that has it. -/
theorem Reachable.exists_childOf?_of_licensed (h : reg.Reachable) (hp : p.kind = .anydata)
    (hl : reg.Licensed p r) : ∃ e, reg.childOf? (some p) r.name r.ns = some e ∧
      e.node ∈ reg.payloads p ∧ e.node.id = r.id := by
  obtain ⟨holder, c, hholder, hc, hpay⟩ := hl
  obtain ⟨hmem, hnode⟩ := payload?_eq_some_iff.1 hpay
  obtain ⟨n, hn⟩ := h.exists_ns (h.model_mem_of_nodeOfClass? hnode)
  have hbelow : ({ node := r } : DataChild) ∈ reg.below (some p) := by
    rw [below, if_pos hp]
    exact List.mem_map_of_mem
      (mem_payloads_iff.2 ⟨holder, c, hholder, by simpa [hasPayload] using hmem, hnode⟩)
  have hfits : r.id.fits r.name r.ns = true := Schema.Id.fits_self r.id
  obtain ⟨e, he⟩ := Option.isSome_iff_exists.1
    (List.find?_isSome (p := fun e : DataChild => e.node.id.fits r.name r.ns).2
      ⟨_, hbelow, hfits⟩)
  refine ⟨e, ?_, ?_, ?_⟩
  · -- The namespace is known, so that none is inherited from the holder.
    rw [childOf?, hn, preferredChild?, dataChild?_eq_find?, ← hn, he]
  · have hmem := List.mem_of_find?_eq_some he
    rw [below, if_pos hp] at hmem
    obtain ⟨q, hq, rfl⟩ := List.mem_map.1 hmem
    exact hq
  · exact Schema.Id.eq_of_fits hn
      (List.find?_some (p := fun e : DataChild => e.node.id.fits r.name r.ns) he)

/-- Apart from anydata a schema node needs a place only. -/
theorem housed_of_home (hr : r.model ∈ reg.models)
    (hhome : r.dataParent? = parent ∨ ∃ p, parent = some p ∧ ∃ e ∈ p.offers, e.node = r)
    (hany : ∀ p, parent = some p → p.kind ≠ .anydata) : reg.Housed parent r where
  model_mem := hr
  home := hhome.imp_right fun ⟨p, hp, he⟩ => ⟨p, hp, .inr he⟩
  licensed := fun p hp hk => absurd hk (hany p hp)
  found := fun p hp hk => absurd hk (hany p hp)

/-- Below anydata a schema node needs a registration only. -/
theorem Reachable.housed_of_licensed (h : reg.Reachable) (hp : p.kind = .anydata)
    (hl : reg.Licensed p r) : reg.Housed (some p) r where
  model_mem := by
    obtain ⟨holder, c, -, -, hpay⟩ := hl
    exact h.model_mem_of_nodeOfClass? (payload?_eq_some_iff.1 hpay).2
  home := .inr ⟨p, rfl, .inl hp⟩
  licensed := by
    rintro _ ⟨⟩ -
    exact hl
  found := by
    rintro _ ⟨⟩ -
    exact h.exists_childOf?_of_licensed hp hl

/-- A walk over an object keeps to the places of schema nodes: what a layer holds, the node around it
offers, and no anydata node has layers or fields. -/
theorem Reachable.guides_housed (h : reg.Reachable) : reg.Guides reg.Housed fun r p =>
    p.kind ≠ .anydata ∧ ∀ e ∈ r.offers, ∃ f ∈ p.offers, f.node = e.node where
  self := fun _ hk _ => ⟨hk, fun e he => ⟨e, he, rfl⟩⟩
  layer := fun _ ⟨hk, hoffers⟩ hlayer =>
    ⟨hk, fun e he => hoffers (e.under _) (Ref.mem_offers_of_mem_layers hlayer he)⟩
  field := by
    rintro r p child hr ⟨hk, hoffers⟩ hc ha
    obtain ⟨hchild, -⟩ := List.mem_filter.1 hc
    obtain ⟨hl, -⟩ := isAddressable_iff.1 ha
    refine housed_of_home (Ref.model_of_mem_children hchild ▸ hr)
      (.inr ⟨p, rfl, hoffers _ (Ref.mem_offers_nil_iff.2 ⟨hchild, hl⟩)⟩) ?_
    rintro _ ⟨⟩
    exact hk
  payload := by
    intro r s holder c hany hholder hs
    have hc := (h.bound_of_nodeOfClass? (payload?_eq_some_iff.1 hs).2).2
    exact h.housed_of_licensed hany ⟨holder, c, hholder, hc, hs⟩

/-! ### Positioned objects -/

section Reachable

variable (h : reg.Reachable)
include h

/-- A top-level object puts its data node below the base, if the base takes it. -/
theorem Reachable.housed_top (hbase : ∀ b, base = some b → b.model ∈ reg.models)
    (hl : ∀ b, base = some b → b.kind = .anydata →
      ∃ holder, b.className = some holder ∧ (reg.payload? holder o.className).isSome = true) :
    AddsOne base (fun n => n.Stands reg.Housed base) fun a => reg.writeTop base o a := by
  intro a a' ha hw
  obtain ⟨r, hr, hk, hplace, hw⟩ := writeTop_eq_ok_iff.1 hw
  obtain ⟨hm, hc⟩ := h.bound_of_nodeOfClass? hr
  have hhoused : reg.Housed base r := by
    by_cases hany : ∃ b, base = some b ∧ b.kind = .anydata
    · obtain ⟨b, rfl, hb⟩ := hany
      obtain ⟨holder, hholder, hsome⟩ := hl b rfl hb
      obtain ⟨s, hs⟩ := Option.isSome_iff_exists.1 hsome
      -- A payload is looked up by its class, as the object is.
      obtain rfl : r = s := Option.some.inj (hr.symm.trans (payload?_eq_some_iff.1 hs).2)
      exact h.housed_of_licensed hb ⟨holder, _, hholder, hc, hs⟩
    · exact housed_of_home hm (.inl (h.eq_of_samePlace hm hbase (hplace.resolve_right hany)))
        fun b hb hk => hany ⟨b, hb, hk⟩
  obtain ⟨n, hn, hstands⟩ := h.guides_housed.addsOne_object h hm hhoused a a' ha hw
  exact ⟨n, hn, Node.stands_iff.2 ⟨r, hstands⟩⟩

/-- The values of a leaf put their data nodes below the base, which is no anydata node. -/
theorem Reachable.housed_leafItem (hbase : ∀ b, base = some b → b.model ∈ reg.models) :
    Adds base (·.Stands reg.Housed base) fun a => reg.writeLeafItem base leaf values a := by
  refine h.adds_values hbase fun s hm _ hparent => housed_of_home hm (.inl hparent) ?_
  rintro b rfl hk
  -- Nothing has its data parent in a node that declares nothing.
  have := (Ref.dataAncestors_of_dataParent? (h.linked hm) hparent).2
  simp [hk, Kind.canHoldChildren] at this

/-- Below every anydata node of a forest that is written, however deep, there are only registered
payloads of the class of the node, and the reader finds a payload under the identifier of each of
them. At the top this takes that the objects are payloads of the base, if the base is an anydata
node. -/
theorem Reachable.housed_of_write {d : ObjectData} {t : ResourceData}
    (hl : ∀ b, reg.toResourceId d.id = .ok (t.id, some b) → b.kind = .anydata →
      ∀ o, .object o ∈ d.items →
        ∃ holder, b.className = some holder ∧ (reg.payload? holder o.className).isSome = true)
    (hw : reg.write d = .ok t) :
    ∃ base, reg.toResourceId d.id = .ok (t.id, base) ∧ ∀ n ∈ t.nodes, n.Stands reg.Housed base := by
  obtain ⟨base, hid, hw⟩ := write_eq_ok_iff.1 hw
  refine ⟨base, hid, ?_⟩
  rcases hw with ⟨-, -, hnodes⟩ | ⟨-, a, ha, hfinish⟩
  · simp [hnodes]
  · have hbase : ∀ b, base = some b → b.model ∈ reg.models :=
      h.model_mem_of_followSteps (by simp) hid
    have hitems : Adds base (·.Stands reg.Housed base) fun a =>
        d.items.foldlM (reg.writeItem base) a := by
      refine .foldlM fun item hitem => ?_
      cases item with
      | object o =>
        refine (h.housed_top hbase ?_).adds
        rintro b rfl hb
        exact hl b hid hb o hitem
      | leaf leaf values => exact h.housed_leafItem hbase
    obtain ⟨forest, rfl, hforest⟩ := hitems { base } a rfl ha
    rw [Assembly.placeAll_forest rfl] at hfinish
    cases hfinish
    exact hforest

end Reachable

/-- A cover may be put into a sack. -/
theorem housed_of_write_cover :
    Crate.registry.write (Crate.objectIn "Sack" "Cover") =
        .ok (Crate.dataIn Crate.sackRef Crate.coverRef) ∧
      ∃ base, Crate.registry.toResourceId (Crate.idOf "Sack") =
          .ok (Crate.addressOf Crate.sackRef, base) ∧
        ∀ n ∈ (Crate.dataIn Crate.sackRef Crate.coverRef).nodes,
          n.Stands Crate.registry.Housed base := by
  have hwrite : Crate.registry.write (Crate.objectIn "Sack" "Cover") =
      .ok (Crate.dataIn Crate.sackRef Crate.coverRef) :=
    Crate.write_objectIn Crate.onTop_sack rfl (Crate.nodeOfClass?_eq rfl rfl) rfl rfl rfl (.inr rfl)
  refine ⟨hwrite, Crate.sole.reachable.housed_of_write ?_ hwrite⟩
  intro b hb _ o ho
  obtain rfl : o = (Crate.bareClass "Cover").new := by simpa [Crate.objectIn] using ho
  have hbase := hb.symm.trans Crate.onTop_sack.resource
  cases hbase
  exact ⟨"Sack", rfl, by decide +kernel⟩

/-- The box inside of a box may be put into a sack too, although it is no payload of a sack, and no
payload is found under its identifier. -/
theorem innerBox_unlicensed : Crate.registry.Reachable ∧ Crate.sackRef.kind = .anydata ∧
    Crate.registry.toResourceId (Crate.objectIn "Sack" "InnerBox").id =
      .ok (Crate.addressOf Crate.sackRef, some Crate.sackRef) ∧
    Crate.registry.write (Crate.objectIn "Sack" "InnerBox") =
      .ok (Crate.dataIn Crate.sackRef Crate.innerBoxRef) ∧
    Crate.sackRef.className = some "Sack" ∧ Crate.registry.payload? "Sack" "InnerBox" = none ∧
    ∀ n ∈ (Crate.dataIn Crate.sackRef Crate.innerBoxRef).nodes,
      (Crate.registry.childOf? (some Crate.sackRef) n.key.name n.key.ns).isNone = true :=
  ⟨Crate.sole.reachable, rfl, Crate.onTop_sack.resource,
    Crate.write_objectIn Crate.onTop_sack rfl (Crate.nodeOfClass?_eq rfl rfl) rfl rfl rfl (.inr rfl),
    rfl, Option.isNone_iff_eq_none.1 (by decide +kernel), by decide +kernel⟩

end YangBinding.Registry
