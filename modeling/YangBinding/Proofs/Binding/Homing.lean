import YangBinding.Proofs.Binding.Address
import YangBinding.Proofs.Binding.Readout

/-!
# The place of data that is read

The object id of a resource id may stand for another resource id, since the keys of list entries are
read as values of their types and namespaces are filled in. It leads to the same schema node all the
same, unless that is an operation: an operation has no step of its own, so that the way back to it is
lost if it comes last.

## Main definitions

* `Registry.StepTo` — a step to a schema node, and the key that it stands for

## Main results

* `Registry.Reversible.stepTo_of_keyStep?` — the step made of a key leads to the same node
* `Registry.Reversible.toResourceId_of_resolve` — an object id leads back to where its resource id led
-/

namespace YangBinding.Registry

open Schema (DataChild Kind Model Ref)
open YangBinding.Tree (KeyLeaf NodeKey ResourceId)

/-- A step names the class of a schema node, and stands for a key that selects the node. -/
structure StepTo (step : Step) (r : Ref) (key : NodeKey) : Prop where
  isLeaf_eq : step.isLeaf = false
  exists_class : ∃ c, step.className? = some c ∧ r.className = some c
  stepKey_eq : stepKey r step = .ok key
  id_eq : key.id = r.id
  fits : fitsSelector r.kind key.selector = true

variable {reg : Registry} {m : Model} {r s p : Ref} {e : DataChild} {parent base : Option Ref}
  {key : NodeKey} {keys : List NodeKey} {rid : ResourceId} {oid oid' : ObjectId}
  {out : Option Step}

/-! ### Steps -/

/-- A step leads to its node from wherever the identifier of the node does. -/
theorem StepTo.resolveKey_eq {step : Step} (h : StepTo step e.node key)
    (he : reg.childOf? parent e.node.name e.node.ns = some e) (id : ResourceId) :
    reg.resolveKey id parent key = .ok e.node := by
  refine resolveKey_eq_ok_iff.2 ⟨e, ?_, h.fits, rfl⟩
  rw [NodeKey.name, NodeKey.ns, h.id_eq]
  exact he

theorem Reversible.isAddressable_of_mem_below (h : reg.Reversible m)
    (hp : ∀ b, parent = some b → b.model = m) (he : e ∈ reg.below parent) :
    isAddressable e.node.kind = true := by
  rw [isAddressable_iff]
  cases parent with
  | none =>
    obtain ⟨module, hmodule, he⟩ := h.sole.mem_below_root_iff.1 he
    have hm := Ref.model_of_mem_moduleRefs hmodule
    exact ⟨Ref.isLayer_of_mem_offers he, Ref.kind_of_mem_offers (hm ▸ h.sole.linked) he⟩
  | some b =>
    have hb := hp b rfl
    by_cases hany : b.kind = .anydata
    · rw [below, if_pos hany] at he
      obtain ⟨s, hs, rfl⟩ := List.mem_map.1 he
      exact ⟨h.payload_shown b (Ref.mem_refs_iff.2 hb) hany s hs,
        (h.holdsObjects_of_mem_payloads hb hany hs).kind_ne_module⟩
    · rw [below, if_neg hany] at he
      exact ⟨Ref.isLayer_of_mem_offers he, Ref.kind_of_mem_offers (hb ▸ h.sole.linked) he⟩

/-- Below a node there is no operation. -/
theorem Reversible.kind_ne_rpc (h : reg.Reversible m) (hp : p.model = m) (hk : p.kind ≠ .module)
    (he : e ∈ reg.below (some p)) : e.node.kind ≠ .rpc := by
  by_cases hany : p.kind = .anydata
  · rw [below, if_pos hany] at he
    obtain ⟨s, hs, rfl⟩ := List.mem_map.1 he
    intro hrpc
    have hholds := h.holdsObjects_of_mem_payloads hp hany hs
    simp [HoldsObjects, hrpc] at hholds
  · rw [below, if_neg hany] at he
    exact Ref.kind_ne_rpc_of_mem_offers (hp ▸ h.sole.linked) hk he

/-- Whatever key can be made of the leaves of an entry, it has the keys of the list. -/
theorem Reversible.exists_keyLeaves (h : reg.Reversible m) (hr : r.model = m) (hk : r.kind = .list)
    {leaves : List KeyLeaf} {k : Key} (hentry : reg.entryKey r leaves = .ok k) :
    ∃ leaves', r.keys.mapM (keyLeafOf r k) = .ok leaves' := by
  obtain ⟨type, htype, hfold⟩ := Except.bind_eq_ok_iff.1 hentry
  obtain ⟨hregular, hfields⟩ :=
    h.entry_key r (Ref.mem_refs_iff.2 hr) hk type (found_eq_ok_iff.1 htype)
  have htyped : k.Typed type := by
    refine List.foldlM_keeps (P := fun k => k.Typed type) ?_ (Key.typed_new hregular) hfold
    intro leaf _ k k' hk hset
    obtain ⟨field, hfield, hset⟩ := Except.bind_eq_ok_iff.1 hset
    exact (hk.exists_of_set hregular (List.mem_of_find?_eq_some (found_eq_ok_iff.1 hfield))
      (ofField_eq_ok_iff.1 hset)).1
  refine List.exists_mapM_eq_ok fun name hname => ?_
  obtain ⟨field, hfield, rfl⟩ := hfields name hname
  obtain ⟨v, hv, -⟩ := htyped.get_eq hregular hfield
  obtain ⟨c, hc, -, hcn⟩ := Ref.exists_keyLeaf (hr ▸ h.sole.built) hk hname
  obtain ⟨leaf, hleaf⟩ : ∃ leaf, r.child? field.name = some leaf := by
    rw [Ref.child?, ← Option.isSome_iff_exists, List.find?_isSome]
    exact ⟨c, hc, by simpa using hcn⟩
  exact ⟨_, keyLeafOf_eq_ok_iff.2
    ⟨field, v, leaf, htyped.type_eq ▸ hregular.leaf?_eq hfield, hv, hleaf, rfl⟩⟩

/-- The step that is made of a key at a node leads to this node. -/
theorem Reversible.stepTo_of_keyStep? (h : reg.Reversible m) (hr : r.model = m)
    (hleaf : r.kind.isLeafLike = false) (hrpc : r.kind ≠ .rpc)
    (hk : reg.keyStep? r key = .ok out) :
    ∃ step key', out = some step ∧ StepTo step r key' := by
  cases keyStep?_eq_ok_iff.1 hk with
  | operation hkind => exact absurd hkind hrpc
  | @child c _ hlist _ hclass =>
    refine ⟨_, _, rfl, rfl, ⟨c, rfl, hclass⟩, stepKey_eq_ok_iff.2 (.child hlist), rfl, ?_⟩
    cases hkind : r.kind <;> simp_all [fitsSelector]
  | @entry c leaves k hlist _ hclass hentry =>
    obtain ⟨leaves', hleaves⟩ := h.exists_keyLeaves hr hlist hentry
    exact ⟨_, _, rfl, rfl, ⟨c, rfl, hclass⟩, stepKey_eq_ok_iff.2 (.entry hlist hleaves), rfl,
      by simp [hlist, fitsSelector]⟩
  | leaf hkind =>
    obtain hkind | ⟨hkind, -⟩ := hkind <;> simp [hkind, Kind.isLeafLike] at hleaf
  | leafEntry hkind => simp [hkind, Kind.isLeafLike] at hleaf

/-! ### The way back -/

/-- What a resource id leads to below a node that is a leaf is the leaf. -/
theorem Sole.isLeafLike_of_resolve (h : reg.Sole m) (hp : p.model = m)
    (hbase : ∀ b, base = some b → b.kind.isLeafLike = false)
    (hr : keys.foldlM (fun parent key => some <$> reg.resolveKey rid parent key) (some p) = .ok base) :
    p.kind.isLeafLike = false := by
  cases keys with
  | nil =>
    cases hr
    exact hbase p rfl
  | cons key keys =>
    obtain ⟨_, hr, -⟩ := Except.bind_eq_ok_iff.1 hr
    obtain ⟨s, hs, -⟩ := Except.map_eq_ok_iff.1 hr
    obtain ⟨e, he, -⟩ := resolveKey_eq_ok_iff.1 hs
    exact h.isLeafLike_of_mem_below hp (h.mem_below_of_childOf? he).1

/-- What one key of a resource id that leads to no leaf does: it adds a step to its node. -/
theorem Reversible.exists_stepTo (h : reg.Reversible m) (hm : e.node.model = m)
    (he : reg.childOf? parent key.name key.ns = some e) (hrpc : e.node.kind ≠ .rpc)
    (hbase : ∀ b, base = some b → b.kind.isLeafLike = false)
    (hr : keys.foldlM (fun parent key => some <$> reg.resolveKey rid parent key) (some e.node) =
      .ok base)
    (hf : reg.followKeys rid (key :: keys) oid parent = .ok oid') :
    ∃ step key' oid₁, StepTo step e.node key' ∧ oid₁.steps = oid.steps ++ [step] ∧
      reg.followKeys rid keys oid₁ (some e.node) = .ok oid' := by
  obtain ⟨child, step?, oid₁, hchild, hstep, hpush, hf⟩ := followKeys_cons_iff.1 hf
  cases he.symm.trans hchild
  obtain ⟨step, key', rfl, hto⟩ :=
    h.stepTo_of_keyStep? hm (h.sole.isLeafLike_of_resolve hm hbase hr) hrpc hstep
  exact ⟨step, key', oid₁, hto, steps_of_push hpush, hf⟩

/-- Below a node, the steps that are made of keys lead to where the keys lead. -/
theorem Reversible.followSteps_of_followKeys (h : reg.Reversible m) (hp : p.model = m)
    (hk : p.kind ≠ .module) (hbase : ∀ b, base = some b → b.kind.isLeafLike = false)
    (hr : keys.foldlM (fun parent key => some <$> reg.resolveKey rid parent key) (some p) = .ok base)
    (hf : reg.followKeys rid keys oid (some p) = .ok oid') :
    ∃ steps keys', oid'.steps = oid.steps ++ steps ∧
      (∀ id rid₀, reg.followSteps id steps rid₀ (some p) = .ok (⟨rid₀.segments ++ keys'⟩, base)) ∧
      ∀ id, keys'.foldlM (fun parent key => some <$> reg.resolveKey id parent key) (some p) =
        .ok base := by
  -- By induction on the keys: each is replaced by the key that its step stands for.
  induction keys generalizing p oid with
  | nil =>
    cases hr
    cases hf
    exact ⟨[], [], by simp, by simp [followSteps], fun _ => rfl⟩
  | cons key keys ih =>
    obtain ⟨_, hfirst, hr⟩ := Except.bind_eq_ok_iff.1 hr
    obtain ⟨s, hs, rfl⟩ := Except.map_eq_ok_iff.1 hfirst
    obtain ⟨e, he, -, rfl⟩ := resolveKey_eq_ok_iff.1 hs
    have hparent : ∀ b, some p = some b → b.model = m := by
      rintro _ ⟨⟩
      exact hp
    have hbelow := (h.sole.mem_below_of_childOf? he).1
    have hagain := h.sole.childOf?_again hparent h.nodup_root he
    have hm := h.sole.model_of_mem_below hparent hbelow
    have ha := h.isAddressable_of_mem_below hparent hbelow
    obtain ⟨step, key', oid₁, hto, hoid, hf⟩ :=
      h.exists_stepTo hm he (h.kind_ne_rpc hp hk hbelow) hbase hr hf
    obtain ⟨steps, keys', hsteps, hfollow, hresolve⟩ := ih hm (isAddressable_iff.1 ha).2 hr hf
    obtain ⟨c, hc, hclass⟩ := hto.exists_class
    refine ⟨step :: steps, key' :: keys', ?_, fun id rid₀ => ?_, fun id => ?_⟩
    · rw [hsteps, hoid]
      simp
    · refine followSteps_cons_iff.2 ⟨by simp [hto.isLeaf_eq], e.node, [], key',
        .inr ⟨⟨p, rfl, h.sole.locateBelow_of_class hm hagain hc hclass⟩, rfl⟩, hto.stepKey_eq, ?_⟩
      rw [hfollow]
      simp
    · exact Except.bind_eq_ok_iff.2
        ⟨_, Except.map_eq_ok_iff.2 ⟨_, hto.resolveKey_eq hagain id, rfl⟩, hresolve id⟩

/-- The way back from the first key that has a step. -/
theorem Reversible.toResourceId_of_first (h : reg.Reversible m) {above : List NodeKey}
    (hparent : ∀ b, parent = some b → b.model = m)
    (he : reg.childOf? parent key.name key.ns = some e) (hrpc : e.node.kind ≠ .rpc)
    (habove : e.node.dataAncestors.reverse.mapM ancestorKey = .ok above)
    (hbase : ∀ b, base = some b → b.kind.isLeafLike = false)
    (hr : keys.foldlM (fun parent key => some <$> reg.resolveKey rid parent key) (some e.node) =
      .ok base)
    (hf : reg.followKeys rid (key :: keys) .root parent = .ok oid) :
    ∃ keys', reg.toResourceId oid = .ok (⟨above ++ keys'⟩, base) ∧
      ∀ id, keys'.foldlM (fun parent key => some <$> reg.resolveKey id parent key) parent =
        .ok base := by
  have hbelow := (h.sole.mem_below_of_childOf? he).1
  have hagain := h.sole.childOf?_again hparent h.nodup_root he
  have hm := h.sole.model_of_mem_below hparent hbelow
  have ha := h.isAddressable_of_mem_below hparent hbelow
  obtain ⟨step, key', oid₁, hto, hoid, hf⟩ := h.exists_stepTo hm he hrpc hbase hr hf
  obtain ⟨steps, keys', hsteps, hfollow, hresolve⟩ :=
    h.followSteps_of_followKeys hm (isAddressable_iff.1 ha).2 hbase hr hf
  obtain ⟨c, hc, hclass⟩ := hto.exists_class
  have hall : oid.steps = step :: steps := by
    rw [hsteps, hoid]
    rfl
  refine ⟨key' :: keys', ?_, fun id => ?_⟩
  · rw [toResourceId, hall]
    refine followSteps_cons_iff.2 ⟨by simp [hto.isLeaf_eq], e.node, above, key',
      .inl ⟨rfl, h.sole.locateFirst_of_class hm ha hc hclass, habove⟩, hto.stepKey_eq, ?_⟩
    rw [hfollow]
    simp [ResourceId.root]
  · exact Except.bind_eq_ok_iff.2
      ⟨_, Except.map_eq_ok_iff.2 ⟨_, hto.resolveKey_eq hagain id, rfl⟩, hresolve id⟩

/-- The object id of a resource id leads to the same schema node, and so does the resource id that
is made of it, unless the node is a leaf or an operation. -/
theorem Reversible.toResourceId_of_resolve (h : reg.Reversible m)
    (hbase : ∀ b, base = some b → b.kind.isLeafLike = false ∧ b.kind ≠ .rpc)
    (hr : reg.resolve rid = .ok base) (hid : reg.toObjectId rid = .ok oid) :
    ∃ rid', reg.toResourceId oid = .ok (rid', base) ∧ reg.resolve rid' = .ok base := by
  have hleaf : ∀ b, base = some b → b.kind.isLeafLike = false := fun b hb => (hbase b hb).1
  rw [resolve] at hr
  rw [toObjectId] at hid
  cases hkeys : rid.segments with
  | nil =>
    rw [hkeys] at hr hid
    cases hr
    cases hid
    exact ⟨.root, rfl, rfl⟩
  | cons key keys =>
    rw [hkeys] at hr hid
    obtain ⟨_, hfirst, hrest⟩ := Except.bind_eq_ok_iff.1 hr
    obtain ⟨s, hs, rfl⟩ := Except.map_eq_ok_iff.1 hfirst
    obtain ⟨e, he, -, rfl⟩ := resolveKey_eq_ok_iff.1 hs
    have hbelow := (h.sole.mem_below_of_childOf? he).1
    by_cases hrpc : e.node.kind = .rpc
    · -- An operation has no step; that of the node below it puts the operation in front.
      cases keys with
      | nil =>
        cases hrest
        exact absurd hrpc (hbase _ rfl).2
      | cons key' keys =>
        obtain ⟨_, hsecond, hrest⟩ := Except.bind_eq_ok_iff.1 hrest
        obtain ⟨s, hs, rfl⟩ := Except.map_eq_ok_iff.1 hsecond
        obtain ⟨f, hf, -, rfl⟩ := resolveKey_eq_ok_iff.1 hs
        have hbelow' := (h.sole.mem_below_of_childOf? hf).1
        have hm := h.sole.model_of_mem_below (by simp) hbelow
        obtain ⟨child, step?, oid', hchild, hstep, hpush, hid⟩ := followKeys_cons_iff.1 hid
        cases he.symm.trans hchild
        rw [keyStep?, hrpc] at hstep
        cases hstep
        cases hpush
        have hmodule : e.node.kind ≠ .module := by simp [hrpc]
        obtain ⟨keys', hto, hback⟩ := h.toResourceId_of_first (by rintro _ ⟨⟩; exact hm) hf
          (h.kind_ne_rpc hm hmodule hbelow') (h.sole.ancestorKeys_of_rpc hbelow hrpc hbelow')
          hleaf hrest hid
        refine ⟨_, hto, Except.bind_eq_ok_iff.2 ⟨some e.node, ?_, hback _⟩⟩
        refine Except.map_eq_ok_iff.2 ⟨e.node, resolveKey_eq_ok_iff.2 ⟨e, ?_, ?_, rfl⟩, rfl⟩
        · exact h.sole.childOf?_again (by simp) h.nodup_root he
        · simp [hrpc, fitsSelector]
    · have habove : e.node.dataAncestors.reverse.mapM ancestorKey = .ok [] := by
        rw [h.sole.dataAncestors_of_mem_root hbelow]
        rfl
      obtain ⟨keys', hto, hback⟩ :=
        h.toResourceId_of_first (by simp) he hrpc habove hleaf hrest hid
      exact ⟨⟨[] ++ keys'⟩, hto, hback _⟩

end YangBinding.Registry
