import YangBinding.Proofs.Binding.Route

/-!
# Conversion of addresses

A resource id that was made of an object id leads to the node that the conversion found, names every
entry by the keys of its list, and passes no layer of the schema. Whenever it can be converted back,
the object id found, which may be another one, stands for the same resource id. Only what is added to an
augment of a choice has a resource id that leads nowhere.

## Main definitions

* `Registry.MakesStep` — the step that a key of a node is turned into
* `Registry.Names` — a step names the class of its node, or the leaf that its node is

## Main results

* `Registry.keyStep?_eq_ok_iff` — a key is turned into a step exactly as `Registry.MakesStep` says
* `Registry.TypedEntry.keyLeaves` — the keys of a list entry, in the order of their declaration
* `Registry.TypedEntry.mapM_of_entryKey` — typed keys survive the way back
* `Registry.toResourceId_consistent` — both directions of the conversion agree
* `Registry.booth_unresolved` — a resource id that leads nowhere
-/

namespace YangBinding.Registry

open Schema (DataChild Kind Model Ref)
open YangBinding.Tree (KeyLeaf NodeKey ResourceId Selector)

variable {reg : Registry} {m : Model} {r p node : Ref} {e : DataChild} {c : String}
  {parent last : Option Ref} {key : NodeKey} {stops : List (NodeKey × Ref)}
  {leaves : List KeyLeaf}

/-! ### Keys of list entries -/

/-- How the key leaf for a declared key comes about. -/
theorem keyLeafOf_eq_ok_iff {k : Key} {name : String} {leaf : KeyLeaf} :
    keyLeafOf r k name = .ok leaf ↔ ∃ field v c, k.type.leaf? name = some field ∧
      k.get field = .ok v ∧ r.child? name = some c ∧ leaf = { id := c.id, value := v } := by
  have ofField_iff {v : LeafValue} {x : Except FieldError LeafValue} :
      Result.ofField x = .ok v ↔ x = .ok v := by
    cases x <;> simp [Result.ofField]
  simp only [keyLeafOf, Except.bind_eq_ok_iff, found_eq_ok_iff, ofField_iff]
  constructor
  · rintro ⟨field, hfield, v, hv, c, hc, ⟨⟩⟩
    exact ⟨field, v, c, hfield, hv, hc, rfl⟩
  · rintro ⟨field, v, c, hfield, hv, hc, rfl⟩
    exact ⟨field, hfield, v, hv, c, hc, rfl⟩

theorem name_of_child? {name : String} {c : Ref} (h : r.child? name = some c) : c.name = name := by
  simpa using List.find?_some h

/-- The keys of a list entry are those that the list declares, in order: each is a key leaf of the
list with its identifier. -/
theorem TypedEntry.keyLeaves (h : reg.Navigable m) (hm : r.model = m) (hk : r.kind = .list)
    (ht : reg.TypedEntry r leaves) :
    List.Forall₂ (fun name (leaf : KeyLeaf) =>
      ∃ c ∈ r.children, c.kind = .leaf ∧ c.name = name ∧ leaf.id = c.id) r.keys leaves := by
  obtain ⟨k, type, -, -, -, hleaves⟩ := ht
  have hkeys : ∀ name ∈ r.keys, ∃ c ∈ r.children, c.kind = .leaf ∧ c.name = name :=
    fun name hname => Ref.exists_keyLeaf (hm ▸ h.sole.built) hk hname
  have hboth := (List.forall₂_and_left _ _).2 ⟨hkeys, List.mapM_eq_ok_iff.1 hleaves⟩
  refine hboth.imp ?_
  rintro name leaf ⟨⟨c, hc, hck, hcn⟩, hleaf⟩
  obtain ⟨field, v, c', -, -, hc', rfl⟩ := keyLeafOf_eq_ok_iff.1 hleaf
  refine ⟨c, hc, hck, hcn, ?_⟩
  -- The first child of the name is the leaf, since names of children are distinct.
  have hmem {x : Ref} (hx : x ∈ r.children) : x ∈ r.declared := by
    refine List.mem_filter.2 ⟨hx, ?_⟩
    have hadm := Ref.admits_of_parent? (Ref.model_of_mem_children hx ▸ hm ▸ h.sole.linked)
      ((Ref.mem_children_iff (hm ▸ h.sole.linked)).1 hx)
    cases hxk : x.kind <;> simp [Model.Admits, Kind.admits, hk, hxk] at hadm ⊢
  have heq := List.eq_of_nodup_map (h.nodup_declared r (Ref.mem_refs_iff.2 hm))
    (hmem (List.mem_of_find?_eq_some hc')) (hmem hc) ((name_of_child? hc').trans hcn.symm)
  rw [heq]

/-- Setting the leaves of a list entry in a new key gives a typed key that holds their values. -/
theorem foldlM_set {type : KeyClass} {k k₀ k₂ : Key} (hregular : type.Regular) (hk : k.Typed type)
    (hk₀ : k₀.Typed type)
    (hleaves : ∀ l ∈ leaves, ∃ field ∈ type.leaves, field.name = l.id.name ∧
      k.values.lookup l.id.name = some l.value)
    (hfold : leaves.foldlM (fun key (leaf : KeyLeaf) => do
      let field ← Result.found (.noKeyLeaf type.className leaf.id.name) (type.leaf? leaf.id.name)
      Result.ofField (Key.set key field leaf.value)) k₀ = Except.ok k₂) :
    k₂.Typed type ∧ ∀ name, k₂.values.lookup name =
      if name ∈ leaves.map (fun l => l.id.name) then k.values.lookup name
      else k₀.values.lookup name := by
  -- By induction on the leaves, for any key to start with.
  induction leaves generalizing k₀ with
  | nil =>
    cases hfold
    exact ⟨hk₀, by simp⟩
  | cons l leaves ih =>
    obtain ⟨k₁, hk₁, hfold⟩ := Except.bind_eq_ok_iff.1 hfold
    obtain ⟨field, hfield, hname, hvalue⟩ := hleaves l List.mem_cons_self
    have hlookup := hregular.leaf?_eq hfield
    rw [hname] at hlookup
    obtain ⟨v, hv, hstore⟩ := hk.values field hfield
    rw [hname, hvalue] at hv
    cases hv
    obtain ⟨k₁', hset, htyped, hset'⟩ := hk₀.set hregular hfield hstore
    obtain rfl : k₁' = k₁ := by
      simp only [hlookup] at hk₁
      simpa [Result.found, Except.bind_eq_ok_iff, hset, Result.ofField] using hk₁
    obtain ⟨htyped₂, hvalues⟩ := ih htyped (fun l hl => hleaves l (List.mem_cons_of_mem _ hl)) hfold
    refine ⟨htyped₂, fun name => ?_⟩
    rw [hvalues, hset', hname]
    by_cases hmem : name ∈ leaves.map fun l => l.id.name
    · simp [hmem]
    · by_cases heq : name = l.id.name
      · subst heq
        simp [hvalue]
      · simp [heq]

/-- Keys survive the way back: the key made of the leaves of an entry yields the same leaves. -/
theorem TypedEntry.mapM_of_entryKey {k₂ : Key} (ht : reg.TypedEntry r leaves)
    (hk : reg.entryKey r leaves = .ok k₂) : r.keys.mapM (keyLeafOf r k₂) = .ok leaves := by
  obtain ⟨k, type, htype, hregular, htyped, hleaves⟩ := ht
  obtain ⟨type', htype', hk⟩ := Except.bind_eq_ok_iff.1 hk
  obtain rfl : type = type' := Option.some.inj (htype.symm.trans (found_eq_ok_iff.1 htype'))
  have hall := List.mapM_eq_ok_iff.1 hleaves
  -- What is known of each leaf: its field, and its value in the first key.
  have hinfo {name : String} {leaf : KeyLeaf} (hl : keyLeafOf r k name = .ok leaf) :
      leaf.id.name = name ∧ ∃ field ∈ type.leaves, field.name = leaf.id.name ∧
        k.values.lookup leaf.id.name = some leaf.value := by
    obtain ⟨field, v, c, hfield, hget, hc, rfl⟩ := keyLeafOf_eq_ok_iff.1 hl
    rw [htyped.type_eq] at hfield
    have hmem := List.mem_of_find?_eq_some hfield
    have hname : field.name = name := by simpa using List.find?_some hfield
    obtain ⟨w, hw, hlookup, -⟩ := htyped.get_eq hregular hmem
    obtain rfl : w = v := Except.ok.inj (hw.symm.trans hget)
    have hcn : c.id.name = name := name_of_child? hc
    refine ⟨hcn, field, hmem, hname.trans hcn.symm, ?_⟩
    rw [hcn, ← hname]
    exact hlookup
  have hfields : ∀ l ∈ leaves, ∃ field ∈ type.leaves, field.name = l.id.name ∧
      k.values.lookup l.id.name = some l.value := by
    intro l hl
    obtain ⟨name, -, hname⟩ := List.exists_of_mapM_eq_ok hleaves hl
    exact (hinfo hname).2
  obtain ⟨htyped₂, hvalues⟩ := foldlM_set hregular htyped (Key.typed_new hregular) hfields hk
  have hnames : ∀ name ∈ r.keys, name ∈ leaves.map fun l => l.id.name := by
    intro name hname
    obtain ⟨leaf, hleaf, hl⟩ := List.exists_mem_of_mapM_eq_ok hleaves hname
    exact List.mem_map.2 ⟨leaf, hleaf, (hinfo hl).1⟩
  refine List.mapM_eq_ok_iff.2 (((List.forall₂_and_left _ _).2
    ⟨hnames, List.mapM_eq_ok_iff.1 hleaves⟩).imp ?_)
  rintro name leaf ⟨hname, hl⟩
  obtain ⟨hid, field, hfield, hfieldName, hvalue⟩ := hinfo hl
  obtain ⟨-, w, c, -, -, hc, hleaf⟩ := keyLeafOf_eq_ok_iff.1 hl
  obtain ⟨v, hget, hv, -⟩ := htyped₂.get_eq hregular hfield
  have hlookup := hvalues name
  rw [if_pos hname, ← hid, hvalue, ← hfieldName, hv] at hlookup
  cases hlookup
  refine keyLeafOf_eq_ok_iff.2 ⟨field, _, c, ?_, hget, hc, ?_⟩
  · rw [htyped₂.type_eq, ← hid, ← hfieldName]
    exact hregular.leaf?_eq hfield
  · rw [hleaf]

/-! ### Steps and keys -/

theorem Sole.nodeOfClass_of_className (h : reg.Sole m) (hm : r.model = m)
    (hc : r.className = some c) : reg.nodeOfClass c = .ok r :=
  nodeOfClass_eq_ok_iff.2 (h.nodeOfClass?_eq_some_iff.2 ⟨hm, hc⟩)

/-- A class leads to its node as a first step. -/
theorem Sole.locateFirst_of_class (h : reg.Sole m) {step : Step} (hm : r.model = m)
    (ha : isAddressable r.kind = true) (hs : step.className? = some c)
    (hc : r.className = some c) : reg.locateFirst step = .ok r := by
  exact locateFirst_eq_ok_iff.2 (.inl ⟨c, hs, h.nodeOfClass?_eq_some_iff.2 ⟨hm, hc⟩, ha⟩)

/-- A class leads to its node as a later step, if the identifier of the node does. -/
theorem Sole.locateBelow_of_class (h : reg.Sole m) {step : Step} (hm : e.node.model = m)
    (hchild : reg.childOf? (some p) e.node.name e.node.ns = some e)
    (hs : step.className? = some c) (hc : e.node.className = some c) :
    reg.locateBelow p step = .ok e.node := by
  have hname : reg.stepName step = .ok (e.node.name, e.node.ns) := by
    cases step <;> cases hs <;>
      exact Except.bind_eq_ok_iff.2 ⟨_, h.nodeOfClass_of_className hm hc, rfl⟩
  refine locateBelow_eq_ok_iff.2 ⟨_, _, e, hname, hchild, rfl, fun c' hc' => ?_⟩
  obtain rfl : c = c' := Option.some.inj (hs.symm.trans hc')
  exact hc

/-- A class leads to its node as a later step, if the node is below the one before. -/
theorem Navigable.locateBelow_of_class (h : reg.Navigable m) {step : Step} (hp : p.model = m)
    (hpa : isAddressable p.kind = true) (he : e ∈ reg.below (some p))
    (hs : step.className? = some c) (hc : e.node.className = some c) :
    reg.locateBelow p step = .ok e.node := by
  have hcontext : ∀ r, some p = some r → r.model = m ∧ isAddressable r.kind = true := by
    rintro r ⟨⟩
    exact ⟨hp, hpa⟩
  have hm := (h.step_context hcontext he e.node rfl).1
  exact h.sole.locateBelow_of_class hm (h.sole.childOf?_of_mem_below (fun r hr => (hcontext r hr).1)
    (h.nodup_ids hcontext) he) hs hc

/-- A leaf is found by its name below the node that holds it. -/
theorem Navigable.locateBelow_of_leaf (h : reg.Navigable m) {step : Step} (hp : p.model = m)
    (hpa : isAddressable p.kind = true) (he : e ∈ reg.below (some p))
    (hs : step.className? = none) (hname : reg.stepName step = .ok (e.node.name, none)) :
    reg.locateBelow p step = .ok e.node := by
  obtain ⟨hl, hk⟩ := isAddressable_iff.1 hpa
  have hchild := h.sole.childOf?_of_nodup_names
    (h.nodup_below p (Ref.mem_refs_iff.2 hp) hl hk) he
  exact locateBelow_eq_ok_iff.2 ⟨_, _, e, hname, hchild, rfl, by simp [hs]⟩

/-- The class around a leaf is that of the node that it is declared in, if it has one; from there
its name leads to the leaf. -/
theorem Navigable.locateFirst_of_leaf (h : reg.Navigable m) {step : Step} {l : LeafId}
    (hm : r.model = m) (hr : r.kind.isLeafLike = true) (hp : r.parent? = some p)
    (hc : p.className = some c) (hl : leafId r = .ok l)
    (hs : step = .leaf l ∨ ∃ v, step = .leafEntry l v) : reg.locateFirst step = .ok r := by
  have hpm : p.model = m := (Ref.model_of_parent? hp).trans hm
  have howner : l = { owner := c, name := r.name } := by
    have henc : r.enclosingClass? = some c := by
      rw [Ref.enclosingClass?, Ref.enclosing_eq hp, List.findSome?_cons, hc]
    obtain ⟨owner, ho, hl⟩ := Except.bind_eq_ok_iff.1 hl
    rw [found_eq_ok_iff, henc] at ho
    cases ho
    cases hl
    rfl
  subst howner
  have hlayer := Ref.isLayer_of_isLeafLike hr
  have hfind : p.findDataChild? r.name none = some { node := r } :=
    Ref.findDataChild?_of_parent (hm ▸ h.sole.linked)
      (h.nodup_declared p (Ref.mem_refs_iff.2 hpm)) hp hlayer
  exact locateFirst_eq_ok_iff.2 (.inr ⟨_, p, _, hs, h.sole.nodeOfClass?_eq_some_iff.2 ⟨hpm, hc⟩,
    hfind, rfl⟩)

theorem eq_of_suits {selector : Selector} (hs : reg.Suits key r) (hsel : key.selector = selector) :
    key = { id := r.id, selector } := by
  obtain ⟨id, selector'⟩ := key
  cases hsel
  cases hs.id_eq
  rfl

theorem name_of_leafId {l : LeafId} (hl : leafId r = .ok l) : l.name = r.name := by
  obtain ⟨owner, -, hl⟩ := Except.bind_eq_ok_iff.1 hl
  cases hl
  rfl

/-- The step that a key of a node is turned into; an operation needs none. -/
inductive MakesStep (reg : Registry) (r : Ref) (key : NodeKey) : Option Step → Prop where
  | operation (hkind : r.kind = .rpc) : reg.MakesStep r key none
  | child {c : String} (hleaf : r.kind.isLeafLike = false) (hlist : r.kind ≠ .list)
    (hrpc : r.kind ≠ .rpc) (hclass : r.className = some c) :
    reg.MakesStep r key (some (.child c))
  | entry {c : String} {leaves : List KeyLeaf} {k : Key} (hkind : r.kind = .list)
    (hselector : key.selector = .list leaves) (hclass : r.className = some c)
    (hentry : reg.entryKey r leaves = .ok k) : reg.MakesStep r key (some (.entry c k))
  | leaf {l : LeafId} (hkind : r.kind = .leaf ∨ r.kind = .leafList ∧ key.selector = .single)
    (hid : leafId r = .ok l) : reg.MakesStep r key (some (.leaf l))
  | leafEntry {l : LeafId} {v : LeafValue} (hkind : r.kind = .leafList)
    (hselector : key.selector = .leafList v) (hid : leafId r = .ok l) :
    reg.MakesStep r key (some (.leafEntry l v))

theorem makesStep_of_keyStep? {out : Option Step} (hk : reg.keyStep? r key = .ok out) :
    reg.MakesStep r key out := by
  unfold keyStep? at hk
  split at hk
  · next hkind =>
    cases hk
    exact .operation hkind
  · next hkind =>
    obtain ⟨l, hl, hk⟩ := Except.bind_eq_ok_iff.1 hk
    cases hk
    exact .leaf (.inl hkind) hl
  · next hkind hselector =>
    obtain ⟨l, hl, hk⟩ := Except.bind_eq_ok_iff.1 hk
    cases hk
    exact .leaf (.inr ⟨hkind, hselector⟩) hl
  · next hkind hselector =>
    obtain ⟨l, hl, hk⟩ := Except.bind_eq_ok_iff.1 hk
    cases hk
    exact .leafEntry hkind hselector hl
  · next hkind hselector =>
    obtain ⟨c, hc, hk⟩ := Except.bind_eq_ok_iff.1 hk
    obtain ⟨k, hentry, hk⟩ := Except.bind_eq_ok_iff.1 hk
    cases hk
    exact .entry hkind hselector (found_eq_ok_iff.1 hc) hentry
  · cases hk
  · cases hk
  · next hrpc hleaf hlist hsingle hvalue _ hleaves =>
    have hleafList : r.kind ≠ .leafList := by
      intro hkind
      cases hselector : key.selector with
      | single => exact hsingle hkind hselector
      | list leaves => exact hleaves leaves hkind hselector
      | leafList v => exact hvalue v hkind hselector
    obtain ⟨c, hc, hk⟩ := Except.bind_eq_ok_iff.1 hk
    cases hk
    refine .child ?_ hlist hrpc (found_eq_ok_iff.1 hc)
    cases hkind : r.kind <;> simp_all [Kind.isLeafLike]

theorem MakesStep.keyStep?_eq_ok {out : Option Step} (h : reg.MakesStep r key out) :
    reg.keyStep? r key = .ok out := by
  cases h with
  | operation hkind => rw [keyStep?, hkind]
  | child hleaf hlist hrpc hclass =>
    have hchild : reg.keyStep? r key = (do pure (some (.child (← requireClass r)))) := by
      rw [keyStep?]
      split <;> simp_all [Kind.isLeafLike]
    rw [hchild]
    exact Except.bind_eq_ok_iff.2 ⟨_, found_eq_ok_iff.2 hclass, rfl⟩
  | entry hkind hselector hclass hentry =>
    rw [keyStep?, hkind, hselector]
    refine Except.bind_eq_ok_iff.2 ⟨_, found_eq_ok_iff.2 hclass, ?_⟩
    exact Except.bind_eq_ok_iff.2 ⟨_, hentry, rfl⟩
  | leaf hkind hid =>
    obtain hkind | ⟨hkind, hselector⟩ := hkind
    · rw [keyStep?, hkind]
      exact Except.bind_eq_ok_iff.2 ⟨_, hid, rfl⟩
    · rw [keyStep?, hkind, hselector]
      exact Except.bind_eq_ok_iff.2 ⟨_, hid, rfl⟩
  | leafEntry hkind hselector hid =>
    rw [keyStep?, hkind, hselector]
    exact Except.bind_eq_ok_iff.2 ⟨_, hid, rfl⟩

theorem keyStep?_eq_ok_iff {out : Option Step} :
    reg.keyStep? r key = .ok out ↔ reg.MakesStep r key out :=
  ⟨makesStep_of_keyStep?, MakesStep.keyStep?_eq_ok⟩

/-- A step names the class of its node, or the leaf that its node is. -/
inductive Names : Step → Ref → Prop where
  | ofClass {step : Step} {r : Ref} {c : String} (hleaf : r.kind.isLeafLike = false)
    (hinner : step.isLeaf = false) (hc : step.className? = some c) (hclass : r.className = some c) :
    Names step r
  | ofLeaf {step : Step} {r : Ref} {l : LeafId} (hleaf : r.kind.isLeafLike = true)
    (hnone : step.className? = none) (hid : leafId r = .ok l)
    (hstep : step = .leaf l ∨ ∃ v, step = .leafEntry l v) : Names step r

theorem Names.isLeafLike {step : Step} (h : Names step r) (hl : step.isLeaf = true) :
    r.kind.isLeafLike = true := by
  cases h with
  | ofClass _ hinner => cases hl.symm.trans hinner
  | ofLeaf hleaf => exact hleaf

/-- The step that is made of a key leads to the same key again. -/
theorem exists_step_of_keyStep? {out : Option Step} (hs : reg.Suits key r) (hrpc : r.kind ≠ .rpc)
    (hk : reg.keyStep? r key = .ok out) :
    ∃ step, out = some step ∧ stepKey r step = .ok key ∧ Names step r := by
  have hfits := hs.selector
  -- The way in which the step was made says which key it stands for.
  cases keyStep?_eq_ok_iff.1 hk with
  | operation hkind => exact absurd hkind hrpc
  | @child c hleaf hlist _ hclass =>
    have hsingle : key.selector = .single := by
      cases hselector : key.selector <;> cases hkind : r.kind <;>
        simp_all [fitsSelector, Kind.isLeafLike]
    refine ⟨_, rfl, ?_, .ofClass hleaf rfl rfl hclass⟩
    rw [eq_of_suits hs hsingle]
    exact stepKey_eq_ok_iff.2 (.child hlist)
  | @entry c leaves k hkind hselector hclass hentry =>
    refine ⟨_, rfl, ?_, .ofClass (by simp [hkind, Kind.isLeafLike]) rfl rfl hclass⟩
    rw [eq_of_suits hs hselector]
    exact stepKey_eq_ok_iff.2
      (.entry hkind ((hs.entry leaves hselector).mapM_of_entryKey hentry))
  | @leaf l hkind hid =>
    have hsingle : key.selector = .single := by
      obtain hkind | ⟨-, hselector⟩ := hkind
      · cases hselector : key.selector <;> simp_all [fitsSelector]
      · exact hselector
    have hleaf : r.kind.isLeafLike = true := by
      obtain hkind | ⟨hkind, -⟩ := hkind <;> simp [hkind, Kind.isLeafLike]
    refine ⟨_, rfl, ?_, .ofLeaf hleaf rfl hid (.inl rfl)⟩
    rw [eq_of_suits hs hsingle]
    exact stepKey_eq_ok_iff.2 (.leaf hleaf)
  | @leafEntry l v hkind hselector hid =>
    have hleaf : r.kind.isLeafLike = true := by simp [hkind, Kind.isLeafLike]
    refine ⟨_, rfl, ?_, .ofLeaf hleaf rfl hid (.inr ⟨v, rfl⟩)⟩
    rw [eq_of_suits hs hselector]
    exact stepKey_eq_ok_iff.2 (.leafEntry hkind)

/-! ### The way back -/

/-- Nothing is below a leaf. -/
theorem Sole.isLeafLike_of_mem_below (h : reg.Sole m) (hp : p.model = m)
    (he : e ∈ reg.below (some p)) : p.kind.isLeafLike = false := by
  by_cases hany : p.kind = .anydata
  · rw [hany]
    rfl
  · rw [below, if_neg hany] at he
    have := Ref.canHoldChildren_of_mem_offers (hp ▸ h.linked) he
    cases hk : p.kind <;> simp [Kind.isLeafLike, Kind.canHoldChildren, hk] at this ⊢

theorem Route.eq_nil_of_leaf (h : reg.Navigable m) (hm : r.model = m)
    (hr : r.kind.isLeafLike = true) (hroute : reg.Route (some r) stops last) : stops = [] := by
  cases hroute with
  | nil => rfl
  | cons he hs hrest => simp [h.sole.isLeafLike_of_mem_below hm he] at hr

/-- Nothing that shows up in data is above a node at the top. -/
theorem Sole.dataAncestors_of_mem_root (h : reg.Sole m) (he : e ∈ reg.below none) :
    e.node.dataAncestors = [] := by
  obtain ⟨module, hmodule, he⟩ := h.mem_below_root_iff.1 he
  obtain ⟨hm, hk⟩ := (Ref.mem_moduleRefs_iff h.linked).1 hmodule
  rw [Ref.dataAncestors_of_mem_offers (hm ▸ h.linked) he, Ref.dataAncestry_of_module hk]

/-- Below an operation, which is always at the top, the operation alone is above. -/
theorem Sole.ancestorKeys_of_rpc (h : reg.Sole m) (he : e ∈ reg.below none)
    (hk : e.node.kind = .rpc) {f : DataChild} (hf : f ∈ reg.below (some e.node)) :
    f.node.dataAncestors.reverse.mapM ancestorKey = .ok [{ id := e.node.id }] := by
  have hl : e.node.model.Linked := h.model_of_mem_below (by simp) he ▸ h.linked
  have hlayer : e.node.isLayer = false := by simp [Ref.isLayer_eq_false_iff, hk]
  rw [below, if_neg (by simp [hk])] at hf
  rw [Ref.dataAncestors_of_mem_offers hl hf, Ref.dataAncestry_of_data hl (by simp [hk]) hlayer,
    h.dataAncestors_of_mem_root he]
  simp [ancestorKey, hk, pure, Except.pure, bind, Except.bind]

theorem steps_of_push {id id' : ObjectId} {step : Step} (h : id.push step = .ok id') :
    id'.steps = id.steps ++ [step] := by
  unfold ObjectId.push at h
  split at h
  · split at h
    · cases h
    · cases h
      rfl
  · cases h
    rfl

/-- What one key of a resource id does: it finds a node and adds the step to it, if there is one. -/
theorem followKeys_cons_iff {rid : ResourceId} {keys : List NodeKey} {oid out : ObjectId} :
    reg.followKeys rid (key :: keys) oid parent = .ok out ↔
      ∃ child step? oid', reg.childOf? parent key.name key.ns = some child ∧
        reg.keyStep? child.node key = .ok step? ∧
        (match step? with
          | some step => oid.push step
          | none => Except.ok oid) = .ok oid' ∧
        reg.followKeys rid keys oid' (some child.node) = .ok out := by
  rw [followKeys]
  simp only [Except.bind_eq_ok_iff, found_eq_ok_iff]
  constructor
  · rintro ⟨child, hchild, step?, hs, hk⟩
    cases step? with
    | none => exact ⟨child, none, oid, hchild, hs, rfl, hk⟩
    | some step =>
      obtain ⟨oid', hpush, hk⟩ := Except.bind_eq_ok_iff.1 hk
      exact ⟨child, some step, oid', hchild, hs, hpush, hk⟩
  · rintro ⟨child, step?, oid', hchild, hs, hpush, hk⟩
    refine ⟨child, hchild, step?, hs, ?_⟩
    cases step? with
    | none =>
      cases hpush
      exact hk
    | some step => exact Except.bind_eq_ok_iff.2 ⟨oid', hpush, hk⟩

/-- Below a node there is no operation. -/
theorem Navigable.kind_ne_rpc (h : reg.Navigable m) (hp : p.model = m)
    (hpa : isAddressable p.kind = true) (he : e ∈ reg.below (some p)) : e.node.kind ≠ .rpc := by
  rw [Registry.below] at he
  split at he
  · next hk =>
    obtain ⟨q, hq, rfl⟩ := List.mem_map.1 he
    have := h.payload_kind p (Ref.mem_refs_iff.2 hp) hk q hq
    rintro hrpc
    simp [hrpc] at this
  · exact Ref.kind_ne_rpc_of_mem_offers (hp ▸ h.sole.linked) (isAddressable_iff.1 hpa).2 he

/-- Below a node, the steps made of the keys of a route lead along the same route. -/
theorem Navigable.followSteps_of_followKeys (h : reg.Navigable m) {rid : ResourceId}
    {oid oid' : ObjectId} (hp : p.model = m) (hpa : isAddressable p.kind = true)
    (hroute : reg.Route (some p) stops last)
    (hk : reg.followKeys rid (stops.map Prod.fst) oid (some p) = .ok oid') :
    ∃ steps, oid'.steps = oid.steps ++ steps ∧ (stops = [] → steps = []) ∧
      ∀ id rid₀, reg.followSteps id steps rid₀ (some p) =
        .ok (⟨rid₀.segments ++ stops.map Prod.fst⟩, last) := by
  induction stops generalizing p oid with
  | nil =>
    cases hroute
    cases hk
    exact ⟨[], by simp, fun _ => rfl, by simp [followSteps]⟩
  | cons stop stops ih =>
    cases hroute with
    | @cons _ e key _ _ he hs hrest =>
      have hcontext : ∀ r, some p = some r → r.model = m ∧ isAddressable r.kind = true := by
        rintro r ⟨⟩
        exact ⟨hp, hpa⟩
      obtain ⟨hm, ha⟩ := h.step_context hcontext he e.node rfl
      obtain ⟨child, step?, oid₁, hchild, hstep, hpush, hk⟩ := followKeys_cons_iff.1 hk
      rw [h.childOf?_eq hcontext he hs] at hchild
      cases hchild
      obtain ⟨step, rfl, hkey, hnames⟩ :=
        exists_step_of_keyStep? hs (h.kind_ne_rpc hp hpa he) hstep
      obtain ⟨steps, hsteps, hnil, hfollow⟩ := ih hm ha hrest hk
      -- The step looks up the node that the key has found, and only a last step is a leaf.
      refine ⟨step :: steps, by rw [hsteps, steps_of_push hpush]; simp, by simp, ?_⟩
      intro id rid₀
      refine followSteps_cons_iff.2 ⟨?_, e.node, [], key, .inr ⟨⟨p, rfl, ?_⟩, rfl⟩, hkey, ?_⟩
      · exact fun hleaf => hnil (Route.eq_nil_of_leaf h hm (hnames.isLeafLike hleaf) hrest)
      · cases hnames with
        | ofClass _ _ hc hclass => exact h.locateBelow_of_class hp hpa he hc hclass
        | ofLeaf _ hnone hid hstep =>
          refine h.locateBelow_of_leaf hp hpa he hnone ?_
          rcases hstep with rfl | ⟨v, rfl⟩ <;> rw [stepName, name_of_leafId hid]
      · rw [hfollow]
        simp

/-- A node that the first step of an object id may lead to: it is declared in a module or an operation,
or has a layer around it. -/
def Leads (r : Ref) : Prop :=
  ∃ q, r.parent? = some q ∧ (q.isLayer = true ∨ q.kind = .module ∨ q.kind = .rpc)

/-- At the root, or below an operation at the root, the first step made of the key of a node leads to
the node, and the operation is put in front of it. -/
theorem Navigable.locateFirst_of_names (h : reg.Navigable m) {step : Step} (hm : r.model = m)
    (ha : isAddressable r.kind = true) (hleads : Leads r) (hnames : Names step r) :
    reg.locateFirst step = .ok r := by
  cases hnames with
  | ofClass _ _ hc hclass => exact h.sole.locateFirst_of_class hm ha hc hclass
  | ofLeaf hleaf _ hid hstep =>
    obtain ⟨q, hq, hqk⟩ := hleads
    have hqm := (Ref.model_of_parent? hq).trans hm
    have hadm := Ref.admits_of_parent? (hm ▸ h.sole.linked) hq
    -- An operation has no leaves, so that what is around the leaf has a class.
    obtain ⟨c, hc⟩ : ∃ c, q.className = some c := by
      refine h.layer_class q (Ref.mem_refs_iff.2 hqm) ?_
      cases hk : r.kind <;> cases hk' : q.kind <;>
        simp [Kind.isLeafLike, Model.Admits, Kind.admits, Ref.isLayer_iff, Kind.canHoldChildren,
          hk, hk'] at hleaf hadm hqk ⊢
    exact h.locateFirst_of_leaf hm hleaf hq hc hid hstep

theorem Sole.leads_of_mem_root (h : reg.Sole m) (he : e ∈ reg.below none) : Leads e.node := by
  obtain ⟨module, hmodule, he⟩ := h.mem_below_root_iff.1 he
  obtain ⟨hm, hk⟩ := (Ref.mem_moduleRefs_iff h.linked).1 hmodule
  obtain ⟨q, hq, rfl | hql⟩ := Ref.parent?_of_mem_offers (hm ▸ h.linked) he
  · exact ⟨q, hq, .inr (.inl hk)⟩
  · exact ⟨q, hq, .inl hql⟩

theorem Sole.leads_of_rpc (h : reg.Sole m) (hp : p.model = m) (hk : p.kind = .rpc)
    (he : e ∈ reg.below (some p)) : Leads e.node := by
  rw [below, if_neg (by simp [hk])] at he
  obtain ⟨q, hq, rfl | hql⟩ := Ref.parent?_of_mem_offers (hp ▸ h.linked) he
  · exact ⟨q, hq, .inr (.inr hk)⟩
  · exact ⟨q, hq, .inl hql⟩

/-- The way back from the first key that has a step. -/
theorem Navigable.toResourceId_of_first (h : reg.Navigable m) {rid : ResourceId}
    {above : List NodeKey} {out : Option Step} {oid' oid'' : ObjectId} (hm : r.model = m)
    (hs : reg.Suits key r) (hrpc : r.kind ≠ .rpc)
    (hleads : Leads r) (habove : r.dataAncestors.reverse.mapM ancestorKey = .ok above)
    (hroute : reg.Route (some r) stops last) (hstep : reg.keyStep? r key = .ok out)
    (hpush : (match out with
      | some step => ObjectId.root.push step
      | none => Except.ok .root) = .ok oid')
    (hk : reg.followKeys rid (stops.map Prod.fst) oid' (some r) = .ok oid'') :
    reg.toResourceId oid'' = .ok (⟨above ++ key :: stops.map Prod.fst⟩, last) := by
  obtain ⟨step, rfl, hkey, hnames⟩ := exists_step_of_keyStep? hs hrpc hstep
  obtain ⟨steps, hsteps, hnil, hfollow⟩ :=
    h.followSteps_of_followKeys hm hs.addressable hroute hk
  have hfirst := h.locateFirst_of_names hm hs.addressable hleads hnames
  have hall : oid''.steps = step :: steps := by
    rw [hsteps, steps_of_push hpush]
    rfl
  rw [toResourceId, hall]
  refine followSteps_cons_iff.2 ⟨?_, r, above, key, .inl ⟨rfl, hfirst, habove⟩, hkey, ?_⟩
  · exact fun hleaf => hnil (Route.eq_nil_of_leaf h hm (hnames.isLeafLike hleaf) hroute)
  · rw [hfollow]
    simp [ResourceId.root]

/-- A resource id with a route is found again from the object id that is made of it, unless it ends
at an operation. -/
theorem Navigable.toResourceId_of_toObjectId (h : reg.Navigable m) {oid : ObjectId}
    (hroute : reg.Route none stops last) (hlast : ∀ r, last = some r → r.kind ≠ .rpc)
    (hk : reg.toObjectId ⟨stops.map Prod.fst⟩ = .ok oid) :
    reg.toResourceId oid = .ok (⟨stops.map Prod.fst⟩, last) := by
  cases hroute with
  | nil =>
    cases hk
    rfl
  | @cons _ e key stops _ he hs hrest =>
    obtain ⟨child, step?, oid', hchild, hstep, hpush, hk⟩ := followKeys_cons_iff.1 hk
    rw [h.childOf?_eq (by simp) he hs] at hchild
    cases hchild
    obtain ⟨hm, ha⟩ := h.step_context (by simp) he e.node rfl
    by_cases hrpc : e.node.kind = .rpc
    · -- An operation has no step; the one of the node below it puts the operation in front.
      cases keyStep?_eq_ok_iff.2 (.operation hrpc) |>.symm.trans hstep
      cases hpush
      cases hrest with
      | nil => exact absurd hrpc (hlast _ rfl)
      | @cons _ f key' stops _ hf hs' hrest =>
        obtain ⟨child, step?, oid', hchild, hstep', hpush, hk⟩ := followKeys_cons_iff.1 hk
        have hcontext : ∀ r, some e.node = some r → r.model = m ∧ isAddressable r.kind = true := by
          rintro r ⟨⟩
          exact ⟨hm, ha⟩
        rw [h.childOf?_eq hcontext hf hs'] at hchild
        cases hchild
        have hsingle : key.selector = .single := by
          have := hs.selector
          cases hks : key.selector <;> simp [fitsSelector, hrpc, hks] at this ⊢
        have habove : f.node.dataAncestors.reverse.mapM ancestorKey = .ok [key] := by
          rw [h.sole.ancestorKeys_of_rpc he hrpc hf, eq_of_suits hs hsingle]
        exact h.toResourceId_of_first (h.step_context hcontext hf f.node rfl).1 hs'
          (h.kind_ne_rpc hm ha hf) (h.sole.leads_of_rpc hm hrpc hf) habove hrest hstep' hpush hk
    · have habove : e.node.dataAncestors.reverse.mapM ancestorKey = .ok [] := by
        rw [h.sole.dataAncestors_of_mem_root he]
        rfl
      exact h.toResourceId_of_first hm hs hrpc (h.sole.leads_of_mem_root he) habove hrest hstep hpush
        hk

/-! ### Consistency -/

/-- Whatever object id is converted, as long as its list entries are addressed by keys of the key
classes of the lists: the resource id leads to the node that was found; each key of it leads to a
node that shows up in data, and selects an entry of a list by the key leaves of the list in the order
of their declaration; and every object id that is made of the resource id leads back to it. -/
theorem toResourceId_consistent (h : reg.Navigable m) {id : ObjectId} {rid : ResourceId}
    {n : Option Ref} (ht : reg.TypedKeys id.steps) (hs : reg.toResourceId id = .ok (rid, n)) :
    reg.resolve rid = .ok n ∧
      (∀ i, (hi : i < rid.segments.length) → ∃ r,
        reg.resolve ⟨rid.segments.take (i + 1)⟩ = .ok (some r) ∧
          rid.segments[i].id = r.id ∧ isAddressable r.kind = true ∧
          (r.kind = .list → ∃ leaves, rid.segments[i].selector = .list leaves ∧
            List.Forall₂ (fun name (leaf : KeyLeaf) =>
              ∃ c ∈ r.children, c.kind = .leaf ∧ c.name = name ∧ leaf.id = c.id) r.keys leaves)) ∧
      ∀ id', reg.toObjectId rid = .ok id' → reg.toResourceId id' = .ok (rid, n) := by
  obtain ⟨stops, hroute, rfl, hlast⟩ := h.route_of_toResourceId ht hs
  refine ⟨hroute.resolve_root h, ?_, fun id' => h.toResourceId_of_toObjectId hroute hlast⟩
  intro i hi
  have hi' : i < stops.length := by simpa using hi
  obtain ⟨htake, hsuits⟩ := hroute.take hi'
  obtain ⟨hm, ha⟩ := htake.last_context h (by simp) _ rfl
  have hkey : (⟨stops.map Prod.fst⟩ : ResourceId).segments[i] = stops[i].1 := by simp
  refine ⟨stops[i].2, ?_, hkey ▸ hsuits.id_eq, ha, ?_⟩
  · rw [← List.map_take]
    exact htake.resolve_root h
  · intro hk
    rw [hkey]
    cases hks : stops[i].1.selector with
    | single => simpa [fitsSelector, hk, hks] using hsuits.selector
    | leafList v => simpa [fitsSelector, hk, hks] using hsuits.selector
    | list leaves => exact ⟨leaves, rfl, (hsuits.entry leaves hks).keyLeaves h hm hk⟩

theorem Shop.navigable : Shop.registry.Navigable Shop.model where
  sole := Shop.sole
  rpc_class := by decide
  layer_class := by
    have h : ∀ r ∈ Shop.model.refs, r.kind = .case ∨ r.kind = .augment ∨ r.kind = .module →
        r.className.isSome = true := by decide
    exact fun r hr hk => Option.isSome_iff_exists.1 (h r hr hk)
  casesForChoices := Shop.casesForChoices
  choiceAugmentsFinal := Shop.choiceAugmentsFinal
  payload_kind := fun r hr hk => absurd hk (Shop.kind_ne_anydata r hr)
  nodup_declared := by decide
  nodup_below := by
    have h : ∀ r ∈ Shop.model.refs,
        ((Shop.registry.below (some r)).map fun e => e.node.name).Nodup := by decide +kernel
    exact fun r hr _ _ => h r hr
  nodup_root := by decide +kernel

/-- The address of an item of a shop. -/
theorem toResourceId_consistent_pen :
    ∃ rid n, Shop.registry.toResourceId
        ⟨[.child "Store", .entry "Item" ⟨Shop.itemKey, [("name", .string "pen")]⟩]⟩ = .ok (rid, n) ∧
      Shop.registry.resolve rid = .ok n := by
  have htyped : Shop.registry.TypedKeys
      [.child "Store", .entry "Item" ⟨Shop.itemKey, [("name", .string "pen")]⟩] := by
    intro c key h
    obtain ⟨rfl, rfl⟩ : c = "Item" ∧ key = ⟨Shop.itemKey, [("name", .string "pen")]⟩ := by
      simpa using h
    have hclass : Shop.registry.class? "Item" = some Shop.itemClass := by decide +kernel
    refine ⟨Shop.itemKey, by rw [hclass]; rfl, ?_, ?_⟩
    · constructor <;> decide
    · exact ⟨rfl, by decide⟩
  have hsome : ((Shop.registry.toResourceId
      ⟨[.child "Store", .entry "Item" ⟨Shop.itemKey, [("name", .string "pen")]⟩]⟩).toOption.map
        fun found => found.1.segments.length) = some 2 := by decide +kernel
  cases h : Shop.registry.toResourceId
      ⟨[.child "Store", .entry "Item" ⟨Shop.itemKey, [("name", .string "pen")]⟩]⟩ with
  | error cause =>
    rw [h] at hsome
    cases hsome
  | ok found =>
    obtain ⟨rid, n⟩ := found
    exact ⟨rid, n, rfl, (toResourceId_consistent Shop.navigable htyped h).1⟩

theorem Fair.surveyed : Fair.registry.Surveyed Fair.model where
  sole := Fair.sole
  rpc_class := by decide
  layer_class := by
    have h : ∀ r ∈ Fair.model.refs, r.kind = .case ∨ r.kind = .augment ∨ r.kind = .module →
        r.className.isSome = true := by decide
    exact fun r hr hk => Option.isSome_iff_exists.1 (h r hr hk)
  casesForChoices := Fair.casesForChoices
  payload_kind := fun r hr hk => absurd hk (Fair.kind_ne_anydata r hr)
  nodup_declared := by decide
  nodup_below := by
    have h : ∀ r ∈ Fair.model.refs,
        ((Fair.registry.below (some r)).map fun e => e.node.name).Nodup := by decide +kernel
    exact fun r hr _ _ => h r hr
  nodup_root := by simp [Fair.below_root]

/-- The booth of a fair, which is added to an augment of a choice, has an address that leads nowhere. -/
theorem booth_unresolved : Fair.registry.Surveyed Fair.model ∧
    Fair.registry.TypedKeys [.child "Booth"] ∧
    ∃ rid, Fair.registry.toResourceId ⟨[.child "Booth"]⟩ = .ok (rid, some Fair.boothRef) ∧
      ∀ n, Fair.registry.resolve rid ≠ .ok n := by
  refine ⟨Fair.surveyed, by simp [TypedKeys], ⟨[{ id := Fair.boothRef.id }]⟩, ?_, fun n hn => ?_⟩
  · exact toResourceId_child (Fair.sole.nodeOfClass?_eq_some_iff.2 ⟨rfl, rfl⟩) rfl (by decide)
      (by with_unfolding_all rfl)
  · -- The look-up of the only key finds nothing at the root.
    obtain ⟨next, hkey, -⟩ := Except.bind_eq_ok_iff.1 hn
    obtain ⟨r, hr, -⟩ := Except.map_eq_ok_iff.1 hkey
    obtain ⟨e, he, -⟩ := resolveKey_eq_ok_iff.1 hr
    rw [Fair.childOf?_root] at he
    cases he

end YangBinding.Registry
