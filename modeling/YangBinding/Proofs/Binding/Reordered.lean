import YangBinding.Proofs.Binding.Gathered

/-!
# The order of children

In which order the children of a data node come does not matter, as long as those that stand for the
same schema node keep theirs and no two of them belong to different cases of a choice. The object that
is read differs at most in the order of its augmentations, which equality does not see. Children that
come in another order pass the same layers, and behind each layer they are again the same children in
another order.

## Main definitions

* `Registry.Reordered` — data nodes in another order
* `Registry.OneCase` — no two data nodes lie in different cases of one choice
* `Registry.Shuffled` — children that wait to be stored, in another order

## Main results

* `Registry.Reachable.fill_shuffled` — what is filled with the same children is equal
* `Registry.Reachable.readObject_reordered` — a data node is read alike in every order of its children
-/

namespace YangBinding

open Schema (DataChild Layer Ref)
open YangBinding.Tree (Node)

namespace Registry

/-- Data nodes below a schema node in another order. Those that stand for the same schema node still
follow each other as they did. -/
structure Reordered (reg : Registry) (r : Ref) (nodes others : List Node) : Prop where
  perm : nodes.Perm others
  kept : ∀ s, (nodes.filter fun n => (reg.childFor? r n).map DataChild.node = some s) =
    others.filter fun n => (reg.childFor? r n).map DataChild.node = some s

/-- No two data nodes below a schema node lie in different cases of one choice. -/
def OneCase (reg : Registry) (r : Ref) (nodes : List Node) : Prop :=
  ∀ n ∈ nodes, ∀ n' ∈ nodes, ∀ e e', reg.childFor? r n = some e → reg.childFor? r n' = some e' →
    ¬ e.Rivals e'

/-- Children that wait to be stored in another order. Those of the same schema node still follow each
other as they did. -/
structure Shuffled (children others : List Pending) : Prop where
  perm : children.Perm others
  kept : ∀ s, (children.filter fun c => c.schema = s) = others.filter fun c => c.schema = s

/-- No two children pass different cases of one choice. -/
def Undivided (children : List Pending) : Prop :=
  ∀ c ∈ children, ∀ d ∈ children, ¬ c.child.Rivals d.child

variable {reg : Registry} {r s : Ref} {type : Class} {children others : List Pending} {l : Layer}
  {own own' layered layered' : List Change} {o o' : Object} {nodes nodes' : List Node} {name : String}

theorem Reordered.symm (h : reg.Reordered r nodes nodes') : reg.Reordered r nodes' nodes :=
  ⟨h.perm.symm, fun s => (h.kept s).symm⟩

/-- Only schema nodes count for which one of the data nodes stands. -/
theorem Reordered.of_resolved (hp : nodes.Perm nodes')
    (h : ∀ s ∈ nodes.filterMap fun n => (reg.childFor? r n).map DataChild.node,
      (nodes.filter fun n => (reg.childFor? r n).map DataChild.node = some s) =
        nodes'.filter fun n => (reg.childFor? r n).map DataChild.node = some s) :
    reg.Reordered r nodes nodes' := by
  refine ⟨hp, fun s => ?_⟩
  by_cases hs : s ∈ nodes.filterMap fun n => (reg.childFor? r n).map DataChild.node
  · exact h s hs
  · have hnone {others : List Node} (hsub : ∀ n ∈ others, n ∈ nodes) :
        (others.filter fun n => (reg.childFor? r n).map DataChild.node = some s) = [] :=
      List.filter_eq_nil_iff.2 fun n hn heq =>
        hs (List.mem_filterMap.2 ⟨n, hsub n hn, by simpa using heq⟩)
    rw [hnone fun n hn => hn, hnone fun n hn => hp.mem_iff.2 hn]

/-- No two data nodes lie in different cases if none of the children for which they stand are rivals. -/
theorem oneCase_iff : reg.OneCase r nodes ↔ ∀ e ∈ nodes.filterMap (reg.childFor? r),
    ∀ e' ∈ nodes.filterMap (reg.childFor? r), ¬ e.Rivals e' := by
  constructor
  · intro h e he e' he'
    obtain ⟨n, hn, he⟩ := List.mem_filterMap.1 he
    obtain ⟨n', hn', he'⟩ := List.mem_filterMap.1 he'
    exact h n hn n' hn' e e' he he'
  · intro h n hn n' hn' e e' he he'
    exact h e (List.mem_filterMap.2 ⟨n, hn, he⟩) e' (List.mem_filterMap.2 ⟨n', hn', he'⟩)

theorem OneCase.of_perm (h : reg.OneCase r nodes) (hp : nodes.Perm nodes') : reg.OneCase r nodes' :=
  fun n hn n' hn' => h n (hp.mem_iff.2 hn) n' (hp.mem_iff.2 hn')

/-! ### Children in another order -/

/-- Data nodes in another order are children in another order. -/
theorem Reordered.exists_shuffled (h : reg.Reordered r nodes nodes')
    (hc : reg.readChildren r nodes = .ok children) :
    ∃ others, reg.readChildren r nodes' = .ok others ∧ Shuffled children others := by
  have hall := readChildren_eq_ok_iff.1 hc
  obtain ⟨others, hothers, hperm⟩ := List.perm_comp_forall₂ h.perm.symm hall
  refine ⟨others, readChildren_eq_ok_iff.2 hothers, hperm.symm, fun s => ?_⟩
  -- What waits of a schema node is determined by the data nodes that stand for it.
  have hschema (n : Node) (c : Pending) (hn : reg.childFor? r n = some c.child ∧ c.data = n ∧
      c.object = reg.readObject c.data c.schema) :
      decide ((reg.childFor? r n).map DataChild.node = some s) = decide (c.schema = s) := by
    rw [hn.1]
    simp [Pending.child]
  have hpart := List.Forall₂.filter hall hschema
  have hpart' := List.Forall₂.filter hothers hschema
  rw [h.kept s] at hpart
  refine List.forall₂_eq_eq_eq ▸ List.forall₂_of_common hpart hpart' fun n _ c _ d _ hc hd => ?_
  obtain ⟨hchild, rfl, hobject⟩ := hc
  obtain ⟨hchild', hdata, hobject'⟩ := hd
  have heq : c.child = d.child := Option.some.inj (hchild.symm.trans hchild')
  have hlayers : c.layers = d.layers := congrArg DataChild.layers heq
  have hnode : c.schema = d.schema := congrArg DataChild.node heq
  cases c
  cases d
  simp_all

namespace Shuffled

theorem symm (h : Shuffled children others) : Shuffled others children :=
  ⟨h.perm.symm, fun s => (h.kept s).symm⟩

theorem offered (h : Shuffled children others) (hP : Offered children r) : Offered others r :=
  fun c hc => hP c (h.perm.mem_iff.2 hc)

/-- Behind a layer are the same children. -/
theorem behind (h : Shuffled children others) (l : Layer) :
    Shuffled (Registry.behind l children) (Registry.behind l others) := by
  refine ⟨(h.perm.filter _).map _, fun s => ?_⟩
  simp only [Registry.behind, List.filter_map]
  congr 1
  have hschema (children : List Pending) :
      ((children.filter fun c => c.next?.any (l == ·)).filter
        ((fun c => decide (c.schema = s)) ∘ Pending.behind)) =
      (children.filter fun c => c.schema = s).filter fun c => c.next?.any (l == ·) := by
    rw [List.filter_filter, List.filter_filter]
    refine List.filter_congr fun c _ => ?_
    rw [Bool.and_comm]
    rfl
  rw [hschema children, hschema others, h.kept s]

theorem mem_nextLayers_iff (h : Shuffled children others) (hP : Offered children r) :
    l ∈ nextLayers children ↔ l ∈ nextLayers others := by
  have hP' := h.offered hP
  rw [hP.mem_nextLayers_iff, hP'.mem_nextLayers_iff]
  simp only [h.perm.mem_iff]

/-- The layers that come next are the same. -/
theorem perm_nextLayers (h : Shuffled children others) (hP : Offered children r) :
    (nextLayers children).Perm (nextLayers others) :=
  (List.perm_ext_iff_of_nodup (nodup_distinct _) (nodup_distinct _)).2 fun _ =>
    h.mem_nextLayers_iff hP

/-- Children that pass no layer and are of one name are of one schema node, so they follow each other
as they did. -/
theorem filter_name (h : Shuffled children others) (hn : reg.NamesApart)
    (hr : r.model ∈ reg.models) (hP : Offered children r) (name : String) :
    ((children.filter fun c => c.layers.isEmpty).filter fun c => c.schema.name = name) =
      (others.filter fun c => c.layers.isEmpty).filter fun c => c.schema.name = name := by
  have hP' := h.offered hP
  by_cases hex : ∃ c ∈ children, c.layers = [] ∧ c.schema.name = name
  -- If one child has the name, then the name stands for its schema node, else there is nothing.
  · obtain ⟨c, hc, hl, rfl⟩ := hex
    have hs := hP.mem_declared hc hl
    have hname {children : List Pending} (hP : Offered children r) :
        ((children.filter fun c => c.layers.isEmpty).filter fun d => d.schema.name = c.schema.name) =
        (children.filter fun d => d.schema = c.schema).filter fun d => d.layers.isEmpty := by
      rw [List.filter_filter, List.filter_filter]
      refine List.filter_congr fun d hd => ?_
      rw [← Bool.coe_iff_coe]
      simp only [Bool.and_eq_true, decide_eq_true_eq, List.isEmpty_iff]
      constructor
      · rintro ⟨heq, hdl⟩
        exact ⟨hdl, hn.eq_of_name hr (hP.mem_declared hd hdl) hs heq⟩
      · rintro ⟨hdl, heq⟩
        exact ⟨congrArg Ref.name heq, hdl⟩
    rw [hname hP, hname hP', h.kept]
  · have hnone {children' : List Pending} (hsub : ∀ c ∈ children', c ∈ children) :
        ((children'.filter fun c => c.layers.isEmpty).filter fun c => c.schema.name = name) = [] := by
      refine List.filter_eq_nil_iff.2 fun c hc hname => hex ?_
      obtain ⟨hc, hl⟩ := List.mem_filter.1 hc
      exact ⟨c, hsub c hc, List.isEmpty_iff.1 hl, by simpa using hname⟩
    rw [hnone fun c hc => hc, hnone fun c hc => h.perm.mem_iff.2 hc]

end Shuffled

theorem Undivided.behind (h : Undivided children) (l : Layer) :
    Undivided (Registry.behind l children) := by
  intro c hc d hd hrivals
  obtain ⟨c, hmem, rfl⟩ := List.mem_map.1 hc
  obtain ⟨d, hmem', rfl⟩ := List.mem_map.1 hd
  exact h c (List.mem_filter.1 hmem).1 d (List.mem_filter.1 hmem').1 (rivals_of_behind hrivals)

/-! ### Changes in another order -/

/-- What a child changes is determined. -/
theorem Stores.unique {c : Pending} {change change' : Change} (h : Stores type c change)
    (h' : Stores type c change') : change = change' := by
  -- The field of a child is determined, and its type tells values from objects.
  cases h with
  | value field owner holds value accepted =>
    cases h' with
    | value field' owner' holds' value' accepted' =>
      cases field.symm.trans field'
      cases holds.symm.trans holds'
      cases value.symm.trans value'
      cases accepted.symm.trans accepted'
      rfl
    | object field' owner' holds' =>
      cases field.symm.trans field'
      rcases holds' with holds' | holds' <;> simp [holds', FieldType.scalar?] at holds
  | object field owner holds object =>
    cases h' with
    | value field' owner' holds' =>
      cases field.symm.trans field'
      rcases holds with holds | holds <;> simp [holds, FieldType.scalar?] at holds'
    | object field' owner' holds' object' =>
      cases field.symm.trans field'
      cases object.symm.trans object'
      rfl

/-- The changes of the field of a name are the same, and come in the same order. -/
theorem Fills.filter_own_eq (h : Shuffled children others) (hn : reg.NamesApart)
    (hr : r.model ∈ reg.models) (hP : Offered children r)
    (hF : reg.Fills type children own layered) (hF' : reg.Fills type others own' layered')
    (name : String) :
    (own.filter fun change => change.name? = some name) =
      own'.filter fun change => change.name? = some name := by
  have hname (c : Pending) (change : Change) (hs : Stores type c change) :
      decide (c.schema.name = name) = decide (change.name? = some name) := by
    simp [hs.name?_eq]
  have hpart := List.Forall₂.filter hF.own hname
  have hpart' := List.Forall₂.filter hF'.own hname
  rw [h.filter_name hn hr hP name] at hpart
  exact List.forall₂_eq_eq_eq ▸ List.forall₂_of_common hpart hpart'
    fun c _ a _ b _ ha hb => ha.unique hb

/-- All that a function picks from the changes of one name is found among the changes of that name. -/
theorem filterMap_filter_name {α : Type} {pick : Change → Option α}
    (h : ∀ change : Change, change.name? ≠ some name → pick change = none) (changes : List Change) :
    (changes.filter fun change => change.name? = some name).filterMap pick =
      changes.filterMap pick := by
  rw [List.filterMap_filter]
  refine List.filterMap_congr fun change _ => ?_
  by_cases hname : change.name? = some name
  · simp [hname]
  · simp [hname, h change hname]

/-- Among the layers of a node there is one case of a choice at most if no two children pass different
ones. -/
theorem Undivided.filter_isCaseAt (hu : Undivided children) (h : Shuffled children others)
    (hn : reg.NamesApart) (hr : r.model ∈ reg.models) (hP : Offered children r) (name : String) :
    (nextLayers children).filter (isCaseAt name) = (nextLayers others).filter (isCaseAt name) := by
  -- A list with at most one element has just one order.
  refine List.eq_of_perm_of_unique ((h.perm_nextLayers hP).filter _) ((nodup_distinct _).filter _)
    fun l hl l' hl' => ?_
  obtain ⟨hl, hcase⟩ := List.mem_filter.1 hl
  obtain ⟨hl', hcase'⟩ := List.mem_filter.1 hl'
  cases l with
  | augment => cases hcase
  | case choice a =>
    cases l' with
    | augment => cases hcase'
    | case choice' b =>
      obtain ⟨hdeclared, -⟩ := declared_of_case_mem (hP.mem_layers_of_next hl)
      obtain ⟨hdeclared', -⟩ := declared_of_case_mem (hP.mem_layers_of_next hl')
      have hname : choice.name = name := by simpa [isCaseAt] using hcase
      have hname' : choice'.name = name := by simpa [isCaseAt] using hcase'
      obtain rfl : choice' = choice :=
        hn.eq_of_name hr hdeclared' hdeclared (hname'.trans hname.symm)
      obtain ⟨c, hc, hnext⟩ := hP.mem_nextLayers_iff.1 hl
      obtain ⟨d, hd, hnext'⟩ := hP.mem_nextLayers_iff.1 hl'
      by_contra hne
      exact hu c hc d hd ⟨_, List.mem_of_mem_head? hnext, _, List.mem_of_mem_head? hnext', rfl,
        fun heq => hne (congrArg _ heq)⟩

/-- If what is behind each layer can be filled again, so can the whole: the same children are stored,
and behind the same layers. -/
theorem Fills.exists_shuffled (h : Shuffled children others) (hP : Offered children r)
    (hF : reg.Fills type children own layered)
    (hrefill : ∀ l ∈ nextLayers children, ∀ (content : Class) x,
      reg.fill (behind l children) content.new = .ok x →
      ∃ x', reg.fill (behind l others) content.new = .ok x' ∧ (x == x') = true) :
    ∃ own' layered', reg.Fills type others own' layered' := by
  -- Each child stores what it stored before, and each layer is filled again.
  obtain ⟨own', hown'⟩ : ∃ own', List.Forall₂ (Stores type)
      (others.filter fun c => c.layers.isEmpty) own' := by
    apply List.exists_forall₂
    intro c hc
    obtain ⟨change, -, hst⟩ :=
      hF.own.exists_right ((h.perm.filter fun c => c.layers.isEmpty).mem_iff.2 hc)
    exact ⟨change, hst⟩
  obtain ⟨layered', hlayered'⟩ : ∃ layered', List.Forall₂ (reg.StoresBehind type others)
      (nextLayers others) layered' := by
    apply List.exists_forall₂
    intro l hl
    have hl := (h.mem_nextLayers_iff hP).2 hl
    obtain ⟨change, -, hst⟩ := hF.layered.exists_right hl
    cases hst with
    | augment content_eq filled =>
      obtain ⟨x', hx', -⟩ := hrefill _ hl _ _ filled
      exact ⟨_, .augment content_eq hx'⟩
    | case content_eq filled field holds owner =>
      obtain ⟨x', hx', -⟩ := hrefill _ hl _ _ filled
      exact ⟨_, .case content_eq hx' field holds owner⟩
  exact ⟨own', layered', hown', hlayered'⟩

/-- The values that are stored under the name of a field are the same. -/
theorem Fills.valueAt?_eq (h : Shuffled children others) (hn : reg.NamesApart)
    (hr : r.model ∈ reg.models) (hP : Offered children r)
    (hF : reg.Fills type children own layered) (hF' : reg.Fills type others own' layered')
    (name : String) : (own ++ layered).filterMap (Change.valueAt? name) =
      (own' ++ layered').filterMap (Change.valueAt? name) := by
  rw [List.filterMap_append, List.filterMap_append, hF.valueAt?_layered, hF'.valueAt?_layered,
    ← filterMap_filter_name fun _ => valueAt?_eq_none, hF.filter_own_eq h hn hr hP hF' name,
    filterMap_filter_name fun _ => valueAt?_eq_none]

/-- What is stored under the name of a field is equal if what is filled behind each layer is. -/
theorem Fills.objectAt?_beq (h : Shuffled children others) (hn : reg.NamesApart)
    (hr : r.model ∈ reg.models) (hP : Offered children r) (hu : Undivided children)
    (hobjects : ∀ c ∈ children, ∀ x, c.object = .ok x → (x == x) = true)
    (hF : reg.Fills type children own layered) (hF' : reg.Fills type others own' layered')
    (hbehind : ∀ l ∈ nextLayers children, ∀ x x', reg.FilledBehind children l x →
      reg.FilledBehind others l x' → (x == x') = true) (name : String) :
    List.Forall₂ (fun x x' => (x == x') = true)
      ((own ++ layered).filterMap (Change.objectAt? name))
      ((own' ++ layered').filterMap (Change.objectAt? name)) := by
  have hown : own.filterMap (Change.objectAt? name) = own'.filterMap (Change.objectAt? name) := by
    rw [← filterMap_filter_name fun _ => objectAt?_eq_none, hF.filter_own_eq h hn hr hP hF' name,
      filterMap_filter_name fun _ => objectAt?_eq_none]
  have hcases := hF.cases_at name
  have hcases' := hF'.cases_at name
  rw [← hu.filter_isCaseAt h hn hr hP name] at hcases'
  rw [List.filterMap_append, List.filterMap_append, ← hown]
  refine List.rel_append (List.forall₂_same.2 fun x hx => ?_)
    (List.forall₂_of_common hcases hcases' fun l hl x _ x' _ hx hx' =>
      hbehind l (List.mem_filter.1 hl).1 x x' hx hx')
  obtain ⟨change, hchange, hx⟩ := List.mem_filterMap.1 hx
  obtain ⟨c, hc, hst⟩ := hF.own.exists_left hchange
  cases hst with
  | value => cases hx
  | object _ _ _ object =>
    rw [Change.objectAt?] at hx
    split at hx
    · cases hx
      exact hobjects c (List.mem_filter.1 hc).1 x object
    · cases hx

/-- What is attached for the augments is equal, in some order, if what is filled behind each layer
is. -/
theorem Fills.augmentations_beq (h : reg.Reachable) (hs : Shuffled children others)
    (hr : r.model ∈ reg.models) (hP : Offered children r)
    (hF : reg.Fills type children own layered) (hF' : reg.Fills type others own' layered')
    (hbehind : ∀ l ∈ nextLayers children, ∀ x x', reg.FilledBehind children l x →
      reg.FilledBehind others l x' → (x == x') = true) :
    let attached := ((own ++ layered).filterMap Change.augmentation?).latest Object.className
    let attached' := ((own' ++ layered').filterMap Change.augmentation?).latest Object.className
    attached.length = attached'.length ∧ ∀ x ∈ attached, ∃ x',
      (attached'.find? fun b => b.className == x.className) = some x' ∧ (x == x') = true := by
  have hP' := hs.offered hP
  have hnodup' := h.nodup_augmentations hr hP' hF'
  have hperm := (hs.perm_nextLayers hP).filter isAugment
  simp only [List.latest_of_nodup (h.nodup_augmentations hr hP hF), List.latest_of_nodup hnodup']
  refine ⟨?_, fun x hx => ?_⟩
  · rw [← hF.augmentations_at.length_eq, ← hF'.augmentations_at.length_eq, hperm.length_eq]
  · obtain ⟨l, hl, hx⟩ := hF.augmentations_at.exists_left hx
    obtain ⟨x', hmem, hx'⟩ := hF'.augmentations_at.exists_right (hperm.mem_iff.1 hl)
    have hname : x'.className = x.className := Option.some.inj
      ((h.className_of_filledBehind hx').symm.trans (h.className_of_filledBehind hx))
    refine ⟨x', List.find?_eq_some_of_unique hmem (by simpa using hname) fun y hy heq => ?_,
      hbehind l (List.mem_filter.1 hl).1 x x' hx hx'⟩
    exact List.eq_of_nodup_map hnodup' hy hmem (Eq.trans (by simpa using heq) hname.symm)

/-! ### Objects -/

/-- What is filled with the same children in another order is equal. -/
theorem Reachable.fill_shuffled (h : reg.Reachable) (hn : reg.NamesApart)
    (hr : r.model ∈ reg.models) (hP : Offered children r) (hs : Shuffled children others)
    (hu : Undivided children) (hobjects : ∀ c ∈ children, ∀ x, c.object = .ok x → (x == x) = true)
    (hf : reg.fill children type.new = .ok o) :
    ∃ o', reg.fill others type.new = .ok o' ∧ (o == o') = true := by
  -- By induction on the layers that are still to be passed.
  induction hcount : layerCount children using Nat.strongRecOn
    generalizing children others r type o with
  | ind n ih =>
    obtain ⟨own, layered, hF, rfl⟩ := fill_new_eq_ok_iff.1 hf
    have hrefill : ∀ l ∈ nextLayers children, ∀ (content : Class) x,
        reg.fill (behind l children) content.new = .ok x →
        ∃ x', reg.fill (behind l others) content.new = .ok x' ∧ (x == x') = true := by
      intro l hl content x hx
      have hlr := hP.mem_layers_of_next hl
      refine ih _ (hcount ▸ layerCount_behind_lt hl) ((Ref.model_of_mem_layers hlr).symm ▸ hr)
        (hP.behind hlr) (hs.behind l) (hu.behind l) (fun _ hmem => ?_) hx rfl
      obtain ⟨c, hc, rfl⟩ := List.mem_map.1 hmem
      exact hobjects c (List.mem_filter.1 hc).1
    have hbehind : ∀ l ∈ nextLayers children, ∀ x x', reg.FilledBehind children l x →
        reg.FilledBehind others l x' → (x == x') = true := by
      rintro l hl x x' ⟨content, hcontent, hx⟩ ⟨content', hcontent', hx'⟩
      obtain rfl := Option.some.inj (hcontent.symm.trans hcontent')
      obtain ⟨y, hy, heq⟩ := hrefill l hl content x hx
      obtain rfl := Except.ok.inj (hx'.symm.trans hy)
      exact heq
    obtain ⟨own', layered', hF'⟩ := hF.exists_shuffled hs hP hrefill
    refine ⟨_, fill_new_eq_ok_iff.2 ⟨own', layered', hF', rfl⟩, ?_⟩
    rw [Change.foldl_apply hF.of, Change.foldl_apply hF'.of, Class.make_beq_make_iff]
    exact ⟨fun name _ => congrArg (type.keeps name) (hF.valueAt?_eq hs hn hr hP hF' name),
      fun name _ =>
        Class.forall₂_keeps (hF.objectAt?_beq hs hn hr hP hu hobjects hF' hbehind name),
      hF.augmentations_beq h hs hr hP hF' hbehind, .nil⟩

section Reading

variable {key : Tree.NodeKey} {shape : Tree.Shape}

/-- What data nodes stand for belongs to one case of a choice if the data nodes do. -/
theorem OneCase.undivided (h : reg.OneCase r nodes) (hc : reg.readChildren r nodes = .ok children) :
    Undivided children := by
  have hall := readChildren_eq_ok_iff.1 hc
  intro c hc d hd
  obtain ⟨n, hn, hchild, -⟩ := hall.exists_left hc
  obtain ⟨n', hn', hchild', -⟩ := hall.exists_left hd
  exact h n hn n' hn' c.child d.child hchild hchild'

/-- If a data node can be read as an object, it can be read with its children in another order, and
the objects are equal. -/
theorem Reachable.exists_readObject (h : reg.Reachable) (hn : reg.NamesApart)
    (hr : r.model ∈ reg.models) (hk : r.kind ≠ .anydata) (hone : reg.OneCase r nodes)
    (hre : reg.Reordered r nodes nodes') (ho : reg.readObject (.inner key shape nodes) r = .ok o) :
    ∃ o', reg.readObject (.inner key shape nodes') r = .ok o' ∧ (o == o') = true ∧
      reg.Gathers r nodes o := by
  obtain ⟨type, htype, -, ⟨hany, -⟩ | ⟨-, children, hchildren, hf⟩⟩ := readObject_eq_ok ho
  · exact absurd hany hk
  obtain ⟨others, hothers, hs⟩ := hre.exists_shuffled hchildren
  have hu := hone.undivided hchildren
  have hP := offered_of_readChildren hk hchildren
  have hobjects : ∀ c ∈ children, ∀ x, c.object = .ok x → (x == x) = true := fun c hc x hx =>
    beq_self_of_readObject ((object_of_readChildren hchildren c hc).symm.trans hx)
  obtain ⟨o', ho', heq⟩ := h.fill_shuffled hn hr hP hs hu hobjects hf
  refine ⟨o', ?_, heq, h.gathers_of_fill hn hr hk hchildren hu hf⟩
  rw [readObject, instantiate_eq htype]
  change (if r.kind = .anydata then _ else reg.readChildren r nodes' >>= _) = _
  rw [if_neg hk, hothers]
  exact ho'

/-- A data node is read alike in every order of its children, as long as those of the same schema node
keep theirs and no two of them lie in different cases of one choice: either in none of these orders,
or as equal objects, each of which has all children together that belong together. -/
theorem Reachable.readObject_reordered (h : reg.Reachable) (hn : reg.NamesApart)
    (hr : r.model ∈ reg.models) (hk : r.kind ≠ .anydata) (hone : reg.OneCase r nodes)
    (hre : reg.Reordered r nodes nodes') (key : Tree.NodeKey) (shape : Tree.Shape) :
    ((∃ o, reg.readObject (.inner key shape nodes) r = .ok o) ↔
      ∃ o', reg.readObject (.inner key shape nodes') r = .ok o') ∧
    ∀ o o', reg.readObject (.inner key shape nodes) r = .ok o →
      reg.readObject (.inner key shape nodes') r = .ok o' →
      (o == o') = true ∧ reg.Gathers r nodes o ∧ reg.Gathers r nodes' o' := by
  have hone' := hone.of_perm hre.perm
  refine ⟨⟨?_, ?_⟩, fun o o' ho ho' => ?_⟩
  · rintro ⟨o, ho⟩
    obtain ⟨o', ho', -⟩ := h.exists_readObject hn hr hk hone hre ho
    exact ⟨o', ho'⟩
  · rintro ⟨o', ho'⟩
    obtain ⟨o, ho, -⟩ := h.exists_readObject hn hr hk hone' hre.symm ho'
    exact ⟨o, ho⟩
  · obtain ⟨p, hp, heq, hgathers⟩ := h.exists_readObject hn hr hk hone hre ho
    obtain ⟨-, -, -, hgathers'⟩ := h.exists_readObject hn hr hk hone' hre.symm ho'
    obtain rfl := Except.ok.inj (hp.symm.trans ho')
    exact ⟨heq, hgathers, hgathers'⟩

end Reading

/-! ### A snack bar

What comes on a plate is a snack, either a hearty or a sweet one, and dip, which is contributed by an
augment. There may be notes. -/

namespace Snacks

def model : Schema.Model where
  id := "bar"
  nodes := #[
    { id := ⟨"bar", some "urn:bar"⟩, kind := .module, children := [1, 9] },
    { id := ⟨"plate", some "urn:bar"⟩, kind := .container, parent := some 0, children := [2, 8],
      augments := [9], className := some "Plate" },
    { id := ⟨"snack", some "urn:bar"⟩, kind := .choice, parent := some 1, children := [3, 6] },
    { id := ⟨"hearty", some "urn:bar"⟩, kind := .case, parent := some 2, children := [4, 5],
      className := some "Hearty" },
    { id := ⟨"pretzel", some "urn:bar"⟩, kind := .leaf, parent := some 3 },
    { id := ⟨"beer", some "urn:bar"⟩, kind := .leaf, parent := some 3 },
    { id := ⟨"sweet", some "urn:bar"⟩, kind := .case, parent := some 2, children := [7],
      className := some "Sweet" },
    { id := ⟨"chocolate", some "urn:bar"⟩, kind := .leaf, parent := some 6 },
    { id := ⟨"note", some "urn:bar"⟩, kind := .leafList, parent := some 1 },
    { id := ⟨"/plate", some "urn:bar"⟩, kind := .augment, parent := some 0, children := [10],
      target := some 1, className := some "Sauce" },
    { id := ⟨"dip", some "urn:bar"⟩, kind := .leaf, parent := some 9 }]
  modules := [0]

theorem built : model.Built :=
  ⟨"bar", [.addModule "bar" "urn:bar" none, .addChild 0 .container "plate", .setClass 1 "Plate",
    .addChild 1 .choice "snack", .addChild 2 .case "hearty", .setClass 3 "Hearty",
    .addChild 3 .leaf "pretzel", .addChild 3 .leaf "beer", .addChild 2 .case "sweet",
    .setClass 6 "Sweet", .addChild 6 .leaf "chocolate", .addChild 1 .leafList "note",
    .addAugment 0 1, .setClass 9 "Sauce", .addChild 9 .leaf "dip"], by decide +kernel⟩

def plateClass : Class where
  className := "Plate"
  typeName := "Plate"
  fields := [⟨"snack", "Plate", .choice⟩, ⟨"note", "Plate", .leafList .string⟩]

def heartyClass : Class where
  className := "Hearty"
  typeName := "Hearty"
  fields := [⟨"pretzel", "Hearty", .leaf .empty⟩, ⟨"beer", "Hearty", .leaf .empty⟩]

def sweetClass : Class where
  className := "Sweet"
  typeName := "Sweet"
  fields := [⟨"chocolate", "Sweet", .leaf .string⟩]

def sauceClass : Class where
  className := "Sauce"
  typeName := "Sauce"
  fields := [⟨"dip", "Sauce", .leaf .string⟩]

def registry : Registry := run {} [.register model [plateClass, heartyClass, sweetClass, sauceClass]]

theorem reachable : registry.Reachable :=
  ⟨true, _, fun command h => by
    obtain rfl := List.mem_singleton.1 h
    exact built, rfl⟩

theorem namesApart : registry.NamesApart := by
  unfold NamesApart
  decide +kernel

def plateRef : Ref := ⟨model, 1, by decide⟩

theorem model_mem : plateRef.model ∈ registry.models := List.mem_singleton_self _

/-- A leaf of the bar, or an entry of a leaf-list. -/
def leaf (name : String) (value : LeafValue) : Node :=
  .leaf { id := ⟨name, some "urn:bar"⟩ } .singleLeaf value

def note (text : String) : Node :=
  .leaf { id := ⟨"note", some "urn:bar"⟩, selector := .leafList (.string text) } .multiLeaf
    (.string text)

/-- A plate with a hearty snack, dip and two notes. -/
def served : List Node :=
  [note "hot", leaf "pretzel" .empty, leaf "dip" (.string "cheese"), note "now", leaf "beer" .empty]

/-- The same on the plate in another order. -/
def servedAgain : List Node :=
  [leaf "beer" .empty, leaf "dip" (.string "cheese"), note "hot", leaf "pretzel" .empty, note "now"]

/-- A data node of a plate. -/
def plate (nodes : List Node) : Node :=
  .inner { id := plateRef.id } .singleNode nodes

/-- The plate as it is read. -/
def servedPlate : Object :=
  .mk plateClass [("note", [.string "hot", .string "now"])]
    [("snack", [.mk heartyClass [("pretzel", [.empty]), ("beer", [.empty])] [] [] []])]
    [.mk sauceClass [("dip", [.string "cheese"])] [] [] []] []

theorem readObject_served : registry.readObject (plate served) plateRef = .ok servedPlate := by
  with_unfolding_all rfl

theorem oneCase_served : registry.OneCase plateRef served := by
  rw [oneCase_iff]
  decide +kernel

theorem reordered_served : registry.Reordered plateRef served servedAgain :=
  .of_resolved (by decide +kernel) (by decide +kernel)

end Snacks

/-- A hearty snack with dip and notes is read alike in both orders. -/
theorem readObject_reordered_served : ∃ o,
    Snacks.registry.readObject (Snacks.plate Snacks.servedAgain) Snacks.plateRef = .ok o ∧
    (Snacks.servedPlate == o) = true ∧
    Snacks.registry.Gathers Snacks.plateRef Snacks.served Snacks.servedPlate ∧
    Snacks.registry.Gathers Snacks.plateRef Snacks.servedAgain o := by
  have h := Snacks.reachable.readObject_reordered Snacks.namesApart Snacks.model_mem (by decide)
    Snacks.oneCase_served Snacks.reordered_served { id := Snacks.plateRef.id } .singleNode
  obtain ⟨o, ho⟩ := h.1.1 ⟨_, Snacks.readObject_served⟩
  exact ⟨o, ho, h.2 _ _ Snacks.readObject_served ho⟩

/-! ### Twice chocolate

Two data nodes may stand for one leaf, if one of them leaves out the namespace. The leaf takes one
value. -/

namespace Snacks

def darkLeaf : Node := .leaf { id := ⟨"chocolate", none⟩ } .singleLeaf (.string "dark")

def bothLeaves : List Node := [darkLeaf, leaf "chocolate" (.string "white")]

def whiteSweet : Object := .mk sweetClass [("chocolate", [.string "white"])] [] [] []

def whitePlate : Object := .mk plateClass [("note", [])] [("snack", [whiteSweet])] [] []

theorem readObject_bothLeaves :
    registry.readObject (plate bothLeaves) plateRef = .ok whitePlate := by
  with_unfolding_all rfl

theorem oneCase_bothLeaves : registry.OneCase plateRef bothLeaves := by
  rw [oneCase_iff]
  decide +kernel

end Snacks

/-- The dark chocolate belongs to the sweet snack, where the white one has taken its place. -/
theorem dark_replaced : Snacks.registry.Reachable ∧ Snacks.registry.NamesApart ∧
    Snacks.plateRef.model ∈ Snacks.registry.models ∧ Snacks.plateRef.kind ≠ .anydata ∧
    Snacks.registry.OneCase Snacks.plateRef Snacks.bothLeaves ∧
    Snacks.registry.readObject (Snacks.plate Snacks.bothLeaves) Snacks.plateRef =
      .ok Snacks.whitePlate ∧
    Snacks.darkLeaf ∈ Snacks.bothLeaves ∧
    ∃ e, Snacks.registry.childFor? Snacks.plateRef Snacks.darkLeaf = some e ∧
      Snacks.whitePlate.within? e.layers = some Snacks.whiteSweet ∧
      LeafValue.string "dark" ∉ Snacks.whiteSweet.leafValues e.node.name := by
  refine ⟨Snacks.reachable, Snacks.namesApart, Snacks.model_mem, by decide, Snacks.oneCase_bothLeaves,
    Snacks.readObject_bothLeaves, List.mem_cons_self, ?_⟩
  let choiceRef : Ref := ⟨Snacks.model, 2, by decide⟩
  let sweetRef : Ref := ⟨Snacks.model, 6, by decide⟩
  let chocolateRef : Ref := ⟨Snacks.model, 7, by decide⟩
  exact ⟨{ node := chocolateRef, layers := [.case choiceRef sweetRef] }, by decide +kernel, rfl,
    by decide⟩

end Registry

end YangBinding
