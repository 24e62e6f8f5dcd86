import YangBinding.Proofs.Schema.Links
import YangBinding.Proofs.Sequence
import YangBinding.Schema.Lookup

/-!
# What a node offers

A node offers its data children, those behind layers among them, each with the layers on the way. A
look-up finds the first offer that fits. Looking down and looking up agree: the ancestors of what a
node offers begin with that node, and whatever shows up in data is offered by its nearest data
ancestor, or by a module if it has none. The latter takes that augments contribute nothing that has
no place: cases to choices only, and to choices cases only. It is not enough that they declare nothing
else, because no choice knows of the augments of its augments.

## Main definitions

* `Ref.offers` — the data children of a node with the layers on the way to them
* `Ref.contents` — what an augment contributes, further augments of it included
* `Model.CasesForChoices` — augments of choices declare cases only, all other augments none
* `Model.ChoiceAugmentsFinal` — nothing is added to augments of choices
* `Model.AugmentsFit` — augments of choices contribute cases only, all other augments declare none

## Main results

* `Ref.findDataChild?_eq` — a look-up finds the first offer that fits
* `Ref.dataAncestors_of_mem_offers` — what is above an offer
* `Ref.exists_mem_offers` — everything that shows up in data is offered somewhere
* `Ref.augmentsFit_iff` — augments contribute what fits exactly if they declare what fits and those of
  choices are final
-/

namespace YangBinding.Schema

/-- A full identifier fits nothing but itself. -/
theorem Id.eq_of_fits {a b : Id} {n : String} (hn : b.ns = some n)
    (h : a.fits b.name b.ns = true) : a = b := by
  obtain ⟨hname, hns⟩ := Id.fits_iff.1 h
  cases a
  cases b
  simp_all

/-- What a node holds: its children, and what its augments hold, further augments of them included. -/
def Ref.contents (r : Ref) : List Ref :=
  r.children ++ r.augments.attach.flatMap fun ⟨augment, h⟩ =>
    have := height_lt_of_mem_later h
    augment.contents
termination_by r.height

/-- Augments of choices declare cases only, and all other augments declare none. -/
def Model.CasesForChoices (m : Model) : Prop :=
  ∀ augment ∈ m.refs, augment.kind = .augment → ∀ t, augment.target? = some t →
    ∀ c ∈ augment.children, (c.kind = .case ↔ t.kind = .choice)

/-- Augments of choices are not augmented any further, at least not by anything that has content. -/
def Model.ChoiceAugmentsFinal (m : Model) : Prop :=
  ∀ augment ∈ m.refs, augment.kind = .augment → ∀ t, augment.target? = some t → t.kind = .choice →
    ∀ further ∈ augment.augments, further.contents = []

/-- Augments of choices contribute cases only, what further augments add to them included; all other
augments declare none. -/
def Model.AugmentsFit (m : Model) : Prop :=
  ∀ augment ∈ m.refs, augment.kind = .augment → ∀ t, augment.target? = some t →
    if t.kind = .choice then ∀ c ∈ augment.contents, c.kind = .case
    else ∀ c ∈ augment.children, c.kind ≠ .case

theorem DataChild.under_inj {e f : DataChild} {layer : Layer} :
    e.under layer = f.under layer ↔ e = f := by
  cases e
  cases f
  simp [DataChild.under]

namespace Ref

variable {r c p t x : Ref} {e : DataChild} {layer : Layer} {name : String} {ns : Option String}

theorem isLayer_iff :
    r.isLayer = true ↔ r.kind = .choice ∨ r.kind = .case ∨ r.kind = .augment := by
  simp [isLayer, Kind.isTransparent, or_assoc]

theorem isLayer_eq_false_iff :
    r.isLayer = false ↔ r.kind ≠ .choice ∧ r.kind ≠ .case ∧ r.kind ≠ .augment := by
  rw [← Bool.not_eq_true, isLayer_iff, not_or, not_or]

theorem isLayer_of_isLeafLike (hk : r.kind.isLeafLike = true) : r.isLayer = false := by
  rw [isLayer_eq_false_iff]
  refine ⟨?_, ?_, ?_⟩ <;> intro hkind <;> simp [hkind, Kind.isLeafLike] at hk

/-- The data children of a node, each with the layers on the way to it: what the node itself
declares comes before what its layers hold. -/
def offers (r : Ref) : List DataChild :=
  (r.children.filter fun c => !c.isLayer).map (fun c => { node := c }) ++
    r.layers.attach.flatMap fun ⟨layer, h⟩ =>
      have := height_lt_of_mem_layers h
      layer.node.offers.map fun e => e.under layer
termination_by r.height

theorem offers_eq (r : Ref) :
    r.offers = (r.children.filter fun c => !c.isLayer).map (fun c => { node := c }) ++
      r.layers.flatMap fun layer => layer.node.offers.map fun e => e.under layer := by
  rw [offers]
  simp only [List.flatMap_subtype, List.unattach_attach]

theorem contents_eq (r : Ref) : r.contents = r.children ++ r.augments.flatMap contents := by
  rw [contents]
  simp

/-- The layers directly in a node are its augments and the cases of its choices. -/
theorem mem_layers_iff : layer ∈ r.layers ↔ (∃ a ∈ r.augments, layer = .augment a) ∨
    ∃ choice ∈ r.children, choice.kind = .choice ∧ ∃ s ∈ choice.cases, layer = .case choice s := by
  simp only [layers, List.mem_append, List.mem_map, List.mem_flatMap, List.mem_filter, beq_iff_eq,
    and_assoc]
  simp only [eq_comm (a := layer)]

theorem augment_mem_layers_iff : Layer.augment c ∈ r.layers ↔ c ∈ r.augments := by
  simp [mem_layers_iff]

theorem case_mem_layers_iff {choice : Ref} : Layer.case choice c ∈ r.layers ↔
    choice ∈ r.children ∧ choice.kind = .choice ∧ c ∈ choice.cases := by
  simp only [mem_layers_iff, reduceCtorEq, and_false, exists_false, false_or, Layer.case.injEq]
  constructor
  · rintro ⟨_, hc, hk, _, hs, rfl, rfl⟩
    exact ⟨hc, hk, hs⟩
  · rintro ⟨hc, hk, hs⟩
    exact ⟨choice, hc, hk, c, hs, rfl, rfl⟩

theorem mem_offers_iff :
    e ∈ r.offers ↔ (∃ c ∈ r.children, c.isLayer = false ∧ e = { node := c }) ∨
      ∃ layer ∈ r.layers, ∃ f ∈ layer.node.offers, e = f.under layer := by
  rw [offers_eq]
  simp only [List.mem_append, List.mem_map, List.mem_filter, List.mem_flatMap,
    Bool.not_eq_true', and_assoc]
  refine or_congr (exists_congr fun c => ?_) (exists_congr fun layer => ?_)
  · rw [eq_comm (a := e)]
  · refine and_congr_right fun _ => exists_congr fun f => ?_
    rw [eq_comm (a := e)]

theorem mem_offers_nil_iff :
    { node := c, layers := [] } ∈ r.offers ↔ c ∈ r.children ∧ c.isLayer = false := by
  rw [mem_offers_iff]
  constructor
  · rintro (⟨d, hd, hl, heq⟩ | ⟨l, -, ⟨_, _⟩, -, heq⟩) <;> cases heq
    exact ⟨hd, hl⟩
  · rintro ⟨hc, hl⟩
    exact .inl ⟨c, hc, hl, rfl⟩

theorem mem_offers_cons_iff {layers : List Layer} :
    { node := c, layers := layer :: layers } ∈ r.offers ↔
      layer ∈ r.layers ∧ { node := c, layers } ∈ layer.node.offers := by
  rw [mem_offers_iff]
  constructor
  · rintro (⟨d, -, -, heq⟩ | ⟨l, hl, ⟨_, _⟩, he, heq⟩) <;> cases heq
    exact ⟨hl, he⟩
  · rintro ⟨hl, he⟩
    exact .inr ⟨layer, hl, _, he, rfl⟩

/-- What holds of the data children that nodes declare, and passes through layers, holds of all
offers. -/
theorem offers_induction {P : Ref → DataChild → Prop}
    (own : ∀ r c, c ∈ r.children → c.isLayer = false → P r { node := c })
    (under : ∀ r layer e, layer ∈ r.layers → e ∈ layer.node.offers → P layer.node e →
      P r (e.under layer))
    (h : e ∈ r.offers) : P r e := by
  induction hh : r.height using Nat.strongRecOn generalizing r e with
  | ind n ih =>
    rcases mem_offers_iff.1 h with ⟨c, hc, hl, rfl⟩ | ⟨layer, hlayer, f, hf, rfl⟩
    · exact own r c hc hl
    · exact under r layer f hlayer hf (ih _ (hh ▸ height_lt_of_mem_layers hlayer) hf rfl)

/-! ### Looking down -/

/-- A look-up finds the first offer that fits. -/
theorem findDataChild?_eq (r : Ref) (name : String) (ns : Option String) :
    r.findDataChild? name ns = r.offers.find? fun e => e.node.id.fits name ns := by
  induction hh : r.height using Nat.strongRecOn generalizing r with
  | ind n ih =>
    have hown : r.ownDataChild? name ns =
        (r.children.filter fun c => !c.isLayer).find? fun c => c.id.fits name ns := by
      rw [ownDataChild?, List.find?_filter]
      simp
    rw [offers_eq, List.find?_append, List.find?_map]
    cases ho : r.ownDataChild? name ns with
    | some c =>
      rw [findDataChild?_of_own ho]
      rw [hown] at ho
      simp only [Function.comp_def, ho, Option.map_some, Option.some_or]
    | none =>
      rw [findDataChild?_of_not_own ho, List.find?_flatMap]
      rw [hown] at ho
      simp only [Function.comp_def, ho, Option.map_none, Option.none_or]
      refine List.findSome?_congr fun layer hlayer => ?_
      rw [ih _ (hh ▸ height_lt_of_mem_layers hlayer) _ rfl, List.find?_map]
      rfl

/-- What a look-up finds is offered and fits. -/
theorem mem_offers_of_findDataChild? (hf : r.findDataChild? name ns = some e) :
    e ∈ r.offers ∧ e.node.id.fits name ns = true := by
  rw [findDataChild?_eq] at hf
  exact ⟨List.mem_of_find?_eq_some hf,
    List.find?_some (p := fun e : DataChild => e.node.id.fits name ns) hf⟩

/-- If something that is offered fits, a look-up finds something. -/
theorem isSome_findDataChild? (he : e ∈ r.offers) (hf : e.node.id.fits name ns = true) :
    (r.findDataChild? name ns).isSome = true := by
  rw [findDataChild?_eq, List.find?_isSome]
  exact ⟨e, he, hf⟩

theorem isLayer_of_mem_offers (h : e ∈ r.offers) : e.node.isLayer = false :=
  offers_induction (P := fun _ e => e.node.isLayer = false) (fun _ _ _ hc => hc)
    (fun _ _ _ _ _ he => he) h

/-! ### Looking up -/

/-- Every node but a module has a node above it. -/
theorem exists_up? (h : r.model.Linked) (hk : r.kind ≠ .module) : ∃ p, r.up? = some p := by
  cases hr : r.kind with
  | module => exact absurd hr hk
  | augment =>
    cases ht : r.target? with
    | none => exact absurd hr ((target?_eq_none_iff h).1 ht)
    | some t => exact ⟨t, by simp [up?, hr, ht]⟩
  | _ =>
    cases hp : r.parent? with
    | none => exact absurd ((parent?_eq_none_iff h).1 hp) hk
    | some p => exact ⟨p, by simp [up?, hr, hp]⟩

theorem ancestry_of_up? (hk : r.kind ≠ .module) (hp : r.up? = some p) :
    r.ancestry = r :: p.ancestry := by
  rw [ancestry, if_neg hk]
  split
  · next hn => simp [hp] at hn
  · next q hq =>
    rw [hp] at hq
    cases hq
    rfl

theorem up?_eq_parent? (hk : r.kind ≠ .module) (ha : r.kind ≠ .augment) : r.up? = r.parent? := by
  unfold up?
  split <;> first | contradiction | rfl

/-- The nodes on the way up from here that show up in data. -/
def dataAncestry (r : Ref) : List Ref := r.ancestry.filter fun a => !a.isLayer

theorem model_of_parent? (h : r.parent? = some p) : p.model = r.model := model_of_earlier? h

theorem model_of_target? (h : r.target? = some t) : t.model = r.model := model_of_earlier? h

theorem model_of_up? (h : r.up? = some p) : p.model = r.model := by
  unfold up? at h
  split at h
  · cases h
  · exact model_of_target? h
  · exact model_of_parent? h

theorem dataAncestors_of_parent? (h : r.parent? = some p) : r.dataAncestors = p.dataAncestry := by
  rw [dataAncestors, h, dataAncestry]

theorem dataAncestry_of_isLayer (h : r.up? = some p) (hl : r.isLayer = true) :
    r.dataAncestry = p.dataAncestry := by
  have hk : r.kind ≠ .module := by
    intro hk
    simp [isLayer_iff, hk] at hl
  simp [dataAncestry, ancestry_of_up? hk h, hl]

theorem dataAncestry_of_module (h : r.kind = .module) : r.dataAncestry = [] := by
  simp [dataAncestry, ancestry, h]

/-- From a node that shows up in data, the way up begins with the node itself. -/
theorem dataAncestry_of_data (h : r.model.Linked) (hk : r.kind ≠ .module) (hl : r.isLayer = false) :
    r.dataAncestry = r :: r.dataAncestors := by
  have ha : r.kind ≠ .augment := by
    intro ha
    simp [isLayer_eq_false_iff, ha] at hl
  obtain ⟨p, hp⟩ := exists_up? h hk
  have hparent := up?_eq_parent? hk ha ▸ hp
  rw [dataAncestors_of_parent? hparent]
  simp [dataAncestry, ancestry_of_up? hk hp, hl]

theorem kind_of_mem_augments (h : r.model.Linked) (ha : c ∈ r.augments) : c.kind = .augment := by
  have ht := (mem_augments_iff h).1 ha
  by_contra hk
  rw [(target?_eq_none_iff (model_of_mem_augments ha ▸ h)).2 hk] at ht
  cases ht

theorem up?_of_mem_augments (h : r.model.Linked) (ha : c ∈ r.augments) : c.up? = some r := by
  simp [up?, kind_of_mem_augments h ha, (mem_augments_iff h).1 ha]

theorem up?_of_mem_children (h : r.model.Linked) (hc : c ∈ r.children) (hk : c.kind ≠ .augment) :
    c.up? = some r := by
  have hp := (mem_children_iff h).1 hc
  have hmodule : c.kind ≠ .module := by
    intro hk
    rw [(parent?_eq_none_iff (model_of_mem_children hc ▸ h)).2 hk] at hp
    cases hp
  exact (up?_eq_parent? hmodule hk).trans hp

/-- Above a case is its choice, or an augment of the choice. -/
theorem up?_of_mem_cases (h : r.model.Linked) (hs : c ∈ r.cases) :
    c.kind = .case ∧ (c.up? = some r ∨ ∃ augment ∈ r.augments, c.up? = some augment) := by
  simp only [cases, List.mem_filter, List.mem_append, List.mem_flatMap, beq_iff_eq] at hs
  obtain ⟨hs, hsk⟩ := hs
  refine ⟨hsk, ?_⟩
  obtain hs | ⟨augment, ha, hs⟩ := hs
  · exact .inl (up?_of_mem_children h hs (by simp [hsk]))
  · exact .inr ⟨augment, ha,
      up?_of_mem_children (model_of_mem_augments ha ▸ h) hs (by simp [hsk])⟩

/-- Behind a layer the way up goes on at the node that has the layer. -/
theorem dataAncestry_of_mem_layers (h : r.model.Linked) (hl : layer ∈ r.layers) :
    layer.node.dataAncestry = r.dataAncestry := by
  have of_augment {r a : Ref} (h : r.model.Linked) (ha : a ∈ r.augments) :
      a.dataAncestry = r.dataAncestry :=
    dataAncestry_of_isLayer (up?_of_mem_augments h ha)
      (isLayer_iff.2 (.inr (.inr (kind_of_mem_augments h ha))))
  obtain ⟨augment, ha, rfl⟩ | ⟨choice, hc, hck, selected, hs, rfl⟩ := mem_layers_iff.1 hl
  · exact of_augment h ha
  · have hlc : choice.model.Linked := model_of_mem_children hc ▸ h
    have hchoice : choice.dataAncestry = r.dataAncestry :=
      dataAncestry_of_isLayer (up?_of_mem_children h hc (by simp [hck]))
        (by simp [isLayer_iff, hck])
    obtain ⟨hsk, hup⟩ := up?_of_mem_cases hlc hs
    have hsl : selected.isLayer = true := by simp [isLayer_iff, hsk]
    obtain hup | ⟨augment, ha, hup⟩ := hup
    · exact (dataAncestry_of_isLayer hup hsl).trans hchoice
    · exact (dataAncestry_of_isLayer hup hsl).trans ((of_augment hlc ha).trans hchoice)

theorem later_of_mem_cases {choice : Ref} (h : r ∈ choice.cases) :
    r.model = choice.model ∧ choice.index.val < r.index.val := by
  simp only [cases, List.mem_filter, List.mem_append, List.mem_flatMap] at h
  obtain ⟨h | ⟨augment, ha, h⟩, -⟩ := h
  · obtain ⟨hm, -, hlt⟩ := mem_later_iff.1 h
    exact ⟨hm, hlt⟩
  · obtain ⟨hm, -, hlt⟩ := mem_later_iff.1 h
    obtain ⟨hma, -, hlta⟩ := mem_later_iff.1 ha
    exact ⟨hm.trans hma, Nat.lt_trans hlta hlt⟩

/-- The cases of a choice are the nodes that are cases of it. -/
theorem mem_cases_iff {choice : Ref} (h : choice.model.Linked) (hm : r.model = choice.model) :
    r ∈ choice.cases ↔ r.kind = .case ∧ r.isCaseOf choice = true := by
  simp only [cases, List.mem_filter, List.mem_append, List.mem_flatMap, beq_iff_eq, isCaseOf,
    Option.any_eq_true, Bool.or_eq_true, Bool.and_eq_true]
  rw [and_comm]
  refine and_congr_right fun _ => ?_
  constructor
  · rintro (hr | ⟨augment, ha, hr⟩)
    · exact ⟨choice, (mem_children_iff h).1 hr, .inl ((beq_ref_iff rfl).2 rfl)⟩
    · have hma := model_of_mem_augments ha
      exact ⟨augment, (mem_children_iff (hma ▸ h)).1 hr,
        .inr ⟨kind_of_mem_augments h ha, choice, (mem_augments_iff h).1 ha,
          (beq_ref_iff rfl).2 rfl⟩⟩
  · rintro ⟨p, hp, heq | ⟨-, t, ht, heq⟩⟩
    · obtain rfl := (beq_ref_iff ((model_of_parent? hp).trans hm)).1 heq
      exact .inl ((mem_children_iff h).2 hp)
    · have hmp := (model_of_parent? hp).trans hm
      obtain rfl := (beq_ref_iff ((model_of_target? ht).trans hmp)).1 heq
      exact .inr ⟨p, (mem_augments_iff h).2 ht, (mem_children_iff (hmp ▸ h)).2 hp⟩

theorem model_of_mem_layers (hl : layer ∈ r.layers) : layer.node.model = r.model := by
  obtain ⟨augment, ha, rfl⟩ | ⟨choice, hc, -, selected, hs, rfl⟩ := mem_layers_iff.1 hl
  · exact model_of_mem_augments ha
  · exact (later_of_mem_cases hs).1.trans (model_of_mem_children hc)

theorem model_of_mem_offers (h : e ∈ r.offers) : e.node.model = r.model :=
  offers_induction (P := fun r e => e.node.model = r.model)
    (fun _ _ hc _ => model_of_mem_children hc)
    (fun _ _ _ hl _ he => he.trans (model_of_mem_layers hl)) h

/-- What is above an offer is what is on the way up from the node that offers it. -/
theorem dataAncestors_of_mem_offers (h : r.model.Linked) (he : e ∈ r.offers) :
    e.node.dataAncestors = r.dataAncestry := by
  refine offers_induction
    (P := fun r e => r.model.Linked → e.node.dataAncestors = r.dataAncestry) ?_ ?_ he h
  · intro r c hc _ h
    exact dataAncestors_of_parent? ((mem_children_iff h).1 hc)
  · intro r layer e hl _ ih h
    exact (ih (model_of_mem_layers hl ▸ h)).trans (dataAncestry_of_mem_layers h hl)

/-- No place is above what a module offers. -/
theorem dataParent?_of_mem_module (h : r.model.Linked) (hk : r.kind = .module) (he : e ∈ r.offers) :
    e.node.dataParent? = none := by
  rw [dataParent?, dataAncestors_of_mem_offers h he, dataAncestry_of_module hk]
  rfl

/-- The nearest place above what a place offers is that place. -/
theorem dataParent?_of_mem_offers (h : r.model.Linked) (hk : r.kind ≠ .module)
    (hl : r.isLayer = false) (he : e ∈ r.offers) : e.node.dataParent? = some r := by
  rw [dataParent?, dataAncestors_of_mem_offers h he, dataAncestry_of_data h hk hl]
  rfl

/-- An offer is no module. -/
theorem kind_of_mem_offers (h : r.model.Linked) (he : e ∈ r.offers) : e.node.kind ≠ .module := by
  refine offers_induction (P := fun r e => r.model.Linked → e.node.kind ≠ .module) ?_ ?_ he h
  · intro r c hc _ h hk
    have := (mem_children_iff h).1 hc
    rw [(parent?_eq_none_iff (model_of_mem_children hc ▸ h)).2 hk] at this
    cases this
  · intro r layer e hl _ ih h
    exact ih (model_of_mem_layers hl ▸ h)

/-! ### Everything is offered -/

/-- What a layer of a node offers, the node offers behind the layer. -/
theorem mem_offers_of_mem_layers {f : DataChild} (hl : layer ∈ r.layers)
    (hf : f ∈ layer.node.offers) : f.under layer ∈ r.offers :=
  mem_offers_iff.2 (.inr ⟨layer, hl, f, hf, rfl⟩)

theorem augment_mem_layers (h : c ∈ r.augments) : Layer.augment c ∈ r.layers :=
  augment_mem_layers_iff.2 h

theorem case_mem_layers {choice : Ref} (h : choice ∈ r.children) (hk : choice.kind = .choice)
    (hc : c ∈ choice.cases) : Layer.case choice c ∈ r.layers :=
  case_mem_layers_iff.2 ⟨h, hk, hc⟩

/-- An augment of anything but a choice contributes no case. -/
theorem kind_ne_case_of_mem_contents (h : r.model.Linked) (hfit : r.model.AugmentsFit)
    (hr : r.target? = some t) (ht : t.kind ≠ .choice) (hc : c ∈ r.contents) : c.kind ≠ .case := by
  induction hh : r.height using Nat.strongRecOn generalizing r t with
  | ind n ih =>
    have hk : r.kind = .augment := by
      by_contra hk
      rw [(target?_eq_none_iff h).2 hk] at hr
      cases hr
    rw [contents_eq] at hc
    rcases List.mem_append.1 hc with hc | hc
    · have hfits := hfit r (mem_refs_iff.2 rfl) hk t hr
      rw [if_neg ht] at hfits
      exact hfits c hc
    · obtain ⟨further, hf, hc⟩ := List.mem_flatMap.1 hc
      have hm := model_of_mem_augments hf
      exact ih _ (hh ▸ height_lt_of_mem_later hf) (hm ▸ h) (hm ▸ hfit) ((mem_augments_iff h).1 hf)
        (by simp [hk]) hc rfl

/-- What augments contribute fits exactly if what they declare does, and nothing is added to augments of
choices: such an addition would have to be a case, and an augment of an augment declares none. -/
theorem augmentsFit_iff {m : Model} (h : m.Linked) :
    m.AugmentsFit ↔ m.CasesForChoices ∧ m.ChoiceAugmentsFinal := by
  constructor
  · intro hfit
    constructor
    · intro augment ha hk t ht c hc
      have hfits := hfit augment ha hk t ht
      split at hfits
      · next htk =>
        have hcase := hfits c (by rw [contents_eq]; exact List.mem_append_left _ hc)
        exact ⟨fun _ => htk, fun _ => hcase⟩
      · next htk => exact ⟨fun hcase => absurd hcase (hfits c hc), fun htk' => absurd htk' htk⟩
    · intro augment ha hk t ht htk further hf
      have hm : augment.model = m := model_of_mem_refs ha
      have hmf := (model_of_mem_augments hf).trans hm
      have hfits := hfit augment ha hk t ht
      rw [if_pos htk] at hfits
      refine List.eq_nil_iff_forall_not_mem.2 fun c hc => ?_
      refine kind_ne_case_of_mem_contents (hmf ▸ h) (hmf ▸ hfit)
        ((mem_augments_iff (hm ▸ h)).1 hf) (by simp [hk]) hc (hfits c ?_)
      rw [contents_eq]
      exact List.mem_append_right _ (List.mem_flatMap.2 ⟨further, hf, hc⟩)
  · rintro ⟨hdeclared, hfinal⟩ augment ha hk t ht
    split
    · next htk =>
      intro c hc
      rw [contents_eq, List.flatMap_eq_nil_iff.2 (hfinal augment ha hk t ht htk), List.append_nil] at hc
      exact (hdeclared augment ha hk t ht c hc).2 htk
    · next htk => exact fun c hc hcase => htk ((hdeclared augment ha hk t ht c hc).1 hcase)

/-- A node that offers anything has, among what it contributes, something that is no case. -/
theorem exists_content_of_mem_offers (h : r.model.Linked) (he : e ∈ r.offers) :
    ∃ c ∈ r.contents, c.kind ≠ .case := by
  refine offers_induction
    (P := fun r _ => r.model.Linked → ∃ c ∈ r.contents, c.kind ≠ .case) ?_ ?_ he h
  · intro r c hc hl _
    refine ⟨c, by rw [contents_eq]; exact List.mem_append_left _ hc, fun hk => ?_⟩
    simp [isLayer_eq_false_iff, hk] at hl
  · intro r layer e hl _ ih h
    have ih := ih (model_of_mem_layers hl ▸ h)
    rw [contents_eq]
    obtain ⟨augment, ha, rfl⟩ | ⟨choice, hc, hck, -⟩ := mem_layers_iff.1 hl
    · obtain ⟨c, hc, hk⟩ := ih
      exact ⟨c, List.mem_append_right _ (List.mem_flatMap.2 ⟨augment, ha, hc⟩), hk⟩
    · exact ⟨choice, List.mem_append_left _ hc, by simp [hck]⟩

/-- A case belongs to a choice. -/
theorem exists_choice_of_case (h : r.model.Linked) (hfit : r.model.AugmentsFit)
    (hk : r.kind = .case) : ∃ choice : Ref, choice.kind = .choice ∧ r ∈ choice.cases := by
  cases hp : r.parent? with
  | none =>
    rw [parent?_eq_none_iff h, hk] at hp
    cases hp
  | some p =>
    have hm := model_of_parent? hp
    have hc := (mem_children_iff (hm ▸ h)).2 hp
    have hadm := admits_of_parent? h hp
    rw [hk] at hadm
    have hpk : p.kind = .choice ∨ p.kind = .augment := by
      simpa [Model.Admits, Kind.admits] using hadm
    -- A case is declared in its choice, or in an augment, which then has a choice for a target.
    rcases hpk with hpk | hpk
    · refine ⟨p, hpk, List.mem_filter.2 ⟨List.mem_append_left _ hc, by simp [hk]⟩⟩
    · cases ht : p.target? with
      | none => exact absurd hpk ((target?_eq_none_iff (hm ▸ h)).1 ht)
      | some t =>
        have hfits := hfit p (mem_refs_iff.2 hm) hpk t ht
        have hmt := model_of_target? ht
        split at hfits
        · next htk =>
          refine ⟨t, htk, List.mem_filter.2 ⟨List.mem_append_right _ ?_, by simp [hk]⟩⟩
          exact List.mem_flatMap.2 ⟨p, (mem_augments_iff (hmt ▸ hm ▸ h)).2 ht, hc⟩
        · exact absurd hk (hfits r hc)

/-- A layer is one of a node declared before it, which is no choice, unless the layer offers nothing:
an augment of a choice only adds cases. -/
theorem exists_holder (h : r.model.Linked) (hfit : r.model.AugmentsFit) (hk : r.kind ≠ .choice)
    (hl : r.isLayer = true) :
    r.offers = [] ∨ ∃ q : Ref, q.model = r.model ∧ q.kind ≠ .choice ∧ q.index.val < r.index.val ∧
      ∃ layer ∈ q.layers, layer.node = r := by
  rcases (isLayer_iff.1 hl).resolve_left hk with hcase | haug
  · -- Around a case is the node that its choice is declared in.
    obtain ⟨choice, hck, hr⟩ := exists_choice_of_case h hfit hcase
    obtain ⟨hmc, hlt⟩ := later_of_mem_cases hr
    obtain ⟨q, hq⟩ : ∃ q, choice.parent? = some q := by
      refine Option.ne_none_iff_exists'.1 fun hnone => ?_
      rw [parent?_eq_none_iff (hmc ▸ h), hck] at hnone
      cases hnone
    have hmq : q.model = r.model := (model_of_parent? hq).trans hmc.symm
    have hqk : q.kind ≠ .choice := by
      intro hqk
      have hadm := admits_of_parent? (hmc ▸ h) hq
      simp [Model.Admits, Kind.admits, hck, hqk] at hadm
    have hc := (mem_children_iff (hmq.symm ▸ h)).2 hq
    exact .inr ⟨q, hmq, hqk, Nat.lt_trans (index_lt_of_earlier? hq) hlt, _,
      case_mem_layers hc hck hr, rfl⟩
  · -- Around an augment is its target.
    obtain ⟨t, ht⟩ : ∃ t, r.target? = some t :=
      Option.ne_none_iff_exists'.1 fun hnone => (target?_eq_none_iff h).1 hnone haug
    have hmt := model_of_target? ht
    by_cases htk : t.kind = .choice
    · have hfits := hfit r (mem_refs_iff.2 rfl) haug t ht
      rw [if_pos htk] at hfits
      refine .inl (List.eq_nil_iff_forall_not_mem.2 fun e he => ?_)
      obtain ⟨c, hc, hck⟩ := exists_content_of_mem_offers h he
      exact hck (hfits c hc)
    · exact .inr ⟨t, hmt, htk, index_lt_of_earlier? ht, _,
        augment_mem_layers ((mem_augments_iff (hmt.symm ▸ h)).2 ht), rfl⟩

/-- What a node offers, the nearest node around it offers that is no layer. -/
theorem exists_offering (h : r.model.Linked) (hfit : r.model.AugmentsFit) (hk : r.kind ≠ .choice)
    (he : e ∈ r.offers) :
    ∃ p : Ref, p.model = r.model ∧ p.isLayer = false ∧ ∃ f ∈ p.offers, f.node = e.node := by
  -- By induction on the place in the model: a layer comes after the node that has it.
  induction hi : r.index.val using Nat.strongRecOn generalizing r e with
  | ind n ih =>
    cases hl : r.isLayer with
    | false => exact ⟨r, rfl, hl, e, he, rfl⟩
    | true =>
      obtain hnone | ⟨q, hm, hqk, hlt, layer, hlayer, rfl⟩ := exists_holder h hfit hk hl
      · rw [hnone] at he
        cases he
      · obtain ⟨p, hpm, hpl, f, hf, hfe⟩ := ih _ (hi ▸ hlt) (hm.symm ▸ h) (hm.symm ▸ hfit) hqk
          (mem_offers_of_mem_layers hlayer he) rfl
        exact ⟨p, hpm.trans hm, hpl, f, hf, hfe⟩

/-- Whatever shows up in data is offered by a node that is no layer. -/
theorem exists_mem_offers (h : r.model.Linked) (hfit : r.model.AugmentsFit)
    (hk : r.kind ≠ .module) (hl : r.isLayer = false) :
    ∃ p : Ref, p.model = r.model ∧ p.isLayer = false ∧ ∃ e ∈ p.offers, e.node = r := by
  cases hp : r.parent? with
  | none => exact absurd ((parent?_eq_none_iff h).1 hp) hk
  | some p =>
    have hm := model_of_parent? hp
    have hc := (mem_children_iff (hm ▸ h)).2 hp
    have hpk : p.kind ≠ .choice := by
      intro hpk
      have hadm := admits_of_parent? h hp
      cases hr : r.kind <;>
        simp [Model.Admits, Kind.admits, hpk, hr, isLayer_eq_false_iff] at hadm hl
    obtain ⟨q, hq, hql, f, hf, hfe⟩ := exists_offering (hm ▸ h) (hm ▸ hfit) hpk
      (mem_offers_iff.2 (.inl ⟨r, hc, hl, rfl⟩))
    exact ⟨q, hq.trans hm, hql, f, hf, hfe⟩

/-! ### What stands where -/

theorem index_lt_of_mem_offers (he : e ∈ r.offers) : r.index.val < e.node.index.val := by
  refine offers_induction (P := fun r e => r.index.val < e.node.index.val) ?_ ?_ he
  · intro r c hc _
    exact (mem_later_iff.1 hc).2.2
  · intro r layer e hl _ ih
    refine Nat.lt_trans ?_ ih
    have hh := height_lt_of_mem_layers hl
    have hm := model_of_mem_layers hl
    have hr := r.index.isLt
    simp only [height, hm] at hh
    omega

/-- Only kinds that may have children offer anything. -/
theorem canHoldChildren_of_mem_offers (h : r.model.Linked) (he : e ∈ r.offers) :
    r.kind.canHoldChildren = true := by
  have of_child {c : Ref} (hc : c ∈ r.children) : r.kind.canHoldChildren = true := by
    have hadm := admits_of_parent? (model_of_mem_children hc ▸ h) ((mem_children_iff h).1 hc)
    cases hk : r.kind <;> cases hck : c.kind <;>
      simp [Model.Admits, Kind.admits, Kind.canHoldChildren, hk, hck] at hadm ⊢
  rcases mem_offers_iff.1 he with ⟨c, hc, -⟩ | ⟨layer, hl, -⟩
  · exact of_child hc
  · obtain ⟨augment, ha, -⟩ | ⟨choice, hc, -⟩ := mem_layers_iff.1 hl
    · have := isAugmentable_of_target? (model_of_mem_augments ha ▸ h) ((mem_augments_iff h).1 ha)
      simp only [Kind.isAugmentable, Bool.and_eq_true] at this
      exact this.1
    · exact of_child hc

theorem isLayer_of_mem_layers (h : r.model.Linked) (hl : layer ∈ r.layers) :
    layer.node.isLayer = true := by
  obtain ⟨augment, ha, rfl⟩ | ⟨choice, -, -, selected, hs, rfl⟩ := mem_layers_iff.1 hl
  · simp [Layer.node, isLayer_iff, kind_of_mem_augments h ha]
  · have hk : selected.kind = .case := by simpa using (List.mem_filter.1 hs).2
    simp [Layer.node, isLayer_iff, hk]

/-- An offer is declared in the node that offers it or in a layer of it. -/
theorem parent?_of_mem_offers (h : r.model.Linked) (he : e ∈ r.offers) :
    ∃ p, e.node.parent? = some p ∧ (p = r ∨ p.isLayer = true) := by
  refine offers_induction (P := fun r e => r.model.Linked →
    ∃ p, e.node.parent? = some p ∧ (p = r ∨ p.isLayer = true)) ?_ ?_ he h
  · intro r c hc _ h
    exact ⟨r, (mem_children_iff h).1 hc, .inl rfl⟩
  · intro r layer e hl _ ih h
    obtain ⟨p, hp, rfl | hpl⟩ := ih (model_of_mem_layers hl ▸ h)
    · exact ⟨_, hp, .inr (isLayer_of_mem_layers h hl)⟩
    · exact ⟨p, hp, .inr hpl⟩

/-- Operations are found at the top only. -/
theorem kind_ne_rpc_of_mem_offers (h : r.model.Linked) (hk : r.kind ≠ .module)
    (he : e ∈ r.offers) : e.node.kind ≠ .rpc := by
  intro hrpc
  obtain ⟨p, hp, hpr⟩ := parent?_of_mem_offers h he
  have hadm := admits_of_parent? (model_of_mem_offers he ▸ h) hp
  have hpk : p.kind = .module := by simpa [Model.Admits, Kind.admits, hrpc] using hadm
  rcases hpr with rfl | hpl
  · exact hk hpk
  · simp [isLayer_iff, hpk] at hpl

theorem enclosing_eq (h : r.parent? = some p) : r.enclosing = p :: p.enclosing := by
  rw [enclosing]
  split
  · next hn =>
    rw [h] at hn
    cases hn
  · next q hq =>
    rw [h] at hq
    cases hq
    rfl

/-- The nodes declared in a node, in order; augments that a module declares have their place at
their targets. -/
def declared (r : Ref) : List Ref := r.children.filter fun c => c.kind != .augment

/-- What holds no children declares nothing and is not augmented. -/
theorem childless (h : r.model.Linked) (hk : r.kind.canHoldChildren = false) :
    r.declared = [] ∧ r.augments = [] := by
  constructor
  · refine List.filter_eq_nil_iff.2 fun c hc => ?_
    have hadm := admits_of_parent? (model_of_mem_children hc ▸ h) ((mem_children_iff h).1 hc)
    cases hr : r.kind <;> cases hck : c.kind <;>
      simp_all [Model.Admits, Kind.admits, Kind.canHoldChildren]
  · refine List.eq_nil_iff_forall_not_mem.2 fun a ha => ?_
    have haug := isAugmentable_of_target? (model_of_mem_augments ha ▸ h) ((mem_augments_iff h).1 ha)
    simp [Kind.isAugmentable, hk] at haug

theorem childless_of_isLeafLike (h : r.model.Linked) (hk : r.kind.isLeafLike = true) :
    r.declared = [] ∧ r.augments = [] := by
  apply childless h
  cases hr : r.kind <;> simp_all [Kind.isLeafLike, Kind.canHoldChildren]

/-- Where names are distinct, a node finds what it declares by the name alone. -/
theorem findDataChild?_of_parent (h : r.model.Linked) (hn : (p.declared.map Ref.name).Nodup)
    (hp : r.parent? = some p) (hl : r.isLayer = false) :
    p.findDataChild? r.name none = some { node := r } := by
  have hchild : r ∈ p.children := (mem_children_iff (model_of_parent? hp ▸ h)).2 hp
  have declared {x : Ref} (hx : x ∈ p.children) (hxl : x.isLayer = false) : x ∈ p.declared := by
    refine List.mem_filter.2 ⟨hx, ?_⟩
    by_contra hk
    have hk : x.kind = .augment := by simpa using hk
    simp [isLayer_eq_false_iff, hk] at hxl
  apply findDataChild?_of_own
  refine List.find?_eq_some_of_unique hchild (by simp [hl, Schema.Id.fits_iff, Ref.name]) ?_
  intro x hx hfits
  simp only [Bool.and_eq_true, Bool.not_eq_true', Schema.Id.fits_iff] at hfits
  exact List.eq_of_nodup_map hn (declared hx hfits.1) (declared hchild hl) hfits.2.1

end Ref

end YangBinding.Schema
