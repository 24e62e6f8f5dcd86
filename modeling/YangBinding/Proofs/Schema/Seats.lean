import YangBinding.Proofs.Schema.Compiled
import YangBinding.Proofs.Schema.Offers

/-!
# Which data children are found

A node looks for its data children in its augments and in the cases of its choices. Commands let an
augment declare cases and other nodes alike, whatever its target is, so a model may hold nodes that
no look-up visits: a case in an augment of a container, a leaf in an augment of a choice, and all
that stands in an augment of the latter. A node is found exactly if it and every layer around it
fit where they stand.

## Main definitions

* `Ref.Fits` — what stands in an augment has a place at the target of the augment
* `Ref.Seated` — a node fits, and so do the layers around it

## Main results

* `Ref.exists_offering_of_fits`, `Ref.seated_of_mem_offers` — a node is offered behind layers that
  fit, and only behind those
* `Ref.findDataChild?_of_dataParent?` — the data parent of a node offers it exactly if the node is
  seated, and then finds it under its name and namespace
* `find_bulb` — a node that its data parent does not find
-/

namespace YangBinding.Schema

namespace Ref

variable {r c p t : Ref} {e : DataChild}

/-- Cases are all that has a place here: the node is a choice or an augment of one. -/
def TakesCases (r : Ref) : Prop :=
  r.kind = .choice ∨ ∃ t, r.target? = some t ∧ t.kind = .choice

/-- A case in an augment needs a choice for a target; anything else, further augments included,
needs another target. -/
def Fits (r : Ref) : Prop :=
  ∀ augment, r.up? = some augment → augment.kind = .augment → (r.kind = .case ↔ augment.TakesCases)

/-- The layers on the way up from here to the next node that is none. -/
def layerAncestry (r : Ref) : List Ref := r.ancestry.takeWhile isLayer

/-- The node fits where it stands, and so do all layers around it. -/
def Seated (r : Ref) : Prop :=
  r.Fits ∧ ∀ p, r.parent? = some p → ∀ layer ∈ p.layerAncestry, layer.Fits

/-! ### The layers around a node -/

theorem layerAncestry_of_isLayer (h : r.up? = some p) (hl : r.isLayer = true) :
    r.layerAncestry = r :: p.layerAncestry := by
  have hk : r.kind ≠ .module := by
    intro hk
    simp [isLayer_iff, hk] at hl
  rw [layerAncestry, ancestry_of_up? hk h, List.takeWhile_cons_of_pos hl, layerAncestry]

theorem layerAncestry_of_data (hl : r.isLayer = false) : r.layerAncestry = [] := by
  have hl : ¬r.isLayer = true := by simp [hl]
  rw [layerAncestry, ancestry]
  split
  · rfl
  · split <;> rw [List.takeWhile_cons_of_neg hl]

/-- Only what stands in an augment may not fit. -/
theorem fits_of_up? (hup : c.up? = some r)
    (hr : r.kind = .augment → (c.kind = .case ↔ r.TakesCases)) : c.Fits := by
  intro a ha hak
  obtain rfl : r = a := Option.some.inj (hup.symm.trans ha)
  exact hr hak

/-- Below a node that takes other nodes than cases, whatever is no case fits. -/
theorem fits_of_not_takesCases (ht : ¬r.TakesCases) (hup : c.up? = some r) (hk : c.kind ≠ .case) :
    c.Fits :=
  fits_of_up? hup fun _ => iff_of_false hk ht

/-- A layer that fits adds to the layers that do. -/
theorem forall_fits_of_up? (hup : c.up? = some r) (hl : c.isLayer = true) (hc : c.Fits)
    (hr : ∀ x ∈ r.layerAncestry, x.Fits) : ∀ x ∈ c.layerAncestry, x.Fits := by
  rw [layerAncestry_of_isLayer hup hl]
  exact List.forall_mem_cons.2 ⟨hc, hr⟩

/-- A case fits in its choice, or in an augment of the choice, which then fits as well. -/
theorem forall_fits_of_mem_cases (h : r.model.Linked) (hk : r.kind = .choice) (hs : c ∈ r.cases)
    (hr : ∀ x ∈ r.layerAncestry, x.Fits) : ∀ x ∈ c.layerAncestry, x.Fits := by
  obtain ⟨hsk, hup⟩ := up?_of_mem_cases h hs
  have hsl := isLayer_iff.2 (.inr (.inl hsk))
  obtain hup | ⟨augment, ha, hup⟩ := hup
  · exact forall_fits_of_up? hup hsl (fits_of_up? hup (by simp [hk])) hr
  · have hak := kind_of_mem_augments h ha
    have htarget := (mem_augments_iff h).1 ha
    have haup := up?_of_mem_augments h ha
    have haugment := forall_fits_of_up? haup (isLayer_iff.2 (.inr (.inr hak)))
      (fits_of_up? haup (by simp [hk])) hr
    exact forall_fits_of_up? hup hsl
      (fits_of_up? hup fun _ => iff_of_true hsk (.inr ⟨r, htarget, hk⟩)) haugment

/-- Only augments have targets, so any other node takes cases exactly if it is a choice. -/
theorem not_takesCases_of_kind (h : r.model.Linked) (hc : r.kind ≠ .choice)
    (ha : r.kind ≠ .augment) : ¬r.TakesCases := by
  rintro (hk | ⟨t, ht, -⟩)
  · exact hc hk
  · rw [(target?_eq_none_iff h).2 ha] at ht
    cases ht

/-- What is no case and fits stands in a node that takes other nodes than cases. -/
theorem Fits.not_takesCases (hf : r.Fits) (h : r.model.Linked) (hp : r.up? = some p)
    (hm : p.model = r.model) (hk : r.kind ≠ .case) (hpk : p.kind ≠ .choice) : ¬p.TakesCases := by
  by_cases ha : p.kind = .augment
  · exact fun ht => hk ((hf p hp ha).2 ht)
  · exact not_takesCases_of_kind (hm ▸ h) hpk ha

/-! ### Looking up from what is offered -/

/-- A case that fits belongs to a choice around it. -/
theorem Fits.exists_choice (hf : r.Fits) (h : r.model.Linked) (hk : r.kind = .case) :
    ∃ choice : Ref, choice.kind = .choice ∧ r ∈ choice.cases ∧
      choice.layerAncestry ⊆ r.layerAncestry := by
  obtain ⟨p, hp⟩ := exists_up? h (by simp [hk])
  have hparent : r.parent? = some p := (up?_eq_parent? (by simp [hk]) (by simp [hk])).symm.trans hp
  have hm := model_of_parent? hparent
  have hr : r ∈ p.children := (mem_children_iff (hm ▸ h)).2 hparent
  have hway := layerAncestry_of_isLayer hp (isLayer_iff.2 (.inr (.inl hk)))
  have hpk : p.kind = .choice ∨ p.kind = .augment := by
    simpa [Model.Admits, Kind.admits, hk] using admits_of_parent? h hparent
  -- The case is declared in the choice itself, or in an augment that has it for a target.
  rcases hpk with hpk | hpk
  · refine ⟨p, hpk, List.mem_filter.2 ⟨List.mem_append_left _ hr, by simp [hk]⟩, ?_⟩
    rw [hway]
    exact List.subset_cons_self _ _
  · obtain hchoice | ⟨t, ht, htk⟩ := (hf p hp hpk).1 hk
    · simp [hpk] at hchoice
    · have hpt : p.up? = some t := by simp [up?, hpk, ht]
      have ha : p ∈ t.augments :=
        (mem_augments_iff ((model_of_target? ht).trans hm ▸ h)).2 ht
      refine ⟨t, htk, List.mem_filter.2 ⟨List.mem_append_right _ ?_, by simp [hk]⟩, ?_⟩
      · exact List.mem_flatMap.2 ⟨p, ha, hr⟩
      · rw [hway, layerAncestry_of_isLayer hpt (isLayer_iff.2 (.inr (.inr hpk)))]
        exact fun x hx => List.mem_cons_of_mem _ (List.mem_cons_of_mem _ hx)

/-- A layer that fits, as those around it do, is one of a node declared before it, around which they
fit as well. -/
theorem exists_holder_of_fits (h : r.model.Linked) (hfits : ∀ x ∈ r.layerAncestry, x.Fits)
    (ht : ¬r.TakesCases) (hl : r.isLayer = true) :
    ∃ q : Ref, q.model = r.model ∧ ¬q.TakesCases ∧ (∀ x ∈ q.layerAncestry, x.Fits) ∧
      q.index.val < r.index.val ∧ ∃ layer ∈ q.layers, layer.node = r := by
  rcases (isLayer_iff.1 hl).resolve_left fun hk => ht (.inl hk) with hcase | haug
  · -- Around a case is the node that its choice is declared in.
    obtain ⟨q, hq⟩ := exists_up? h (by simp [hcase])
    have hself : r ∈ r.layerAncestry := by
      rw [layerAncestry_of_isLayer hq hl]
      exact List.mem_cons_self
    obtain ⟨choice, hck, hr, hsub⟩ := (hfits r hself).exists_choice h hcase
    obtain ⟨hmc, hlt⟩ := later_of_mem_cases hr
    have hc : choice.model.Linked := hmc ▸ h
    obtain ⟨g, hg⟩ := exists_up? hc (by simp [hck])
    have hparent : choice.parent? = some g :=
      (up?_eq_parent? (by simp [hck]) (by simp [hck])).symm.trans hg
    have hmg := model_of_parent? hparent
    have hway := layerAncestry_of_isLayer hg (isLayer_iff.2 (.inl hck))
    have hgk : g.kind ≠ .choice := by
      intro hgk
      simpa [Model.Admits, Kind.admits, hck, hgk] using admits_of_parent? hc hparent
    have hfit : choice.Fits := hfits choice (hsub (by simp [hway]))
    exact ⟨g, hmg.trans hmc.symm, hfit.not_takesCases hc hg hmg (by simp [hck]) hgk,
      fun x hx => hfits x (hsub (by simp [hway, hx])),
      Nat.lt_trans (index_lt_of_earlier? hparent) hlt, _,
      case_mem_layers ((mem_children_iff (hmg ▸ hc)).2 hparent) hck hr, rfl⟩
  · -- Around an augment is its target.
    obtain ⟨t, hup⟩ := exists_up? h (by simp [haug])
    have htarget : r.target? = some t := by simpa [up?, haug] using hup
    have hmt := model_of_target? htarget
    have hway := layerAncestry_of_isLayer hup hl
    have htk : t.kind ≠ .choice := fun htk => ht (.inr ⟨t, htarget, htk⟩)
    have hfit : r.Fits := hfits r (by simp [hway])
    exact ⟨t, hmt, hfit.not_takesCases h hup hmt (by simp [haug]) htk,
      fun x hx => hfits x (by simp [hway, hx]), index_lt_of_earlier? htarget, _,
      augment_mem_layers ((mem_augments_iff (hmt ▸ h)).2 htarget), rfl⟩

/-- What is offered behind layers that fit, the node that has the layers offers. -/
theorem exists_offering_of_fits (h : r.model.Linked) (hfits : ∀ x ∈ r.layerAncestry, x.Fits)
    (ht : ¬r.TakesCases) (he : e ∈ r.offers) :
    ∃ p : Ref, p.model = r.model ∧ p.isLayer = false ∧ ∃ f ∈ p.offers, f.node = e.node := by
  -- By induction on the place in the model: the node around a layer is declared before it.
  induction hi : r.index.val using Nat.strongRecOn generalizing r e with
  | ind n ih =>
    cases hl : r.isLayer with
    | false => exact ⟨r, rfl, hl, e, he, rfl⟩
    | true =>
      obtain ⟨q, hm, hq, hqfits, hlt, layer, hlayer, rfl⟩ := exists_holder_of_fits h hfits ht hl
      obtain ⟨p, hpm, hpl, f, hf, hfe⟩ := ih _ (hi ▸ hlt) (hm ▸ h) hqfits hq
        (mem_offers_of_mem_layers hlayer he) rfl
      exact ⟨p, hpm.trans hm, hpl, f, hf, hfe⟩

/-- A node that is seated is offered by a node that is no layer. -/
theorem Seated.exists_offering (hs : r.Seated) (h : r.model.Linked) (hk : r.kind ≠ .module)
    (hl : r.isLayer = false) :
    ∃ p : Ref, p.model = r.model ∧ p.isLayer = false ∧ ∃ e ∈ p.offers, e.node = r := by
  obtain ⟨-, hcase, ha⟩ := isLayer_eq_false_iff.1 hl
  obtain ⟨q, hup⟩ := exists_up? h hk
  have hq : r.parent? = some q := (up?_eq_parent? hk ha).symm.trans hup
  have hm := model_of_parent? hq
  have hqk : q.kind ≠ .choice := by
    intro hqk
    have hadm := admits_of_parent? h hq
    cases hr : r.kind <;> simp [Model.Admits, Kind.admits, hqk, hr] at hadm hcase
  obtain ⟨p, hpm, hpl, f, hf, hfe⟩ := exists_offering_of_fits (hm ▸ h) (hs.2 q hq)
    (hs.1.not_takesCases h hup hm hcase hqk)
    (mem_offers_iff.2 (.inl ⟨r, (mem_children_iff (hm ▸ h)).2 hq, hl, rfl⟩))
  exact ⟨p, hpm.trans hm, hpl, f, hf, hfe⟩

/-! ### Looking down to what is offered -/

/-- What a node offers that takes other nodes than cases fits where it stands, layers included. -/
theorem seated_of_mem_offers (h : r.model.Linked) (ht : ¬r.TakesCases)
    (hfits : ∀ x ∈ r.layerAncestry, x.Fits) (he : e ∈ r.offers) : e.node.Seated := by
  refine offers_induction (P := fun r e => r.model.Linked → ¬r.TakesCases →
    (∀ x ∈ r.layerAncestry, x.Fits) → e.node.Seated) ?_ ?_ he h ht hfits
  · intro r c hc hl h ht hfits
    obtain ⟨-, hcase, haug⟩ := isLayer_eq_false_iff.1 hl
    refine ⟨fits_of_not_takesCases ht (up?_of_mem_children h hc haug) hcase, ?_⟩
    intro q hq
    obtain rfl : r = q := Option.some.inj (((mem_children_iff h).1 hc).symm.trans hq)
    exact hfits
  · intro r layer e hl _ ih h ht hfits
    obtain ⟨augment, ha, rfl⟩ | ⟨choice, hc, hck, selected, hs, rfl⟩ := mem_layers_iff.1 hl
    · -- The target of the augment is no choice, or it would take cases.
      have hk : (Layer.augment augment).node.kind = .augment := kind_of_mem_augments h ha
      have hup := up?_of_mem_augments h ha
      refine ih (model_of_mem_augments ha ▸ h) ?_ (forall_fits_of_up? hup
        (isLayer_iff.2 (.inr (.inr hk))) (fits_of_not_takesCases ht hup (by simp [hk])) hfits)
      rintro (hchoice | ⟨t, ht', htk⟩)
      · simp [hk] at hchoice
      · obtain rfl : r = t := Option.some.inj (((mem_augments_iff h).1 ha).symm.trans ht')
        exact ht (.inl htk)
    · have hm := model_of_mem_children hc
      have hup := up?_of_mem_children h hc (by simp [hck])
      have hchoice := forall_fits_of_up? hup (isLayer_iff.2 (.inl hck))
        (fits_of_not_takesCases ht hup (by simp [hck])) hfits
      have hcase : selected.kind = .case := by simpa using (List.mem_filter.1 hs).2
      have hsk : (Layer.case choice selected).node.kind = .case := hcase
      have hms := (later_of_mem_cases hs).1.trans hm
      exact ih (hms ▸ h) (not_takesCases_of_kind (hms ▸ h) (by simp [hsk]) (by simp [hsk]))
        (forall_fits_of_mem_cases (hm ▸ h) hck hs hchoice)

/-! ### The data parent -/

/-- Among nodes that are no layers only the data parent offers a node. -/
theorem eq_of_dataParent? {q : Ref} (h : q.model.Linked) (hl : q.isLayer = false)
    (he : e ∈ q.offers) (hp : e.node.dataParent? = some p) : q = p := by
  rw [dataParent?, dataAncestors_of_mem_offers h he] at hp
  by_cases hk : q.kind = .module
  · rw [dataAncestry_of_module hk] at hp
    cases hp
  · rw [dataAncestry_of_data h hk hl] at hp
    exact Option.some.inj hp

/-- The data parent of a node offers the node exactly if the node is seated, and what the data parent
then finds under the name and the namespace of the node has its identifier. -/
theorem findDataChild?_of_dataParent?
    (h : r.model.Built ∨ ∃ source : Source, source.compile = .ok r.model) (hl : r.isLayer = false)
    (hp : r.dataParent? = some p) :
    ((∃ e ∈ p.offers, e.node = r) ↔ r.Seated) ∧
      (r.Seated → ∃ found, p.findDataChild? r.name r.ns = some found ∧ found.node.id = r.id) := by
  have hbuilt : r.model.Built := by
    obtain hbuilt | ⟨_, hsource⟩ := h
    · exact hbuilt
    · exact Source.built_of_compile hsource
  have hlinked := hbuilt.linked
  have hk : r.kind ≠ .module := by
    intro hk
    rw [dataParent?, dataAncestors, (parent?_eq_none_iff hlinked).2 hk] at hp
    cases hp
  have offered (hs : r.Seated) : ∃ e ∈ p.offers, e.node = r := by
    obtain ⟨q, hm, hql, e, he, rfl⟩ := hs.exists_offering hlinked hk hl
    obtain rfl := eq_of_dataParent? (hm ▸ hlinked) hql he hp
    exact ⟨e, he, rfl⟩
  refine ⟨⟨?_, offered⟩, fun hs => ?_⟩
  · rintro ⟨e, he, rfl⟩
    have hp' : p.isLayer = false :=
      not_isLayer_of_mem_dataAncestors (List.mem_of_head? hp)
    obtain ⟨hchoice, -, haug⟩ := isLayer_eq_false_iff.1 hp'
    have hm := model_of_mem_offers he
    refine seated_of_mem_offers (hm ▸ hlinked)
      (not_takesCases_of_kind (hm ▸ hlinked) hchoice haug) ?_ he
    rw [layerAncestry_of_data hp']
    simp
  · -- The node itself would do, so something is found; a full identifier fits nothing else.
    obtain ⟨e, he, rfl⟩ := offered hs
    cases hf : p.offers.find? fun f => f.node.id.fits e.node.name e.node.ns with
    | none => exact absurd (Id.fits_self _) (List.find?_eq_none.1 hf e he)
    | some found =>
      refine ⟨found, by rw [findDataChild?_eq, hf], ?_⟩
      obtain ⟨ns, hns⟩ := exists_ns hbuilt
      exact Id.eq_of_fits hns (by simpa [name, Ref.ns] using List.find?_some hf)

end Ref

/-! ### A desk

The lamp of a desk gets its power behind a choice that an augment contributes to. Another augment
gives the lamp itself a case. -/

namespace Desk

def model : Model where
  id := "desk"
  nodes := #[
    { id := ⟨"desk", some "urn:desk"⟩, kind := .module, children := [1, 3, 6] },
    { id := ⟨"lamp", some "urn:desk"⟩, kind := .container, parent := some 0, children := [2],
      augments := [6] },
    { id := ⟨"power", some "urn:desk"⟩, kind := .choice, parent := some 1, augments := [3] },
    { id := ⟨"/lamp/power", some "urn:desk"⟩, kind := .augment, parent := some 0, target := some 2,
      children := [4] },
    { id := ⟨"mains", some "urn:desk"⟩, kind := .case, parent := some 3, children := [5] },
    { id := ⟨"cable", some "urn:desk"⟩, kind := .leaf, parent := some 4 },
    { id := ⟨"/lamp", some "urn:desk"⟩, kind := .augment, parent := some 0, target := some 1,
      children := [7] },
    { id := ⟨"spare", some "urn:desk"⟩, kind := .case, parent := some 6, children := [8] },
    { id := ⟨"bulb", some "urn:desk"⟩, kind := .leaf, parent := some 7 }]
  modules := [0]

theorem built : model.Built :=
  ⟨"desk", [.addModule "desk" "urn:desk" none, .addChild 0 .container "lamp",
    .addChild 1 .choice "power", .addAugment 0 2, .addChild 3 .case "mains",
    .addChild 4 .leaf "cable", .addAugment 0 1, .addChild 6 .case "spare", .addChild 7 .leaf "bulb"],
    by decide +kernel⟩

def lampRef : Ref := ⟨model, 1, by decide⟩

def powerRef : Ref := ⟨model, 2, by decide⟩

def outletRef : Ref := ⟨model, 3, by decide⟩

def mainsRef : Ref := ⟨model, 4, by decide⟩

def cableRef : Ref := ⟨model, 5, by decide⟩

def bulbRef : Ref := ⟨model, 8, by decide⟩

/-- The case behind which the cable is stands in an augment of a choice. -/
theorem seated_cable : cableRef.Seated := by
  have hmains : mainsRef.up? = some outletRef := rfl
  have houtlet : outletRef.up? = some powerRef := rfl
  have hpower : powerRef.up? = some lampRef := rfl
  have hway : mainsRef.layerAncestry = [mainsRef, outletRef, powerRef] := by
    rw [Ref.layerAncestry_of_isLayer hmains (by decide),
      Ref.layerAncestry_of_isLayer houtlet (by decide),
      Ref.layerAncestry_of_isLayer hpower (by decide), Ref.layerAncestry_of_data (by decide)]
  -- A node that does not stand in an augment fits.
  have fits {r p : Ref} (hup : r.up? = some p) (hk : p.kind ≠ .augment) : r.Fits := by
    rintro a ha hak
    obtain rfl : p = a := Option.some.inj (hup.symm.trans ha)
    exact absurd hak hk
  refine ⟨fits (p := mainsRef) rfl (by decide), ?_⟩
  rintro p ⟨⟩
  change ∀ x ∈ mainsRef.layerAncestry, x.Fits
  rw [hway]
  refine List.forall_mem_cons.2 ⟨?_, List.forall_mem_cons.2 ⟨fits houtlet (by decide),
    List.forall_mem_singleton.2 (fits hpower (by decide))⟩⟩
  rintro a ha -
  obtain rfl : outletRef = a := Option.some.inj (hmains.symm.trans ha)
  exact iff_of_true rfl (.inr ⟨powerRef, rfl, rfl⟩)

end Desk

/-- A leaf behind a case that an augment contributes to a choice is found. -/
theorem find_cable : Desk.cableRef.dataParent? = some Desk.lampRef ∧ ∃ found,
    Desk.lampRef.findDataChild? "cable" (some "urn:desk") = some found ∧
      found.node.id = Desk.cableRef.id := by
  have hparent : Desk.cableRef.dataParent? = some Desk.lampRef := by with_unfolding_all rfl
  exact ⟨hparent, (Ref.findDataChild?_of_dataParent? (.inl Desk.built) (by decide) hparent).2
    Desk.seated_cable⟩

/-- A leaf behind a case in an augment of a container is not found, although the container is its data
parent. -/
theorem find_bulb : Desk.bulbRef.model.Built ∧ Desk.bulbRef.isLayer = false ∧
    Desk.bulbRef.dataParent? = some Desk.lampRef ∧
    Desk.lampRef.findDataChild? Desk.bulbRef.name Desk.bulbRef.ns = none := by
  refine ⟨Desk.built, by decide, by with_unfolding_all rfl, ?_⟩
  with_unfolding_all rfl

end YangBinding.Schema
