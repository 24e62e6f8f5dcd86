import YangBinding.Proofs.Schema.Seats

/-!
# The way down to a data child

A look-up goes through a fixed sequence of candidates and takes the first one that fits: what a node
declares, then what its augments contribute, then what the cases of its choices hold. With the child
it gives the layers on the way, and these are a way indeed: each layer belongs where the one before
has led, and the child is declared in the last of them. The way up from the child comes back to the
node, since layers do not count as places.

## Main definitions

* `Ref.Descends` — layers lead from a node down to a child

## Main results

* `Ref.offers_eq_candidates` — the candidates of a node, in the order of the search
* `Ref.mem_offers_iff_descends` — the candidates are exactly what layers lead down to
* `Ref.findDataChild?_first` — a look-up takes the first candidate that fits
-/

namespace YangBinding.Schema

namespace Ref

variable {r a c choice s : Ref} {e : DataChild} {layers : List Layer} {name : String}
  {ns : Option String}

/-- Layers lead from a node down to a child: an augment targets the node reached so far, the choice of
a case is declared there and has the case, and the child is declared in the node reached in the end. -/
inductive Descends : Ref → List Layer → Ref → Prop
  | child {r c : Ref} (declared : c ∈ r.children) : Descends r [] c
  | augment {r a c : Ref} {layers : List Layer} (kind : a.kind = .augment)
      (target : a.target? = some r) (inside : Descends a layers c) :
      Descends r (.augment a :: layers) c
  | case {r choice s c : Ref} {layers : List Layer} (declared : choice ∈ r.children)
      (choice_kind : choice.kind = .choice) (kind : s.kind = .case) (model : s.model = r.model)
      (isCase : s.isCaseOf choice = true) (inside : Descends s layers c) :
      Descends r (.case choice s :: layers) c

/-- What is declared in a choice as a case comes before what augments contribute to the choice. -/
theorem cases_eq (choice : Ref) : choice.cases =
    (choice.children.filter fun c => c.kind == .case) ++
      choice.augments.flatMap fun a => a.children.filter fun c => c.kind == .case := by
  rw [cases, List.filter_append, List.filter_flatMap]

/-- The candidates of a node in the order of the search. -/
theorem offers_eq_candidates (r : Ref) : r.offers =
    (r.children.filter fun c => !c.isLayer).map (fun c => { node := c }) ++
      (r.augments.flatMap fun a => a.offers.map fun e => e.under (.augment a)) ++
      (r.children.filter fun c => c.kind == .choice).flatMap fun choice =>
        ((choice.children.filter fun c => c.kind == .case) ++
            choice.augments.flatMap fun a => a.children.filter fun c => c.kind == .case).flatMap
          fun s => s.offers.map fun e => e.under (.case choice s) := by
  rw [offers_eq, layers, List.flatMap_append, List.flatMap_map, List.flatMap_assoc,
    ← List.append_assoc]
  simp only [List.flatMap_map, ← cases_eq]
  rfl

/-- The candidates of a node are what shows up in data among all that layers lead down to. -/
theorem mem_offers_iff_descends (h : r.model.Linked) :
    e ∈ r.offers ↔ e.node.isLayer = false ∧ Descends r e.layers e.node := by
  obtain ⟨c, layers⟩ := e
  -- By induction on the layers that are left: the first one leads to a node that offers the same.
  induction layers generalizing r with
  | nil =>
    rw [mem_offers_nil_iff]
    constructor
    · rintro ⟨hc, hl⟩
      exact ⟨hl, .child hc⟩
    · rintro ⟨hl, ⟨hc⟩⟩
      exact ⟨hc, hl⟩
  | cons layer layers ih =>
    rw [mem_offers_cons_iff, mem_layers_iff]
    constructor
    · rintro ⟨⟨a, ha, rfl⟩ | ⟨choice, hc, hk, s, hs, rfl⟩, hinside⟩
      · have hm := model_of_mem_augments ha
        obtain ⟨hl, hinside⟩ := (ih (hm ▸ h)).1 hinside
        exact ⟨hl, .augment (kind_of_mem_augments h ha) ((mem_augments_iff h).1 ha) hinside⟩
      · have hm : choice.model = r.model := model_of_mem_children hc
        have hsm := (later_of_mem_cases hs).1
        obtain ⟨hl, hinside⟩ := (ih ((hsm.trans hm) ▸ h)).1 hinside
        obtain ⟨hsk, hcase⟩ := (mem_cases_iff (hm ▸ h) hsm).1 hs
        exact ⟨hl, .case hc hk hsk (hsm.trans hm) hcase hinside⟩
    · rintro ⟨hl, hinside⟩
      cases hinside with
      | augment hk ht hinside =>
        have hm := model_of_target? ht
        exact ⟨.inl ⟨_, (mem_augments_iff h).2 ht, rfl⟩, (ih (hm ▸ h)).2 ⟨hl, hinside⟩⟩
      | case hc hk hsk hsm hcase hinside =>
        have hm := model_of_mem_children hc
        have hs := (mem_cases_iff (hm ▸ h) (hsm.trans hm.symm)).2 ⟨hsk, hcase⟩
        exact ⟨.inr ⟨_, hc, hk, _, hs, rfl⟩, (ih (hsm ▸ h)).2 ⟨hl, hinside⟩⟩

/-- A look-up takes the first candidate that fits. The layers that it gives lead down to the child,
and the way up from the child comes back. -/
theorem findDataChild?_first (h : r.model.Built) (name : String) (ns : Option String) :
    r.offers =
      (r.children.filter fun c => !c.isLayer).map (fun c => { node := c }) ++
        (r.augments.flatMap fun a => a.offers.map fun e => e.under (.augment a)) ++
        (r.children.filter fun c => c.kind == .choice).flatMap (fun choice =>
          ((choice.children.filter fun c => c.kind == .case) ++
              choice.augments.flatMap fun a => a.children.filter fun c => c.kind == .case).flatMap
            fun s => s.offers.map fun e => e.under (.case choice s)) ∧
    r.findDataChild? name ns = r.offers.find? (fun e => e.node.id.fits name ns) ∧
    ∀ e, r.findDataChild? name ns = some e →
      Descends r e.layers e.node ∧ e.node.isLayer = false ∧
      (r.kind = .module → e.node.dataParent? = none) ∧
      (r.kind ≠ .module → r.isLayer = false → e.node.dataParent? = some r) := by
  refine ⟨r.offers_eq_candidates, r.findDataChild?_eq name ns, fun e hf => ?_⟩
  have he := (mem_offers_of_findDataChild? hf).1
  obtain ⟨hl, hdown⟩ := (mem_offers_iff_descends h.linked).1 he
  exact ⟨hdown, hl, fun hk => dataParent?_of_mem_module h.linked hk he,
    fun hk hl => dataParent?_of_mem_offers h.linked hk hl he⟩

end Ref

/-- The cable is found below the lamp, through a case that an augment contributes to the choice of
power. -/
theorem findDataChild?_first_cable : Desk.lampRef.model.Built ∧ ∃ e,
    Desk.lampRef.findDataChild? "cable" none = some e ∧
      Ref.Descends Desk.lampRef e.layers e.node ∧ e.node.dataParent? = some Desk.lampRef := by
  obtain ⟨-, -, hfound⟩ := Ref.findDataChild?_first (r := Desk.lampRef) Desk.built "cable" none
  obtain ⟨e, he⟩ : ∃ e, Desk.lampRef.findDataChild? "cable" none = some e :=
    Option.isSome_iff_exists.1 (by decide +kernel)
  obtain ⟨hdown, -, -, hup⟩ := hfound e he
  exact ⟨Desk.built, e, he, hdown, hup (by decide) (by decide)⟩

end YangBinding.Schema
