import YangBinding.Proofs.Registry.Sole

/-!
# Registries with any number of models

Whatever commands have made a registry, it answers as a ledger of built models says. What a look-up
by name has found is found again by its full identifier: below a node because the first child that
fits the name comes first among those that fit the identifier. At the top, where the modules are
searched in another order if a namespace is given, equal identifiers have to mean the same node.

## Main definitions

* `Registry.Consulted` — a module that a search at the top may come to
* `Registry.Prevails` — at the top, the identifier of a node means that node
* `Registry.Unambiguous` — at the top, equal identifiers mean the same node

## Main results

* `Registry.Reachable.exists_ledger` — the ledger of a registry
* `Registry.Reachable.model_mem_of_childOf?` — look-ups lead to nodes of models that are in use
* `Registry.Reachable.childOf?_again` — what has been found is found by its identifier
-/

namespace YangBinding.Registry

open Schema (DataChild Model Ref)

variable {reg : Registry} {m : Model} {module r s : Ref} {e : DataChild} {parent : Option Ref}
  {name c : String} {ns : Option String}

/-- However a registry was made, what it answers is what a ledger of built models says. -/
theorem Reachable.exists_ledger (h : reg.Reachable) : ∃ ledger : Ledger, reg.Mirrors ledger ∧
    (reg.models.map Model.id).Nodup ∧ ∀ e ∈ ledger, e.model.Built := by
  obtain ⟨strict, commands, hproper, rfl⟩ := h
  obtain ⟨hfollows, hstrict⟩ := follows_run strict commands
  have hsound := sound_ofCommands strict commands
  refine ⟨_, hfollows.mirrors (by rw [hstrict]; exact hsound), ?_, fun e he => ?_⟩
  · rw [hfollows.models, List.map_map]
    exact List.pairwise_map.2 hsound.1
  · exact hproper _ (mem_commands_of_mem_ledger he)

theorem Reachable.built (h : reg.Reachable) (hm : m ∈ reg.models) : m.Built := by
  obtain ⟨ledger, hmirrors, -, hbuilt⟩ := h.exists_ledger
  rw [hmirrors.models_eq] at hm
  obtain ⟨e, he, rfl⟩ := List.mem_map.1 hm
  exact hbuilt e he

theorem Reachable.linked (h : reg.Reachable) (hm : m ∈ reg.models) : m.Linked :=
  (h.built hm).linked

/-- A class leads to a node of a model that is in use, which is bound to the class. -/
theorem Reachable.bound_of_nodeOfClass? (h : reg.Reachable) (hc : reg.nodeOfClass? c = some r) :
    r.model ∈ reg.models ∧ r.className = some c := by
  obtain ⟨ledger, hmirrors, -, -⟩ := h.exists_ledger
  rw [hmirrors.nodeOfClass?_eq] at hc
  obtain ⟨e, he, hc⟩ := Option.bind_eq_some_iff.1 hc
  refine ⟨?_, by simpa using List.find?_some hc⟩
  rw [hmirrors.models_eq, Ref.model_of_mem_refs (List.mem_of_find?_eq_some hc)]
  exact List.mem_map_of_mem (List.mem_filter.1 (List.mem_of_getLast? he)).1

theorem Reachable.model_mem_of_nodeOfClass? (h : reg.Reachable) (hc : reg.nodeOfClass? c = some r) :
    r.model ∈ reg.models :=
  (h.bound_of_nodeOfClass? hc).1

/-- Among the models in use, nodes at the same place are the same. -/
theorem Reachable.beq_iff (h : reg.Reachable) (hr : r.model ∈ reg.models)
    (hs : s.model ∈ reg.models) : (r == s) = true ↔ r = s := by
  constructor
  · intro heq
    obtain ⟨-, -, hids, -⟩ := h.exists_ledger
    have hid : r.model.id = s.model.id := by
      simp only [BEq.beq, Bool.and_eq_true, decide_eq_true_eq] at heq
      exact heq.1
    exact (Ref.beq_ref_iff (List.eq_of_nodup_map hids hr hs hid)).1 heq
  · rintro rfl
    exact (Ref.beq_ref_iff rfl).2 rfl

/-! ### Where look-ups lead -/

/-- A module that a search for top-level nodes may come to. -/
def Consulted (reg : Registry) (module : Ref) : Prop :=
  (∃ name, reg.modules.select? name = some module) ∨
    ∃ ns, reg.namespaces.select? ns = some module

/-- Whatever a module that a search at the top may come to offers under the identifier of the node,
it is the node itself. -/
def Prevails (reg : Registry) (r : Ref) : Prop :=
  ∀ module, reg.Consulted module → ∀ e ∈ module.offers, e.node.id = r.id → e.node = r

/-- Top-level nodes with the same name and namespace are the same. -/
def Unambiguous (reg : Registry) : Prop :=
  ∀ a b, reg.Consulted a → reg.Consulted b → ∀ e ∈ a.offers, ∀ f ∈ b.offers,
    e.node.id = f.node.id → e.node = f.node

theorem Reachable.exists_ns (h : reg.Reachable) (hr : r.model ∈ reg.models) : ∃ n, r.ns = some n :=
  Ref.exists_ns (h.built hr)

/-- Only modules of models that are in use are searched. -/
theorem Reachable.model_mem_of_consulted (h : reg.Reachable) (hm : reg.Consulted module) :
    module.model ∈ reg.models := by
  obtain ⟨strict, commands, -, rfl⟩ := h
  obtain ⟨hfollows, -⟩ := follows_run strict commands
  have of_ledger (hr : module ∈ Ledger.modules (Ledger.ofCommands strict commands)) :
      module.model ∈ (run { strictBindings := strict } commands).models := by
    rw [hfollows.models]
    obtain ⟨e, he, hr⟩ := List.mem_flatMap.1 hr
    exact List.mem_map.2 ⟨e, he, (Ref.model_of_mem_moduleRefs hr).symm⟩
  obtain ⟨name, hselect⟩ | ⟨ns, hselect⟩ := hm
  · obtain ⟨_, hr, ⟨⟩⟩ := List.mem_map.1 (hfollows.modules.mem_of_select? hselect)
    exact of_ledger hr
  · obtain ⟨r, hr, hns⟩ := List.mem_filterMap.1 (hfollows.namespaces.mem_of_select? hselect)
    obtain ⟨_, -, ⟨⟩⟩ := Option.map_eq_some_iff.1 hns
    exact of_ledger hr

/-- A search at the top finds what a module offers. -/
theorem consulted_of_topLevel? (hc : reg.topLevel? name ns = some e) :
    ∃ module, reg.Consulted module ∧ e ∈ module.offers ∧ e.node.id.fits name ns = true := by
  obtain ⟨module, hmodule, hf⟩ := module_of_topLevel? hc
  refine ⟨module, ?_, Ref.mem_offers_of_findDataChild? hf⟩
  obtain ⟨n, -, hmodule⟩ | hmodule := hmodule
  · exact .inr ⟨n, hmodule⟩
  · exact .inl (Index.mem_selected_iff.1 hmodule)

/-- What a look-up finds has the name that was asked for, and the namespace if one was given. -/
theorem fits_of_childOf? (hc : reg.childOf? parent name ns = some e) :
    e.node.id.fits name ns = true := by
  obtain ⟨ns', hc, hns⟩ := exists_dataChild?_of_childOf? hc
  have hfits : e.node.id.fits name ns' = true := by
    cases parent with
    | none =>
      obtain ⟨_, -, -, hfits⟩ := consulted_of_topLevel? hc
      exact hfits
    | some r => exact (mem_below_of_dataChild?_some hc).2
  obtain ⟨hname, hsame⟩ := Schema.Id.fits_iff.1 hfits
  exact Schema.Id.fits_iff.2 ⟨hname, fun n hn => hsame n (hns n hn)⟩

/-- Look-ups below nodes of models that are in use lead to such nodes. -/
theorem Reachable.model_mem_of_childOf? (h : reg.Reachable)
    (hp : ∀ r, parent = some r → r.model ∈ reg.models)
    (hc : reg.childOf? parent name ns = some e) : e.node.model ∈ reg.models := by
  obtain ⟨ns', hc, -⟩ := exists_dataChild?_of_childOf? hc
  cases parent with
  | none =>
    obtain ⟨module, hmodule, he, -⟩ := consulted_of_topLevel? hc
    exact Ref.model_of_mem_offers he ▸ h.model_mem_of_consulted hmodule
  | some r =>
    have he := (mem_below_of_dataChild?_some hc).1
    rw [below] at he
    split at he
    · obtain ⟨p, hp, rfl⟩ := List.mem_map.1 he
      obtain ⟨_, _, -, -, hp⟩ := mem_payloads_iff.1 hp
      exact h.model_mem_of_nodeOfClass? hp
    · exact Ref.model_of_mem_offers he ▸ hp r rfl

/-- What a search at the top has found, another finds under its identifier. -/
theorem isSome_topLevel?_again {n : String} (hc : reg.topLevel? name ns = some e)
    (hn : e.node.ns = some n) : (reg.topLevel? e.node.name (some n)).isSome = true := by
  have hself : e.node.id.fits e.node.name (some n) = true := hn ▸ Schema.Id.fits_self e.node.id
  obtain ⟨module, hmodule, hf⟩ := module_of_topLevel? hc
  obtain ⟨he, hfits⟩ := Ref.mem_offers_of_findDataChild? hf
  obtain ⟨n', rfl, hmodule⟩ | hmodule := hmodule
  · -- The module of the namespace has been searched before all others, and is so again.
    obtain rfl : n = n' := Option.some.inj (hn.symm.trans ((Schema.Id.fits_iff.1 hfits).2 n' rfl))
    obtain ⟨f, hf⟩ := Option.isSome_iff_exists.1 (Ref.isSome_findDataChild? he hself)
    have hfirst : ((some n).bind fun n' => (reg.namespaces.select? n').bind fun module =>
        module.findDataChild? e.node.name (some n)) = some f := by
      rw [Option.bind_some, hmodule, Option.bind_some, hf]
    rw [topLevel?, hfirst]
    rfl
  · exact isSome_topLevel? hmodule he hself

/-- A search for a node that prevails finds that node, if it finds anything. -/
theorem Prevails.eq_of_topLevel? (h : reg.Reachable) (hp : reg.Prevails r)
    (hr : r.model ∈ reg.models) (hc : reg.topLevel? r.name r.ns = some e) : e.node = r := by
  obtain ⟨module, hmodule, hoffer, hfits⟩ := consulted_of_topLevel? hc
  obtain ⟨n, hn⟩ := h.exists_ns hr
  exact hp module hmodule e hoffer (Schema.Id.eq_of_fits hn hfits)

theorem childOf?_none (reg : Registry) (name : String) (ns : Option String) :
    reg.childOf? none name ns = reg.topLevel? name ns := by
  cases ns <;> rfl

/-- Where a search at the top ends at a node that prevails, the full identifier of the node leads to
it again. -/
theorem Reachable.topLevel?_again (h : reg.Reachable) (hp : reg.Prevails e.node)
    (hc : reg.topLevel? name ns = some e) :
    ∃ f, reg.topLevel? e.node.name e.node.ns = some f ∧ f.node = e.node := by
  have hm : e.node.model ∈ reg.models := by
    rw [← childOf?_none] at hc
    exact h.model_mem_of_childOf? (by simp) hc
  obtain ⟨n, hn⟩ := h.exists_ns hm
  obtain ⟨f, hf⟩ := Option.isSome_iff_exists.1 (isSome_topLevel?_again hc hn)
  rw [← hn] at hf
  exact ⟨f, hf, hp.eq_of_topLevel? h hm hf⟩

/-- If no two nodes at the top share an identifier, whatever a search finds there prevails. -/
theorem Unambiguous.prevails (hu : reg.Unambiguous) (hc : reg.topLevel? name ns = some e) :
    reg.Prevails e.node := by
  obtain ⟨a, ha, he, -⟩ := consulted_of_topLevel? hc
  exact fun b hb f hf hid => hu b a hb ha f hf e he hid

/-- Where a look-up ends, the full identifier of the node leads to it again. -/
theorem Reachable.childOf?_again (h : reg.Reachable) (hu : reg.Unambiguous)
    (hp : ∀ r, parent = some r → r.model ∈ reg.models)
    (hc : reg.childOf? parent name ns = some e) :
    ∃ f, reg.childOf? parent e.node.name e.node.ns = some f ∧ f.node = e.node := by
  cases parent with
  | none =>
    rw [childOf?_none] at hc ⊢
    exact h.topLevel?_again (hu.prevails hc) hc
  | some r =>
    obtain ⟨n, hn⟩ := h.exists_ns (h.model_mem_of_childOf? hp hc)
    exact ⟨e, childOf?_again_below hc hn, rfl⟩

end YangBinding.Registry
