import YangBinding.Proofs.Binding.Persistence
import YangBinding.Proofs.Registry.Payloads

/-!
# Registrations that do not concern a conversion

A model that brings neither a module name nor a class that is known already leaves all conversions
of objects as they are, since these go by classes. Data is named, and a search at the top comes to
the modules of the new model too; but in a namespace that the model has no node in, it finds nothing
there. Whatever was converted before is therefore converted with the same result afterwards.

## Main definitions

* `Registry.Unrelated` — a model that shares neither module names nor classes with those in use
* `Schema.Model.Lacks` — a namespace that a model has no node in

## Main results

* `Registry.Follows.keeps_register` — what a registry still answers after such a registration
* `Registry.Reachable.unrelated_register` — conversions still have the results that they had
-/

namespace YangBinding

open Schema (DataChild Model Ref)
open YangBinding.Tree (ResourceData ResourceId)

/-- A namespace is given, and no node of the model has it; modules are nodes too. -/
def Schema.Model.Lacks (m : Model) (ns : Option String) : Prop :=
  ∃ n, ns = some n ∧ ∀ r ∈ m.refs, r.ns ≠ some n

namespace Registry

/-- A model shares neither module names nor classes with the models in use. -/
structure Unrelated (reg : Registry) (m : Model) : Prop where
  names : ∀ module ∈ m.moduleRefs, ∀ other ∈ reg.models, ∀ s ∈ other.moduleRefs,
    s.name ≠ module.name
  classes : ∀ r ∈ m.refs, ∀ c, r.className = some c → ¬ reg.Binds c

variable {reg reg' : Registry} {ledger : Ledger} {m : Model} {bindings : List Class} {c : String}
  {name : String} {ns : Option String} {r module : Ref} {e : DataChild}

/-! ### What a registration adds -/

theorem anydata_register (hr : reg.register m bindings = .ok reg') :
    reg'.anydata = reg.anydata := by
  obtain ⟨-, rfl⟩ := register_eq_ok_iff.1 hr
  rfl

/-- The binding of a class that the model does not bind is the one that it was. -/
theorem Follows.binding?_register (h : reg.Follows ledger)
    (hr : reg.register m bindings = .ok reg') (hc : ∀ r ∈ m.refs, r.className ≠ some c) :
    reg'.binding? c = reg.binding? c := by
  have hnone : under c (boundOf ⟨m, bindings⟩) = [] := by
    refine List.eq_nil_iff_forall_not_mem.2 fun b hb => ?_
    simp only [mem_under_iff, boundOf, boundNodes, List.mem_map, List.mem_filterMap,
      Option.map_eq_some_iff] at hb
    obtain ⟨_, ⟨r, hrefs, d, hd, rfl⟩, ⟨⟩⟩ := hb
    exact hc r hrefs hd
  rw [binding?, binding?, (h.register hr).classes.head?_eq, h.classes.head?_eq, List.flatMap_append,
    List.flatMap_singleton, under_append, hnone, List.append_nil]

/-- Modules that a test leaves out do not count. -/
theorem filter_modules_concat {p : Ref → Bool} (hp : ∀ r ∈ m.moduleRefs, p r = false) :
    (Ledger.modules (ledger ++ [⟨m, bindings⟩])).filter p = ledger.modules.filter p := by
  have hnone : m.moduleRefs.filter p = [] :=
    List.filter_eq_nil_iff.2 fun r hr => by simp [hp r hr]
  rw [Ledger.modules, List.flatMap_append, List.flatMap_singleton, List.filter_append, hnone,
    List.append_nil, Ledger.modules]

/-- The module of a name that no module of the model has is the one that it was. -/
theorem Follows.select?_modules_register (h : reg.Follows ledger)
    (hr : reg.register m bindings = .ok reg') (hname : ∀ r ∈ m.moduleRefs, r.name ≠ name) :
    reg'.modules.select? name = reg.modules.select? name := by
  rw [(h.register hr).modules.select?_eq, h.modules.select?_eq, under_names, under_names,
    filter_modules_concat fun r hr => by simpa using hname r hr]

/-- The module of a namespace that no module of the model has is the one that it was. -/
theorem Follows.select?_namespaces_register (h : reg.Follows ledger)
    (hr : reg.register m bindings = .ok reg') {n : String}
    (hns : ∀ r ∈ m.moduleRefs, r.ns ≠ some n) :
    reg'.namespaces.select? n = reg.namespaces.select? n := by
  rw [(h.register hr).namespaces.select?_eq, h.namespaces.select?_eq, under_namespaces,
    under_namespaces, filter_modules_concat fun r hr => by simpa using hns r hr]

/-- Modules of the ledger alone are selected by their names. -/
theorem Follows.mem_modules_of_select? (h : reg.Follows ledger)
    (hs : reg.modules.select? name = some module) :
    module ∈ ledger.modules ∧ module.name = name := by
  obtain ⟨r, hr, ⟨⟩⟩ := List.mem_map.1 (h.modules.mem_of_select? hs)
  exact ⟨hr, rfl⟩

/-! ### What is still answered -/

/-- A model has no node in a namespace that it lacks. -/
theorem findDataChild?_of_lacks (hm : module.model = m) (hns : m.Lacks ns) :
    module.findDataChild? name ns = none := by
  obtain ⟨n, rfl, hlacks⟩ := hns
  refine Option.eq_none_iff_forall_ne_some.2 fun e he => ?_
  obtain ⟨hoffer, hfits⟩ := Ref.mem_offers_of_findDataChild? he
  have hmem : e.node ∈ m.refs := Ref.mem_refs_iff.2 ((Ref.model_of_mem_offers hoffer).trans hm)
  exact hlacks e.node hmem ((Schema.Id.fits_iff.1 hfits).2 n rfl)

/-- At the top, nothing new is found in a namespace that the model lacks. -/
theorem Follows.topLevel?_register (h : reg.Follows ledger)
    (hr : reg.register m bindings = .ok reg') (hu : reg.Unrelated m) (hns : m.Lacks ns) :
    reg.topLevel? name ns = reg'.topLevel? name ns := by
  have hfollows := h.register hr
  have hrefs {r : Ref} (hr : r ∈ m.moduleRefs) : r.model = m := Ref.model_of_mem_moduleRefs hr
  have hselected : reg.modules.selected.findSome? (fun module => module.findDataChild? name ns) =
      reg'.modules.selected.findSome? fun module => module.findDataChild? name ns := by
    refine Index.findSome?_selected_congr fun other => ?_
    by_cases hother : ∀ r ∈ m.moduleRefs, r.name ≠ other
    · rw [h.select?_modules_register hr hother]
    · -- The name belongs to the new model, so it was not in use before.
      obtain ⟨r, hrm, rfl⟩ : ∃ r ∈ m.moduleRefs, r.name = other := by simpa using hother
      have hold : reg.modules.select? r.name = none := by
        refine Option.eq_none_iff_forall_ne_some.2 fun s hs => ?_
        obtain ⟨hs, hname⟩ := h.mem_modules_of_select? hs
        obtain ⟨e, he, hs⟩ := List.mem_flatMap.1 hs
        exact hu.names r hrm e.model (h.models ▸ List.mem_map_of_mem he) s hs hname
      rw [hold, Option.bind_none]
      refine (Option.bind_eq_none_iff.2 fun s hs => ?_).symm
      obtain ⟨hs, hname⟩ := hfollows.mem_modules_of_select? hs
      obtain ⟨e, he, hs⟩ := List.mem_flatMap.1 hs
      obtain he | he := List.mem_append.1 he
      · exact (hu.names r hrm e.model (h.models ▸ List.mem_map_of_mem he) s hs hname).elim
      · obtain rfl := List.mem_singleton.1 he
        exact findDataChild?_of_lacks (hrefs hs) hns
  obtain ⟨n, rfl, hlacks⟩ := hns
  rw [topLevel?, topLevel?, hselected, Option.bind_some, Option.bind_some,
    h.select?_namespaces_register hr fun r hr => hlacks r (Ref.mem_refs_iff.2 (hrefs hr))]

/-- After the registration of an unrelated model, what led to something leads there still. -/
theorem Follows.keeps_register (h : reg.Follows ledger) (ht : reg.Tidy)
    (hr : reg.register m bindings = .ok reg') (hu : reg.Unrelated m) :
    Keeps True m.Lacks reg reg' := by
  have hbound (c : String) (hc : reg.Binds c) : reg'.binding? c = reg.binding? c :=
    h.binding?_register hr fun r hr heq => hu.classes r hr c heq hc
  have hunbound (c : String) (hc : ¬ reg.Binds c) : reg.binding? c = none := by
    have := mt (h.isSome_nodeOfClass?_iff c).1 hc
    simpa [nodeOfClass?] using this
  have hanydata := anydata_register hr
  refine ⟨fun c => ?_, fun c => ?_, fun holder payload => ?_, fun holder name ns => ?_,
    fun name ns => h.topLevel?_register hr hu⟩
  · by_cases hc : reg.Binds c
    · exact .inl (by rw [nodeOfClass?, nodeOfClass?, hbound c hc])
    · exact .inr ⟨trivial, by rw [nodeOfClass?, hunbound c hc]; rfl⟩
  · by_cases hc : reg.Binds c
    · exact .inl (by rw [class?, class?, hbound c hc])
    · exact .inr ⟨trivial, by rw [class?, hunbound c hc]; rfl⟩
  · rw [hasPayload, hasPayload, hanydata]
  · -- Payloads are bound, so that each of them leads to the node that it led to.
    rw [payloadNamed?, payloadNamed?, hanydata]
    congr 1
    refine List.filterMap_congr fun payload hp => ?_
    rw [nodeOfClass?, nodeOfClass?, hbound payload (ht.binds hp).2]

/-- Whatever commands have made a registry, it follows a ledger, and its payloads are in order. -/
theorem Reachable.exists_follows (h : reg.Reachable) :
    ∃ ledger : Ledger, reg.Follows ledger ∧ reg.Tidy := by
  obtain ⟨strict, commands, -, rfl⟩ := h
  exact ⟨_, (follows_run strict commands).1, tidy_run strict commands⟩

/-- When a model is registered that has neither a module name nor a class of the models in use,
objects are still written as they were, and what data means is still what it meant, provided that it
names the nodes on the way to it, and those at its top, in namespaces that the model lacks. -/
theorem Reachable.unrelated_register (h : reg.Reachable) (hr : reg.register m bindings = .ok reg')
    (hu : reg.Unrelated m) :
    (∀ objects data, reg.write objects = .ok data → reg'.write objects = .ok data) ∧
      (∀ id : ResourceId, (∀ key ∈ id.segments, m.Lacks key.ns) →
        (∀ r, reg.resolve id = .ok r → reg'.resolve id = .ok r) ∧
          ∀ oid, reg.toObjectId id = .ok oid → reg'.toObjectId id = .ok oid) ∧
      ∀ data : ResourceData, (∀ key ∈ data.id.segments, m.Lacks key.ns) →
        (∀ node ∈ data.nodes, m.Lacks node.key.ns) →
          ∀ objects, reg.read data = .ok objects → reg'.read data = .ok objects := by
  obtain ⟨ledger, hfollows, htidy⟩ := h.exists_follows
  have hkeeps := hfollows.keeps_register htidy hr hu
  refine ⟨fun objects data hw => (hkeeps.write objects).ok hw, fun id hid =>
    ⟨fun r hres => hkeeps.resolve hid ▸ hres, fun oid hoid => (hkeeps.toObjectId hid).ok hoid⟩,
    fun data hid hnodes objects hread => (hkeeps.read hid hnodes).ok hread⟩

/-! ### A gate of a harbour and one of an airfield

Both models have a gate at the top. Data that gives no namespace means another gate once the
airfield is registered, whose name comes first. -/

namespace Harbour

def harbour : Model where
  id := "harbour"
  nodes := #[
    { id := ⟨"harbour", some "urn:harbour"⟩, kind := .module, children := [1] },
    { id := ⟨"gate", some "urn:harbour"⟩, kind := .container, parent := some 0,
      className := some "Lock" }]
  modules := [0]

def airfield : Model where
  id := "airfield"
  nodes := #[
    { id := ⟨"airfield", some "urn:airfield"⟩, kind := .module, children := [1] },
    { id := ⟨"gate", some "urn:airfield"⟩, kind := .container, parent := some 0,
      className := some "Gate" }]
  modules := [0]

theorem built : harbour.Built :=
  ⟨"harbour", [.addModule "harbour" "urn:harbour" none, .addChild 0 .container "gate",
    .setClass 1 "Lock"], by rfl⟩

def lock : Class where
  className := "Lock"
  typeName := "Lock"
  fields := []

def registry : Registry := run {} [.register harbour [lock]]

def extended : Registry := run {} [.register harbour [lock], .register airfield []]

theorem reachable : registry.Reachable :=
  ⟨true, [.register harbour [lock]], fun command h => by
    obtain rfl := List.mem_singleton.1 h
    exact built, rfl⟩

/-- The gate of the harbour, as data names it. -/
def data : ResourceData where
  id := .root
  nodes := [.inner { id := ⟨"gate", some "urn:harbour"⟩ } .singleNode []]

def objects : ObjectData where
  items := [.object lock.new]

/-- The gate holds nothing, so its data node is all that is written. -/
theorem write_objects : registry.write objects = .ok data := by
  have htop : registry.writeTop none lock.new {} = .ok { forest := data.nodes } := by
    refine writeTop_eq_ok_iff.2
      ⟨⟨harbour, 1, by decide⟩, rfl, by decide, .inl (by decide +kernel), ?_⟩
    refine writeObject_of_content (b := { stack := [{ schema := ⟨harbour, 1, by decide⟩ }] })
      (c := { stack := [{ schema := ⟨harbour, 1, by decide⟩ }] }) (by decide) rfl ?_ rfl
    rw [writeContent_eq]
    rfl
  exact write_eq_ok_iff.2 ⟨none, rfl, .inr ⟨by simp, { forest := data.nodes },
    Except.bind_eq_ok_iff.2 ⟨_, htop, rfl⟩, rfl⟩⟩

end Harbour

theorem unrelated_register_harbour :
    (∃ data, Harbour.registry.write Harbour.objects = .ok data ∧
      Harbour.extended.write Harbour.objects = .ok data) ∧
    ∃ objects, Harbour.registry.read Harbour.data = .ok objects ∧
      Harbour.extended.read Harbour.data = .ok objects := by
  have hr : Harbour.registry.register Harbour.airfield [] = .ok Harbour.extended := rfl
  have hu : Harbour.registry.Unrelated Harbour.airfield := by
    refine ⟨by decide, ?_⟩
    rintro r hr c hc ⟨other, hother, s, hs, hc'⟩
    obtain rfl : other = Harbour.harbour := List.mem_singleton.1 hother
    have hdistinct : ∀ r ∈ Harbour.airfield.refs, ∀ s ∈ Harbour.harbour.refs,
        r.className.isSome → r.className ≠ s.className := by decide
    exact hdistinct r hr s hs (by rw [hc]; rfl) (hc.trans hc'.symm)
  have hlacks : Harbour.airfield.Lacks (some "urn:harbour") := ⟨_, rfl, by decide⟩
  obtain ⟨hwrite, -, hread⟩ := Harbour.reachable.unrelated_register hr hu
  obtain ⟨objects, hobjects⟩ := Except.isSome_toOption_iff.1
    (show (Harbour.registry.read Harbour.data).toOption.isSome = true by decide +kernel)
  refine ⟨⟨_, Harbour.write_objects, hwrite _ _ Harbour.write_objects⟩, objects, hobjects,
    hread _ (by simp [Harbour.data, ResourceId.root]) (fun node hn => ?_) _ hobjects⟩
  obtain rfl := List.mem_singleton.1 hn
  exact hlacks

/-- Without a namespace another gate is meant afterwards. -/
example : ((Harbour.registry.topLevel? "gate" none).map fun e => e.node.model.id) = some "harbour" ∧
    ((Harbour.extended.topLevel? "gate" none).map fun e => e.node.model.id) = some "airfield" := by
  decide +kernel

end Registry

end YangBinding
