import YangBinding.Proofs.Registry.Ledger
import YangBinding.Proofs.Schema.Offers
import YangBinding.Registry.Lookup

/-!
# A registry with one model

Most properties of data are about a registry that holds exactly one model. However the registry came
to hold it, a class then leads to the one node that is bound to it, and a name with its namespace to
the one data child that has both.

## Main definitions

* `Registry.Reachable` — what commands with built models make of a new registry
* `Registry.Sole` — a reachable registry with a single model, whose modules differ in name and
  namespace
* `Registry.below` — the data children of a node or of the root

## Main results

* `Registry.Sole.nodeOfClass?_eq_some_iff` — classes and the nodes bound to them
* `Registry.Sole.childOf?_of_mem_below`, `Registry.Sole.mem_below_of_childOf?` — a look-up by name
  finds what is below a node, and nothing else
* `Registry.Sole.childOf?_again` — what has been found is found by its identifier
-/

namespace YangBinding.Registry

open Schema (DataChild Kind Model Ref)

/-- A command that registers no other than built models. -/
def Command.Proper : Command → Prop
  | .register m _ => m.Built
  | _ => True

/-- A registry that commands have made of a new one. -/
def Reachable (reg : Registry) : Prop :=
  ∃ strict commands, (∀ command ∈ commands, Command.Proper command) ∧
    reg = run { strictBindings := strict } commands

/-- A registry that holds exactly one model, whose modules have distinct names and distinct
namespaces. -/
structure Sole (reg : Registry) (m : Model) : Prop where
  reachable : reg.Reachable
  models : reg.models = [m]
  nodup_names : (m.moduleRefs.map Ref.name).Nodup
  nodup_namespaces : (m.moduleRefs.map Ref.ns).Nodup

/-- The nodes whose objects may be put into an anydata node. -/
def payloads (reg : Registry) (holder : Ref) : List Ref :=
  (holder.className.map fun c => (reg.anydata[c]?.getD []).filterMap reg.nodeOfClass?).getD []

/-- The data children of a node, or of the root: at the root what modules offer, below anydata the
payloads, everywhere else what the node offers. -/
def below (reg : Registry) : Option Ref → List DataChild
  | none => reg.models.flatMap fun m => m.moduleRefs.flatMap Ref.offers
  | some r => if r.kind = .anydata then (reg.payloads r).map (fun p => { node := p }) else r.offers

variable {reg : Registry} {m : Model} {r p : Ref} {c : String} {e : DataChild}
  {parent : Option Ref} {name : String} {ns : Option String}

/-! ### Classes -/

/-- Two nodes of a model that is in use are the same if they are bound to the same class. -/
theorem Reachable.eq_of_className (h : reg.Reachable) (hr : r.model ∈ reg.models)
    (hp : p.model = r.model) (hrc : r.className = some c) (hpc : p.className = some c) : r = p := by
  obtain ⟨strict, commands, -, rfl⟩ := h
  obtain ⟨hfollows, -⟩ := follows_run strict commands
  rw [hfollows.models] at hr
  obtain ⟨e, he, hm⟩ := List.mem_map.1 hr
  have hn : (e.model.refs.filterMap Ref.className).Nodup := by
    by_contra hn
    exact (sound_ofCommands strict commands).2 e he (.inr (.inl hn))
  exact List.eq_of_nodup_filterMap hn (Ref.mem_refs_iff.2 hm.symm)
    (Ref.mem_refs_iff.2 (hp.trans hm.symm)) hrc hpc

/-- What is known of a class goes by its name. -/
theorem Reachable.className_of_class? (h : reg.Reachable) {type : Class}
    (hc : reg.class? c = some type) : type.className = c := by
  obtain ⟨strict, commands, -, rfl⟩ := h
  obtain ⟨hfollows, -⟩ := follows_run strict commands
  rw [hfollows.class?_eq (sound_ofCommands strict commands), Ledger.class?] at hc
  obtain ⟨e, -, hc⟩ := Option.bind_eq_some_iff.1 hc
  simpa using (List.mem_filter.1 (List.mem_of_getLast? hc)).2

theorem Reachable.className_of_classOf? (h : reg.Reachable) {type : Class}
    (hc : reg.classOf? r = some type) : r.className = some type.className := by
  obtain ⟨name, hname, hc⟩ := Option.bind_eq_some_iff.1 hc
  rw [hname, h.className_of_class? hc]

/-! ### The model -/

/-- What stands in a ledger has been registered. -/
theorem mem_commands_of_mem_ledger {strict : Bool} {commands : List Command} {e : Registration}
    (h : e ∈ Ledger.ofCommands strict commands) : .register e.model e.bindings ∈ commands := by
  have foldl_mem : ∀ ledger : Ledger, e ∈ commands.foldl (Ledger.after strict) ledger →
      e ∈ ledger ∨ .register e.model e.bindings ∈ commands := by
    clear h
    induction commands with
    | nil => exact fun _ => .inl
    | cons command commands ih =>
      intro ledger h
      rcases ih _ h with h | h
      · cases command with
        | register m bindings =>
          rw [Ledger.after] at h
          split at h
          · exact .inl h
          · rcases List.mem_append.1 h with h | h
            · exact .inl h
            · obtain rfl := List.mem_singleton.1 h
              exact .inr List.mem_cons_self
        | unregister id => exact .inl (List.mem_filter.1 h).1
        | registerAnydata holder payload => exact .inl h
        | unregisterAnydata holder payload => exact .inl h
      · exact .inr (List.mem_cons_of_mem _ h)
  rcases foldl_mem [] h with h | h
  · cases h
  · exact h

/-- The ledger of a registry with one model has one registration. -/
theorem Sole.exists_ledger (h : reg.Sole m) :
    ∃ bindings, reg.Follows [⟨m, bindings⟩] ∧ reg.Mirrors [⟨m, bindings⟩] ∧
      (m.refs.filterMap Ref.className).Nodup ∧ m.Built := by
  obtain ⟨strict, commands, hproper, hreg⟩ := h.reachable
  obtain ⟨hfollows, hstrict⟩ := follows_run strict commands
  have hsound := sound_ofCommands strict commands
  rw [← hreg] at hfollows hstrict
  obtain ⟨e, he⟩ : ∃ e, Ledger.ofCommands strict commands = [e] := by
    have := congrArg List.length (hfollows.models.symm.trans h.models)
    exact List.length_eq_one_iff.1 (by simpa using this)
  have hbuilt := hproper _ (mem_commands_of_mem_ledger (e := e) (by rw [he]; simp))
  obtain rfl : e.model = m := by
    have := hfollows.models.symm.trans h.models
    rw [he] at this
    simpa using this
  rw [he] at hfollows hsound
  refine ⟨e.bindings, hfollows, hfollows.mirrors (by rw [hstrict]; exact hsound), ?_, hbuilt⟩
  by_contra hn
  exact hsound.2 e (by simp) (.inr (.inl hn))

theorem Sole.built (h : reg.Sole m) : m.Built := by
  obtain ⟨_, -, -, -, hb⟩ := h.exists_ledger
  exact hb

theorem Sole.linked (h : reg.Sole m) : m.Linked := h.built.linked

/-- Two nodes that are bound to the same class are the same. -/
theorem Sole.eq_of_className (h : reg.Sole m) (hr : r.model = m) (hp : p.model = m)
    (hrc : r.className = some c) (hpc : p.className = some c) : r = p :=
  h.reachable.eq_of_className (by simp [hr, h.models]) (hp.trans hr.symm) hrc hpc

/-- A class leads to the node that is bound to it. -/
theorem Sole.nodeOfClass?_eq_some_iff (h : reg.Sole m) :
    reg.nodeOfClass? c = some r ↔ r.model = m ∧ r.className = some c := by
  obtain ⟨bindings, -, hmirrors, -⟩ := h.exists_ledger
  rw [hmirrors.nodeOfClass?_eq, Ledger.nodeOfClass?, Ledger.binder?]
  by_cases hany : m.refs.any fun r => decide (r.className = some c)
  · rw [List.filter_cons_of_pos (by exact hany), List.filter_nil]
    simp only [List.getLast?_singleton, Option.bind_some]
    constructor
    · intro hr
      exact ⟨Ref.model_of_mem_refs (List.mem_of_find?_eq_some hr),
        by simpa using List.find?_some (p := fun r : Ref => decide (r.className = some c)) hr⟩
    · rintro ⟨hr, hc⟩
      refine List.find?_eq_some_of_unique (Ref.mem_refs_iff.2 hr) (by simpa using hc) ?_
      intro p hp hpc
      exact h.eq_of_className (Ref.model_of_mem_refs hp) hr (by simpa using hpc) hc
  · rw [List.filter_cons_of_neg (by exact hany), List.filter_nil]
    simp only [List.getLast?_nil, Option.bind_none, reduceCtorEq, false_iff]
    rintro ⟨hr, hc⟩
    exact hany (List.any_eq_true.2 ⟨r, Ref.mem_refs_iff.2 hr, by simpa using hc⟩)

/-! ### Modules -/

private theorem scan?_singleton (r : Ref) : Index.scan? [r] = some r := by
  unfold Index.scan? Index.latestOf?
  cases hr : r.revision with
  | none => simp [hr]
  | some d => simp [hr]

/-- A scan of modules with distinct names finds the one of a name. -/
private theorem scan?_filter_eq_some_iff {κ : Type} [DecidableEq κ] {key : Ref → κ} {k : κ}
    {modules : List Ref}
    (hn : (modules.map key).Nodup) :
    Index.scan? (modules.filter fun s => key s = k) = some r ↔ r ∈ modules ∧ key r = k := by
  constructor
  · intro h
    simpa using List.mem_filter.1 (Index.mem_of_scan? h)
  · rintro ⟨hr, rfl⟩
    rw [List.filter_key_eq_singleton hn hr, scan?_singleton]

theorem modules_singleton (m : Model) (bindings : List Class) :
    Ledger.modules [⟨m, bindings⟩] = m.moduleRefs := by
  simp [Ledger.modules]

/-- A namespace leads to its module. -/
theorem Sole.select?_namespace_eq_some_iff (h : reg.Sole m) {n : String} :
    reg.namespaces.select? n = some r ↔ r ∈ m.moduleRefs ∧ r.ns = some n := by
  obtain ⟨bindings, -, hmirrors, -⟩ := h.exists_ledger
  rw [hmirrors.select?_eq, Ledger.moduleOfNamespace?, modules_singleton,
    scan?_filter_eq_some_iff h.nodup_namespaces]

/-- All modules are searched for top-level nodes. -/
theorem Sole.mem_selected_iff (h : reg.Sole m) :
    r ∈ reg.modules.selected ↔ r ∈ m.moduleRefs := by
  obtain ⟨bindings, hfollows, -⟩ := h.exists_ledger
  have hselect (n : String) :
      reg.modules.select? n = some r ↔ r ∈ m.moduleRefs ∧ r.name = n := by
    rw [hfollows.modules.select?_eq, under_names, modules_singleton,
      scan?_filter_eq_some_iff h.nodup_names]
  rw [Index.mem_selected_iff]
  exact ⟨fun ⟨n, hn⟩ => ((hselect n).1 hn).1, fun hr => ⟨r.name, (hselect r.name).2 ⟨hr, rfl⟩⟩⟩

/-! ### Children by name -/

theorem Sole.mem_below_root_iff (h : reg.Sole m) :
    e ∈ reg.below none ↔ ∃ module ∈ m.moduleRefs, e ∈ module.offers := by
  simp [below, h.models]

theorem mem_payloads_iff :
    p ∈ reg.payloads r ↔ ∃ holder payload, r.className = some holder ∧
      payload ∈ reg.anydata[holder]?.getD [] ∧ reg.nodeOfClass? payload = some p := by
  unfold payloads
  cases r.className with
  | none => simp
  | some holder => simp

theorem payload?_eq_some_iff {holder : String} : reg.payload? holder c = some r ↔
    reg.hasPayload holder c = true ∧ reg.nodeOfClass? c = some r := by
  rw [payload?, ← hasPayload]
  split <;> simp_all

/-- What is below a node of the model is of the model. -/
theorem Sole.model_of_mem_below (h : reg.Sole m) (hp : ∀ r, parent = some r → r.model = m)
    (he : e ∈ reg.below parent) : e.node.model = m := by
  cases parent with
  | none =>
    obtain ⟨module, hmodule, he⟩ := h.mem_below_root_iff.1 he
    exact (Ref.model_of_mem_offers he).trans (Ref.model_of_mem_moduleRefs hmodule)
  | some r =>
    rw [below] at he
    split at he
    · obtain ⟨p, hp, rfl⟩ := List.mem_map.1 he
      obtain ⟨_, _, -, -, hp⟩ := mem_payloads_iff.1 hp
      exact (h.nodeOfClass?_eq_some_iff.1 hp).1
    · exact (Ref.model_of_mem_offers he).trans (hp r rfl)

theorem Sole.exists_ns (h : reg.Sole m) (hr : r.model = m) : ∃ n, r.ns = some n :=
  Ref.exists_ns (hr ▸ h.built)

/-- Below a node a look-up takes the first child that fits. -/
theorem dataChild?_eq_find? : reg.dataChild? (some r) name ns =
    (reg.below (some r)).find? fun e => e.node.id.fits name ns := by
  rw [dataChild?, below]
  by_cases hk : r.kind = .anydata
  · rw [if_pos hk, if_pos hk, List.find?_map, payloads]
    cases r.className with
    | none => rfl
    | some holder => rfl
  · rw [if_neg hk, if_neg hk, Ref.findDataChild?_eq]

/-- Below a node a look-up finds a child that fits. -/
theorem mem_below_of_dataChild?_some (hc : reg.dataChild? (some r) name ns = some e) :
    e ∈ reg.below (some r) ∧ e.node.id.fits name ns = true := by
  rw [dataChild?_eq_find?] at hc
  exact ⟨List.mem_of_find?_eq_some hc,
    List.find?_some (p := fun e : DataChild => e.node.id.fits name ns) hc⟩

/-- A search at the top finds what a module offers that fits, either the module of the namespace or
one that is selected by its name. -/
theorem module_of_topLevel? (hc : reg.topLevel? name ns = some e) :
    ∃ module, ((∃ n, ns = some n ∧ reg.namespaces.select? n = some module) ∨
      module ∈ reg.modules.selected) ∧ module.findDataChild? name ns = some e := by
  unfold topLevel? at hc
  cases hfirst : (ns.bind fun n => (reg.namespaces.select? n).bind fun module =>
      module.findDataChild? name ns) with
  | some f =>
    rw [hfirst] at hc
    cases hc
    obtain ⟨n, hn, hf⟩ := Option.bind_eq_some_iff.1 hfirst
    obtain ⟨module, hmodule, hf⟩ := Option.bind_eq_some_iff.1 hf
    exact ⟨module, .inl ⟨n, hn, hmodule⟩, hf⟩
  | none =>
    rw [hfirst] at hc
    obtain ⟨module, hmodule, hf⟩ := List.exists_of_findSome?_eq_some hc
    exact ⟨module, .inr hmodule, hf⟩

/-- If a module that is selected by its name offers something that fits, a search at the top finds
something. -/
theorem isSome_topLevel? {module : Ref} (hm : module ∈ reg.modules.selected) (he : e ∈ module.offers)
    (hf : e.node.id.fits name ns = true) : (reg.topLevel? name ns).isSome = true := by
  unfold topLevel?
  cases (ns.bind fun n => (reg.namespaces.select? n).bind fun module =>
      module.findDataChild? name ns) with
  | some f => rfl
  | none => exact List.findSome?_isSome_iff.2 ⟨module, hm, Ref.isSome_findDataChild? he hf⟩

/-- A look-up finds something that is below the node and fits. -/
theorem Sole.mem_below_of_dataChild? (h : reg.Sole m)
    (hc : reg.dataChild? parent name ns = some e) :
    e ∈ reg.below parent ∧ e.node.id.fits name ns = true := by
  cases parent with
  | none =>
    obtain ⟨module, hmodule, hf⟩ := module_of_topLevel? hc
    obtain ⟨he, hfits⟩ := Ref.mem_offers_of_findDataChild? hf
    refine ⟨h.mem_below_root_iff.2 ⟨module, ?_, he⟩, hfits⟩
    obtain ⟨n, -, hmodule⟩ | hmodule := hmodule
    · exact (h.select?_namespace_eq_some_iff.1 hmodule).1
    · exact h.mem_selected_iff.1 hmodule
  | some r => exact mem_below_of_dataChild?_some hc

/-- If something below the node fits, a look-up finds something. -/
theorem Sole.exists_dataChild? (h : reg.Sole m) (he : e ∈ reg.below parent)
    (hf : e.node.id.fits name ns = true) : ∃ f, reg.dataChild? parent name ns = some f := by
  rw [← Option.isSome_iff_exists]
  cases parent with
  | none =>
    obtain ⟨module, hmodule, he⟩ := h.mem_below_root_iff.1 he
    exact isSome_topLevel? (h.mem_selected_iff.2 hmodule) he hf
  | some r =>
    rw [dataChild?_eq_find?, List.find?_isSome]
    exact ⟨e, he, hf⟩

/-- A look-up finds what is below a node and fits, if nothing else there fits. -/
theorem Sole.dataChild?_of_unique (h : reg.Sole m) (he : e ∈ reg.below parent)
    (hf : e.node.id.fits name ns = true)
    (hu : ∀ f ∈ reg.below parent, f.node.id.fits name ns = true → f = e) :
    reg.dataChild? parent name ns = some e := by
  obtain ⟨f, hc⟩ := h.exists_dataChild? he hf
  obtain ⟨hfb, hff⟩ := h.mem_below_of_dataChild? hc
  rw [hc, hu f hfb hff]

/-- A look-up that inherits a namespace finds what one with some namespace finds, the given one if
there is one. -/
theorem exists_dataChild?_of_childOf? (hc : reg.childOf? parent name ns = some e) :
    ∃ ns', reg.dataChild? parent name ns' = some e ∧ ∀ n, ns = some n → ns' = some n := by
  unfold childOf? preferredChild? at hc
  split at hc
  · exact ⟨_, hc, fun _ => id⟩
  · next n _ =>
    cases hfirst : reg.dataChild? parent name (some n) with
    | some f =>
      rw [hfirst] at hc
      cases hc
      exact ⟨_, hfirst, by simp⟩
    | none =>
      rw [hfirst] at hc
      exact ⟨_, hc, by simp⟩
  · exact ⟨_, hc, by simp⟩

/-- A look-up that inherits a namespace finds something below the node that has the name. -/
theorem Sole.mem_below_of_childOf? (h : reg.Sole m) (hc : reg.childOf? parent name ns = some e) :
    e ∈ reg.below parent ∧ e.node.id.fits name ns = true := by
  obtain ⟨ns', hc, hns⟩ := exists_dataChild?_of_childOf? hc
  obtain ⟨hb, hf⟩ := h.mem_below_of_dataChild? hc
  obtain ⟨hname, hsame⟩ := Schema.Id.fits_iff.1 hf
  exact ⟨hb, Schema.Id.fits_iff.2 ⟨hname, fun n hn => hsame n (hns n hn)⟩⟩

/-- Where identifiers are distinct, a full identifier leads to the one child that has it. -/
theorem Sole.childOf?_of_mem_below (h : reg.Sole m) (hp : ∀ r, parent = some r → r.model = m)
    (hn : ((reg.below parent).map fun e => e.node.id).Nodup) (he : e ∈ reg.below parent) :
    reg.childOf? parent e.node.name e.node.ns = some e := by
  obtain ⟨n, hns⟩ := h.exists_ns (h.model_of_mem_below hp he)
  rw [childOf?, hns, preferredChild?]
  refine h.dataChild?_of_unique he (hns ▸ Schema.Id.fits_self e.node.id) ?_
  intro f hf hfits
  obtain ⟨hname, hsame⟩ := Schema.Id.fits_iff.1 hfits
  refine List.eq_of_nodup_map hn hf he ?_
  have hfns : f.node.id.ns = e.node.id.ns := (hsame n rfl).trans hns.symm
  cases hid : f.node.id
  cases hid' : e.node.id
  simp_all [Ref.name]

/-- Where a look-up below a node ends, its full identifier leads again: what comes first under a name
comes first under the identifier. -/
theorem childOf?_again_below {n : String} (hc : reg.childOf? (some r) name ns = some e)
    (hn : e.node.ns = some n) :
    reg.childOf? (some r) e.node.name e.node.ns = some e := by
  obtain ⟨ns', hfound, -⟩ := exists_dataChild?_of_childOf? hc
  rw [dataChild?_eq_find?] at hfound
  have hfits := Schema.Id.fits_iff.1
    (List.find?_some (p := fun e : DataChild => e.node.id.fits name ns') hfound)
  rw [childOf?, hn, preferredChild?, dataChild?_eq_find?]
  refine List.find?_eq_some_of_imp hfound (fun f _ hf => ?_) (hn ▸ Schema.Id.fits_self e.node.id)
  obtain ⟨hname, hsame⟩ := Schema.Id.fits_iff.1 hf
  refine Schema.Id.fits_iff.2 ⟨hname.trans hfits.1, fun n' hn' => ?_⟩
  exact (hsame n rfl).trans (hn.symm.trans (hfits.2 n' hn'))

/-- Where a look-up ends, its full identifier leads again. Among the modules, which are searched in
another order if a namespace is given, identifiers have to be distinct. -/
theorem Sole.childOf?_again (h : reg.Sole m) (hp : ∀ r, parent = some r → r.model = m)
    (hroot : ((reg.below none).map fun e => e.node.id).Nodup)
    (hc : reg.childOf? parent name ns = some e) :
    reg.childOf? parent e.node.name e.node.ns = some e := by
  have hb := (h.mem_below_of_childOf? hc).1
  cases parent with
  | none => exact h.childOf?_of_mem_below hp hroot hb
  | some r =>
    obtain ⟨n, hns⟩ := h.exists_ns (h.model_of_mem_below hp hb)
    exact childOf?_again_below hc hns

/-- Where names are distinct, a name leads to the one child that has it. -/
theorem Sole.childOf?_of_nodup_names (h : reg.Sole m)
    (hn : ((reg.below parent).map fun e => e.node.name).Nodup) (he : e ∈ reg.below parent) :
    reg.childOf? parent e.node.name none = some e := by
  have unique (f : DataChild) (hf : f ∈ reg.below parent) (ns : Option String)
      (hfits : f.node.id.fits e.node.name ns = true) : f = e :=
    List.eq_of_nodup_map hn hf he (Schema.Id.fits_iff.1 hfits).1
  have hnone : reg.dataChild? parent e.node.name none = some e :=
    h.dataChild?_of_unique he (Schema.Id.fits_iff.2 ⟨rfl, by simp⟩) fun f hf => unique f hf none
  rw [childOf?]
  cases parent.bind Ref.ns with
  | none => exact hnone
  | some n =>
    rw [preferredChild?]
    cases hfirst : reg.dataChild? parent e.node.name (some n) with
    | none => exact hnone
    | some f =>
      obtain ⟨hb, hf⟩ := h.mem_below_of_dataChild? hfirst
      rw [unique f hb _ hf]
      rfl

/-! ### A shop

A registry as it is met in practice, in which the assumptions above and those of the conversions can
be seen to hold. -/

namespace Shop

/-- A container of items that are known by name and may carry tags. -/
def model : Model where
  id := "shop"
  nodes := #[
    { id := ⟨"shop", some "urn:shop"⟩, kind := .module, children := [1], className := some "Shop" },
    { id := ⟨"store", some "urn:shop"⟩, kind := .container, parent := some 0, children := [2],
      className := some "Store" },
    { id := ⟨"item", some "urn:shop"⟩, kind := .list, parent := some 1, children := [3, 4],
      keys := ["name"], className := some "Item" },
    { id := ⟨"name", some "urn:shop"⟩, kind := .leaf, parent := some 2 },
    { id := ⟨"tag", some "urn:shop"⟩, kind := .leafList, parent := some 2 }]
  modules := [0]

theorem built : model.Built :=
  ⟨"shop",
    [.addModule "shop" "urn:shop" none, .setClass 0 "Shop", .addChild 0 .container "store",
      .setClass 1 "Store", .addChild 1 .list "item", .setClass 2 "Item", .addChild 2 .leaf "name",
      .setKeys 2 ["name"], .addChild 2 .leafList "tag"], by rfl⟩

def itemKey : KeyClass where
  className := "ItemKey"
  typeName := "ItemKey"
  leaves := [⟨"name", "ItemKey", .string⟩]
  label := "ItemKey"
  labels := [("name", "name")]

def storeClass : Class where
  className := "Store"
  typeName := "Store"
  fields := [⟨"item", "Store", .list "Item"⟩]

def itemClass : Class where
  className := "Item"
  typeName := "Item"
  fields := [⟨"name", "Item", .leaf .string⟩, ⟨"tag", "Item", .leafList .string⟩]
  key := some itemKey

/-- The registry in which the shop is the only model. -/
def registry : Registry := run {} [.register model [storeClass, itemClass]]

theorem kind_ne_augment : ∀ r ∈ model.refs, r.kind ≠ .augment := by decide

theorem kind_ne_anydata : ∀ r ∈ model.refs, r.kind ≠ .anydata := by decide

theorem casesForChoices : model.CasesForChoices := fun r hr hk => absurd hk (kind_ne_augment r hr)

theorem choiceAugmentsFinal : model.ChoiceAugmentsFinal :=
  fun r hr hk => absurd hk (kind_ne_augment r hr)

theorem sole : registry.Sole model where
  reachable := ⟨true, [.register model [storeClass, itemClass]],
    fun command h => by
      obtain rfl := List.mem_singleton.1 h
      exact built, rfl⟩
  models := rfl
  nodup_names := by decide
  nodup_namespaces := by decide

end Shop

/-! ### A fair

An augment adds a wheel to the rides to choose from, and another one adds a booth and a ticket to that
augment. Every augment declares what has its place at its target. The choice does not know of the
augments of its augments, however, so that no look-up finds the booth or the ticket. -/

namespace Fair

/-- A choice with an augment that is augmented in its turn. -/
def model : Model where
  id := "fair"
  nodes := #[
    { id := ⟨"fair", some "urn:fair"⟩, kind := .module, children := [1, 2, 4],
      className := some "Fair" },
    { id := ⟨"ride", some "urn:fair"⟩, kind := .choice, parent := some 0, augments := [2] },
    { id := ⟨"/ride", some "urn:fair"⟩, kind := .augment, parent := some 0, children := [3],
      augments := [4], target := some 1, className := some "Rides" },
    { id := ⟨"wheel", some "urn:fair"⟩, kind := .case, parent := some 2,
      className := some "Wheel" },
    { id := ⟨"/ride", some "urn:fair"⟩, kind := .augment, parent := some 0, children := [5, 6],
      target := some 2, className := some "Extras" },
    { id := ⟨"booth", some "urn:fair"⟩, kind := .container, parent := some 4,
      className := some "Booth" },
    { id := ⟨"ticket", some "urn:fair"⟩, kind := .leaf, parent := some 4 }]
  modules := [0]

theorem built : model.Built :=
  ⟨"fair",
    [.addModule "fair" "urn:fair" none, .setClass 0 "Fair", .addChild 0 .choice "ride",
      .addAugment 0 1, .setClass 2 "Rides", .addChild 2 .case "wheel", .setClass 3 "Wheel",
      .addAugment 0 2, .setClass 4 "Extras", .addChild 4 .container "booth", .setClass 5 "Booth",
      .addChild 4 .leaf "ticket"], by decide +kernel⟩

def wheelClass : Class where
  className := "Wheel"
  typeName := "Wheel"
  fields := []

def extrasClass : Class where
  className := "Extras"
  typeName := "Extras"
  fields := [⟨"booth", "Extras", .container "Booth"⟩, ⟨"ticket", "Extras", .leaf .string⟩]

def boothClass : Class where
  className := "Booth"
  typeName := "Booth"
  fields := []

/-- The registry in which the fair is the only model. -/
def registry : Registry := run {} [.register model [wheelClass, extrasClass, boothClass]]

theorem sole : registry.Sole model where
  reachable := ⟨true, [.register model [wheelClass, extrasClass, boothClass]],
    fun command h => by
      obtain rfl := List.mem_singleton.1 h
      exact built, rfl⟩
  models := rfl
  nodup_names := by decide
  nodup_namespaces := by decide

theorem kind_ne_anydata : ∀ r ∈ model.refs, r.kind ≠ .anydata := by decide

theorem casesForChoices : model.CasesForChoices := by
  have h : ∀ augment ∈ model.refs, ∀ t, augment.target? = some t →
      ∀ c ∈ augment.children, (c.kind = .case ↔ t.kind = .choice) := by decide
  exact fun augment ha _ => h augment ha

def extrasRef : Ref := ⟨model, 4, by decide⟩

def boothRef : Ref := ⟨model, 5, by decide⟩

def ticketRef : Ref := ⟨model, 6, by decide⟩

/-- Nothing at all is found at the root of the fair. -/
theorem below_root : registry.below none = [] := by decide +kernel

theorem childOf?_root : registry.childOf? none name ns = none := by
  refine Option.eq_none_iff_forall_not_mem.2 fun e he => ?_
  have hbelow := (sole.mem_below_of_childOf? he).1
  rw [below_root] at hbelow
  cases hbelow

end Fair

end YangBinding.Registry
