import YangBinding.Proofs.Binding.Rooting

/-!
# Objects at the top and revisions of their modules

An object is written by the node of its class, whichever revision of a module that node is from.
Data does not say of which revision it is: it is read by names and namespaces, among the modules that
are selected. So an object at the top comes back as one of the class of the node that is found under
the identifier of its own node. That is its own class if, where a search at the top may come to, its
node prevails: no other node is offered under its identifier.

## Main definitions

* `Registry.ComesBackAs` — an object has the class of what a search finds for the node of another

## Main results

* `Registry.Reachable.comesBackAs_of_readItem` — what the data node of an object at the top is read
  as
* `Registry.Reachable.read_write_root` — objects at the top, written and read back
-/

namespace YangBinding.Registry

open Calendar (Date)
open Schema (DataChild Model Ref)
open YangBinding.Tree (Assembly Node ResourceData ResourceId)

/-- The second item is an object of the class that is bound to the node which a search at the top
finds under the identifier of the node of the first. -/
def ComesBackAs (reg : Registry) (x y : Item) : Prop :=
  ∃ o o' r e, x = .object o ∧ y = .object o' ∧ reg.nodeOfClass? o.className = some r ∧
    reg.topLevel? r.name r.ns = some e ∧ e.node.className = some o'.className

variable {reg : Registry} {r : Ref} {e : DataChild} {name : String} {ns : Option String}

/-- What comes back for an object whose node prevails is of its class. -/
theorem ComesBackAs.sameClass {x y : Item} (h : reg.Reachable) (hxy : reg.ComesBackAs x y)
    (hp : ∀ o r, x = .object o → reg.nodeOfClass? o.className = some r → reg.Prevails r) :
    SameClass x y := by
  obtain ⟨o, o', r, e, rfl, rfl, hr, he, hclass⟩ := hxy
  obtain ⟨hmodel, hbound⟩ := h.bound_of_nodeOfClass? hr
  obtain rfl := (hp o r rfl hr).eq_of_topLevel? h hmodel he
  exact ⟨o, o', rfl, rfl, Option.some.inj (hclass.symm.trans hbound)⟩

/-- Only a data node with a value is read by a leaf. -/
theorem isLeafLike_of_readItem {base : Option Ref} {n : Node} {items items' : List Item}
    (hn : n.value? = none) (he : reg.childOf? base n.key.name n.key.ns = some e)
    (hr : reg.readItem base items n = .ok items') : e.node.kind.isLeafLike = false := by
  obtain ⟨f, hf, hr⟩ := Except.bind_eq_ok_iff.1 hr
  obtain rfl := Option.some.inj (he.symm.trans (found_eq_ok_iff.1 hf))
  by_contra hleaf
  rw [Bool.not_eq_false] at hleaf
  simp only [hleaf, if_true] at hr
  obtain ⟨_, hvalue, -⟩ := Except.bind_eq_ok_iff.1 hr
  rw [leafValue, hn] at hvalue
  cases hvalue

/-- The data node of an object is read at the root as what is found under its identifier. -/
theorem Reachable.comesBackAs_of_readItem (h : reg.Reachable) {o : Object} {n : Node}
    {items items' : List Item} (ho : reg.nodeOfClass? o.className = some r) (hid : n.key.id = r.id)
    (hn : n.value? = none) (hr : reg.readItem none items n = .ok items') :
    ∃ y, items' = items ++ [y] ∧ reg.ComesBackAs (.object o) y := by
  obtain ⟨e, he, -⟩ := Except.bind_eq_ok_iff.1 hr
  have he := found_eq_ok_iff.1 he
  obtain ⟨o', rfl, hclass⟩ := h.object_of_readItem he (isLeafLike_of_readItem hn he hr) hr
  have htop : reg.topLevel? r.name r.ns = some e := by
    rw [← childOf?_none, Ref.name, Ref.ns, ← hid]
    exact he
  exact ⟨.object o', rfl, o, o', r, e, rfl, rfl, ho, htop, hclass⟩

/-- The data of inner objects at the root, one data node without a value for each of them. -/
theorem Reachable.nodes_of_write_root (h : reg.Reachable) {d : ObjectData} {t : ResourceData}
    (hid : d.id = .root) (hinner : ∀ item ∈ d.items, reg.Inner item) (hw : reg.write d = .ok t) :
    t.id = .root ∧ List.Forall₂ (fun item n => ∃ o r, item = .object o ∧
      reg.nodeOfClass? o.className = some r ∧ n.key.id = r.id ∧ n.value? = none)
        d.items t.nodes := by
  obtain ⟨base, hrid, hw⟩ := write_eq_ok_iff.1 hw
  rw [hid] at hrid
  obtain ⟨hroot, rfl⟩ := Prod.mk.inj (Except.ok.inj hrid)
  refine ⟨hroot.symm, ?_⟩
  obtain ⟨⟨_, ⟨⟩, -⟩, -⟩ | ⟨-, a, ha, hfinish⟩ := hw
  have hstart : ({ base := none } : Assembly).current = none := rfl
  obtain ⟨nodes, rfl, hall⟩ := AddsOne.foldlM
    (fun item hitem => h.addsOne_item (hinner item hitem) (by simp)) hstart ha
  rw [Assembly.placeAll_forest rfl] at hfinish
  cases hfinish
  refine hall.imp ?_
  rintro item n ⟨o, r, ho, hr, hn, hvalue, -⟩
  exact ⟨o, r, ho, hr, hn, hvalue⟩

/-- Inner objects that were written at the root and read back have given one object each, in their
order, of the class that is bound to what is found under the identifier of their node. Where the
nodes of the objects prevail, that is their own class. -/
theorem Reachable.read_write_root (h : reg.Reachable) {d d' : ObjectData} {t : ResourceData}
    (hid : d.id = .root) (hinner : ∀ item ∈ d.items, reg.Inner item)
    (hw : reg.write d = .ok t) (hr : reg.read t = .ok d') :
    List.Forall₂ reg.ComesBackAs d.items d'.items ∧
      ((∀ o r, .object o ∈ d.items → reg.nodeOfClass? o.className = some r → reg.Prevails r) →
        List.Forall₂ SameClass d.items d'.items) := by
  obtain ⟨hroot, hnodes⟩ := h.nodes_of_write_root hid hinner hw
  have hread : rootId t = .root := by
    unfold rootId
    rw [hroot]
    rfl
  rw [read, hread] at hr
  obtain ⟨base, hbase, hr⟩ := Except.bind_eq_ok_iff.1 hr
  cases hbase
  obtain ⟨id, -, hr⟩ := Except.bind_eq_ok_iff.1 hr
  obtain ⟨items, hitems, hr⟩ := Except.bind_eq_ok_iff.1 hr
  cases hr
  -- Data nodes are read one by one, each giving one item.
  obtain ⟨later, rfl, hback⟩ := forall₂_of_foldlM_readItem
    (P := reg.ComesBackAs) (hnodes.imp fun item n hn items items' hread => by
      obtain ⟨o, r, rfl, ho, hkey, hvalue⟩ := hn
      exact h.comesBackAs_of_readItem ho hkey hvalue hread) hitems
  refine ⟨hback, fun hp => ?_⟩
  have hboth := (List.forall₂_and_left _ _).2 ⟨fun item hitem => hitem, hback⟩
  refine hboth.imp ?_
  rintro x y ⟨hx, hxy⟩
  refine hxy.sameClass h fun o r ho hor => hp o r ?_ hor
  rw [← ho]
  exact hx

/-! ### Two editions of a gazette

Either edition is a model of its own and has a notice at the top, each with its own class. A search
finds the notice of the later edition. -/

namespace Gazette

def edition (id className : String) (date : Date) : Model where
  id := id
  nodes := #[
    { id := ⟨"gazette", some "urn:gazette"⟩, kind := .module, revision := some date,
      children := [1] },
    { id := ⟨"notice", some "urn:gazette"⟩, kind := .container, parent := some 0,
      className := some className }]
  modules := [0]

def early : Model := edition "early" "EarlyNotice" ⟨2016, 1, 1, by decide⟩

def late : Model := edition "late" "LateNotice" ⟨2017, 1, 1, by decide⟩

theorem built_early : early.Built :=
  ⟨"early", [.addModule "gazette" "urn:gazette" (some ⟨2016, 1, 1, by decide⟩),
    .addChild 0 .container "notice", .setClass 1 "EarlyNotice"], by rfl⟩

theorem built_late : late.Built :=
  ⟨"late", [.addModule "gazette" "urn:gazette" (some ⟨2017, 1, 1, by decide⟩),
    .addChild 0 .container "notice", .setClass 1 "LateNotice"], by rfl⟩

def commands : List Command :=
  [.register early [Crate.bareClass "EarlyNotice"], .register late [Crate.bareClass "LateNotice"]]

def registry : Registry := run {} commands

theorem reachable : registry.Reachable :=
  ⟨true, commands, by simp [commands, Command.Proper, built_early, built_late], rfl⟩

/-- A notice of a class, at the root. -/
def notice (className : String) : ObjectData where
  items := [.object (Crate.bareClass className).new]

/-- A notice as data, whichever edition it is of. -/
def data : ResourceData where
  id := .root
  nodes := [.inner { id := ⟨"notice", some "urn:gazette"⟩ } .singleNode []]

theorem nodeOfClass?_early : registry.nodeOfClass? "EarlyNotice" = some ⟨early, 1, by decide⟩ := rfl

theorem nodeOfClass?_late : registry.nodeOfClass? "LateNotice" = some ⟨late, 1, by decide⟩ := rfl

theorem toResourceId_root : registry.toResourceId .root = .ok (.root, none) := rfl

theorem write_notice {c : String} (hr : registry.nodeOfClass? c = some r)
    (hid : r.id = ⟨"notice", some "urn:gazette"⟩) (hk : r.kind = .container) (hc : r.children = [])
    (ha : r.augments = []) (hp : samePlace r.dataParent? none = true) :
    registry.write (notice c) = .ok data := by
  have hbare : data = { id := .root, nodes := [bareNode r] } := by
    rw [bareNode, hid]
    rfl
  rw [hbare]
  exact write_bare toResourceId_root (by simp) hr hk hc ha (.inl hp)

theorem write_early : registry.write (notice "EarlyNotice") = .ok data :=
  write_notice nodeOfClass?_early rfl rfl rfl rfl (by decide +kernel)

theorem write_late : registry.write (notice "LateNotice") = .ok data :=
  write_notice nodeOfClass?_late rfl rfl rfl rfl (by decide +kernel)

theorem select?_namespace :
    registry.namespaces.select? "urn:gazette" = some ⟨late, 0, by decide⟩ := by
  rw [registry, (follows_run true commands).1.namespaces.select?_eq]
  rfl

theorem childOf?_notice : registry.childOf? none "notice" (some "urn:gazette") =
    some { node := ⟨late, 1, by decide⟩ } := by
  have hown : (⟨late, 0, by decide⟩ : Ref).ownDataChild? "notice" (some "urn:gazette") =
      some ⟨late, 1, by decide⟩ := rfl
  rw [childOf?_none, topLevel?, Option.bind_some, select?_namespace, Option.bind_some,
    Ref.findDataChild?_of_own hown]
  rfl

theorem read_data : registry.read data = .ok (notice "LateNotice") :=
  read_bare rfl rfl rfl rfl childOf?_notice rfl (by with_unfolding_all rfl)

theorem select?_name : registry.modules.select? "gazette" = some ⟨late, 0, by decide⟩ := by
  rw [registry, (follows_run true commands).1.modules.select?_eq]
  rfl

/-- A search comes to no other module than that of the later edition. -/
theorem eq_of_consulted {module : Ref} (h : registry.Consulted module) :
    module = ⟨late, 0, by decide⟩ := by
  have hfollows := (follows_run true commands).1
  have hmodules : Ledger.modules (Ledger.ofCommands true commands) =
      [⟨early, 0, by decide⟩, ⟨late, 0, by decide⟩] := rfl
  obtain ⟨name, hselect⟩ | ⟨ns, hselect⟩ := h
  · have hname : name = "gazette" := by
      have hlog := hfollows.modules.mem_of_select? hselect
      rw [hmodules] at hlog
      obtain ⟨r, hr, ⟨⟩⟩ := List.mem_map.1 hlog
      rcases List.mem_pair.1 hr with rfl | rfl <;> rfl
    rw [hname, select?_name] at hselect
    exact (Option.some.inj hselect).symm
  · have hns : ns = "urn:gazette" := by
      have hlog := hfollows.namespaces.mem_of_select? hselect
      rw [hmodules] at hlog
      obtain ⟨r, hr, hlog⟩ := List.mem_filterMap.1 hlog
      obtain ⟨n, hn, ⟨⟩⟩ := Option.map_eq_some_iff.1 hlog
      rcases List.mem_pair.1 hr with rfl | rfl <;> exact (Option.some.inj hn).symm
    rw [hns, select?_namespace] at hselect
    exact (Option.some.inj hselect).symm

theorem prevails_late : registry.Prevails ⟨late, 1, by decide⟩ := by
  intro module hmodule e he hid
  rw [eq_of_consulted hmodule] at he
  have hoffers : (⟨late, 0, by decide⟩ : Ref).offers = [{ node := ⟨late, 1, by decide⟩ }] := by
    with_unfolding_all rfl
  rw [hoffers] at he
  rw [List.mem_singleton.1 he]

theorem inner_notice {c : String} (hr : registry.nodeOfClass? c = some r)
    (hk : r.kind = .container) : ∀ item ∈ (notice c).items, registry.Inner item := by
  intro item hitem
  obtain rfl := List.mem_singleton.1 hitem
  exact ⟨_, r, rfl, hr, .inl hk⟩

end Gazette

theorem read_write_root_late : ∃ t d',
    Gazette.registry.write (Gazette.notice "LateNotice") = .ok t ∧
      Gazette.registry.read t = .ok d' ∧
        List.Forall₂ SameClass (Gazette.notice "LateNotice").items d'.items := by
  obtain ⟨-, hsame⟩ := Gazette.reachable.read_write_root rfl
    (Gazette.inner_notice Gazette.nodeOfClass?_late rfl) Gazette.write_late Gazette.read_data
  refine ⟨_, _, Gazette.write_late, Gazette.read_data, hsame fun o r ho hr => ?_⟩
  cases List.mem_singleton.1 ho
  cases hr.symm.trans Gazette.nodeOfClass?_late
  exact Gazette.prevails_late

/-- A notice of the early edition comes back as one of the late edition. -/
theorem read_write_early : Gazette.registry.Reachable ∧
    (∀ item ∈ (Gazette.notice "EarlyNotice").items, Gazette.registry.Inner item) ∧
    ∃ t d', Gazette.registry.write (Gazette.notice "EarlyNotice") = .ok t ∧
      Gazette.registry.read t = .ok d' ∧
        ¬ List.Forall₂ SameClass (Gazette.notice "EarlyNotice").items d'.items := by
  refine ⟨Gazette.reachable, Gazette.inner_notice Gazette.nodeOfClass?_early rfl, _, _,
    Gazette.write_early, Gazette.read_data, fun hall => ?_⟩
  obtain ⟨o, o', ho, ho', hclass⟩ := (List.forall₂_cons.1 hall).1
  cases ho
  cases ho'
  exact absurd hclass (by decide)

end YangBinding.Registry
