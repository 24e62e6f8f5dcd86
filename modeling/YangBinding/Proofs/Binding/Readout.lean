import YangBinding.Proofs.Binding.Assembled
import YangBinding.Proofs.Binding.Forming

/-!
# The objects of assembled data

Data that has been assembled is read as objects that can be written again: each child is read as the
schema node that it stands for, and whatever is stored has the class that its place asks for. An entry
of a list could not have been left without the leaves of its keys, and these are not lost on the way,
since none of them is behind a case.

## Main definitions

* `Registry.Bound` — the schema is bound to classes that describe it
* `Registry.Reversible` — what reading and writing back asks of a registry

## Main results

* `Registry.Reversible.fit_of_readObject` — objects that are read from assembled data are fit
-/

namespace YangBinding

open Schema (DataChild Layer Model Ref)
open YangBinding.Tree (Frame Node keyLeaf?)

namespace Registry

/-- All that holds data is bound to a class that describes it, keys of list entries among it, while
operations have no class; and nothing that can be found at the top has the identifier of another. -/
structure Bound (reg : Registry) (m : Model) : Prop extends Classified reg m where
  rpc_class : ∀ r ∈ m.refs, r.kind = .rpc → r.className = none
  nodup_root : ((reg.below none).map fun e => e.node.id).Nodup
  entry_key : ∀ r ∈ m.refs, r.kind = .list → ∀ type, (reg.classOf? r).bind Class.key = some type →
    type.Regular ∧ ∀ name ∈ r.keys, ∃ leaf ∈ type.leaves, leaf.name = name

/-- What reading data, and writing it back, asks of a registry with one model beyond that: payloads
are no layers, modules with a class tell what they declare apart by name, and no leaf behind a case of
a list can be taken for a key of the list. -/
structure Reversible (reg : Registry) (m : Model) : Prop extends Bound reg m where
  payload_shown : ∀ r ∈ m.refs, r.kind = .anydata → ∀ p ∈ reg.payloads r, p.isLayer = false
  nodup_module : ∀ r ∈ m.refs, r.kind = .module → ∀ c, r.className = some c →
    (r.declared.map Ref.name).Nodup
  key_leaf : ∀ r ∈ m.refs, r.kind = .list → ∀ e ∈ r.offers, e.node.kind = .leaf →
    e.node.name ∈ r.keys → ∀ l ∈ e.layers, ∃ a, l = .augment a

variable {reg : Registry} {m : Model} {o o' x : Object} {r s : Ref} {parent : Option Ref} {n : Node}
  {nodes : List Node} {e : DataChild} {pending : List Pending} {R : Option Ref → Ref → Prop}
  {type : Class}

/-! ### What data nodes stand for -/

theorem children_innerNode (r : Ref) (children : List Node) :
    (innerNode r children).children = children := by
  unfold innerNode
  split <;> rfl

/-- The data nodes of leaves are leaves, those of leaves that occur once have a shape of their own. -/
theorem shape_of_standsFor (hn : n.StandsFor R parent s) :
    n.isInner = !s.kind.isLeafLike ∧ (n.shape = .singleLeaf → s.kind = .leaf) := by
  obtain ⟨frame, rfl, hnode, -⟩ := hn
  unfold Frame.node at hnode
  split at hnode
  · next hk =>
    cases hnode
    simp [hk, Schema.Kind.isLeafLike, Node.isInner]
  · next hk =>
    cases hnode
    simp [hk, Schema.Kind.isLeafLike, Node.isInner, Node.shape]
  · next hk =>
    obtain ⟨leaves, -, hnode⟩ := Except.bind_eq_ok_iff.1 hnode
    cases hnode
    simp [hk, Schema.Kind.isLeafLike, Node.isInner, Node.shape]
  · next hleaf hlist _ =>
    cases hnode
    have hinner : frame.schema.kind.isLeafLike = false := by
      simpa [Schema.Kind.isLeafLike] using And.intro hleaf hlist
    simp [hinner, Node.isInner, Node.shape]

/-- A data node is read as the schema node that it stands for. -/
theorem node_of_resolveNode (hn : n.StandsFor reg.Offers parent s)
    (he : reg.resolveNode parent n = .ok e) : e.node = s := by
  have hid := hn.key_id_eq
  obtain ⟨frame, rfl, -, ⟨-, e', he', hs⟩, -⟩ := hn
  have hfound := found_eq_ok_iff.1 he
  rw [Tree.NodeKey.name, Tree.NodeKey.ns, hid] at hfound
  obtain rfl : e' = e := Option.some.inj (he'.symm.trans hfound)
  exact hs

theorem sizeOf_lt_of_mem_children {c : Node} (hc : c ∈ n.children) : sizeOf c < sizeOf n := by
  cases n with
  | leaf key shape value => cases hc
  | inner key shape children =>
    have := List.sizeOf_lt_of_mem (show c ∈ children from hc)
    simp only [Node.inner.sizeOf_spec]
    omega

/-- A child that waits to be stored, as it is made of a data node below a schema node. -/
def awaiting (reg : Registry) (r : Ref) (n : Node) : Result Pending := do
  let child ← reg.resolveNode (some r) n
  pure { layers := child.layers, schema := child.node, data := n,
         object := reg.readObject n child.node }

theorem readChildren_eq_mapM : reg.readChildren r nodes = nodes.mapM (reg.awaiting r) := by
  induction nodes with
  | nil =>
    rw [readChildren]
    rfl
  | cons n nodes ih =>
    rw [readChildren, List.mapM_cons, ih, awaiting]
    simp only [bind_assoc, pure_bind]

theorem awaiting_eq_ok_iff {c : Pending} : reg.awaiting r n = .ok c ↔
    ∃ e, reg.resolveNode (some r) n = .ok e ∧
      c = { layers := e.layers, schema := e.node, data := n, object := reg.readObject n e.node } := by
  rw [awaiting, Except.bind_eq_ok_iff]
  refine exists_congr fun e => and_congr_right fun _ => ?_
  constructor
  · rintro ⟨⟩
    rfl
  · rintro rfl
    rfl

/-! ### Payloads -/

/-- The class of an object tells for which payload of an anydata node it stands. -/
theorem Sole.payloadOf?_of_mem_payloads (h : reg.Sole m) (hs : s ∈ reg.payloads r)
    (hc : reg.classOf? s = some x.type) : reg.payloadOf? r x = some s := by
  obtain ⟨holder, payload, hholder, hmem, hnode⟩ := mem_payloads_iff.1 hs
  obtain ⟨hm, hname⟩ := h.nodeOfClass?_eq_some_iff.1 hnode
  obtain ⟨hname', -⟩ := h.nodeOfClass?_of_classOf? hm hc
  obtain rfl : payload = x.className := Option.some.inj (hname.symm.trans hname')
  rw [payloadOf?, hholder, Option.bind_some, payload?, if_pos (by simpa using hmem), hnode]

/-- An anydata node with one more payload that is fit is in the making. -/
theorem Forming.addAnydata (ho : reg.Forming o r) (hs : reg.payloadOf? r x = some s)
    (hx : reg.Fit x s) : reg.Forming (o.addAnydata x) r := by
  refine ⟨by simpa using ho.type, ho.proper.addAnydata, by simpa using ho.members,
    by simpa using ho.cases, by simpa using ho.augmentations, fun hk y hy => ?_⟩
  rw [Object.anydata_addAnydata] at hy
  rcases List.mem_append.1 hy with hy | hy
  · exact ho.payloads hk y hy
  · obtain rfl := List.mem_singleton.1 hy
    exact ⟨s, hs, hx⟩

/-- Reading payloads leaves an anydata node in the making. -/
theorem Sole.forming_readPayloads (h : reg.Sole m) (hk : r.kind = .anydata)
    (hnodes : ∀ n ∈ nodes, ∀ e x, reg.resolveNode (some r) n = .ok e →
      reg.readObject n e.node = .ok x → reg.Fit x e.node)
    (ho : reg.Forming o r) (hp : reg.readPayloads r nodes o = .ok o') : reg.Forming o' r := by
  induction nodes generalizing o with
  | nil =>
    rw [readPayloads] at hp
    cases hp
    exact ho
  | cons n nodes ih =>
    rw [readPayloads] at hp
    obtain ⟨e, he, hp⟩ := Except.bind_eq_ok_iff.1 hp
    obtain ⟨x, hx, hrest⟩ := Except.bind_eq_ok_iff.1 hp
    have hbelow := (h.mem_below_of_childOf? (found_eq_ok_iff.1 he)).1
    rw [below, if_pos hk] at hbelow
    obtain ⟨s, hs, rfl⟩ := List.mem_map.1 hbelow
    have hfit := hnodes n List.mem_cons_self _ x he hx
    exact ih (fun n hn => hnodes n (List.mem_cons_of_mem _ hn))
      (ho.addAnydata (h.payloadOf?_of_mem_payloads hs hfit.here.1) hfit) hrest

/-! ### Objects -/

theorem HoldsObjects.of_kind (hl : s.isLayer = false) (hm : s.kind ≠ .module) (hr : s.kind ≠ .rpc)
    (hk : s.kind.isLeafLike = false) : HoldsObjects s := by
  cases hkind : s.kind <;>
    simp_all [HoldsObjects, Ref.isLayer_eq_false_iff, Schema.Kind.isLeafLike]

/-- Whatever is read as an object holds objects: operations have no class. -/
theorem Reversible.holdsObjects_of_mem_below (h : reg.Reversible m)
    (hp : ∀ b, parent = some b → b.model = m) (he : e ∈ reg.below parent)
    (hk : e.node.kind.isLeafLike = false) (hc : reg.classOf? e.node = some o.type) :
    HoldsObjects e.node := by
  have hmodel := h.sole.model_of_mem_below hp he
  have hrpc : e.node.kind ≠ .rpc := by
    intro hrpc
    have hnone := h.rpc_class e.node (Ref.mem_refs_iff.2 hmodel) hrpc
    obtain ⟨name, hname, -⟩ := Option.bind_eq_some_iff.1 hc
    simp [hnone] at hname
  have of_offers {r : Ref} (hr : r.model = m) (he : e ∈ r.offers) : HoldsObjects e.node :=
    .of_kind (Ref.isLayer_of_mem_offers he)
      (Ref.kind_of_mem_offers (hr.symm ▸ h.sole.linked) he) hrpc hk
  cases parent with
  | none =>
    obtain ⟨module, hmodule, he⟩ := h.sole.mem_below_root_iff.1 he
    exact of_offers (Ref.model_of_mem_moduleRefs hmodule) he
  | some b =>
    by_cases hany : b.kind = .anydata
    · rw [below, if_pos hany] at he
      obtain ⟨s, hs, rfl⟩ := List.mem_map.1 he
      exact h.holdsObjects_of_mem_payloads (hp b rfl) hany hs
    · rw [below, if_neg hany] at he
      exact of_offers (hp b rfl) he

/-- Data nodes that are read below a schema node are awaited there. -/
theorem Sole.awaits_of_mapM (h : reg.Sole m) (hany : r.kind ≠ .anydata)
    (hfit : ∀ c ∈ nodes, ∀ e x, reg.resolveNode (some r) c = .ok e →
      reg.readObject c e.node = .ok x → reg.Fit x e.node)
    (hpending : nodes.mapM (reg.awaiting r) = .ok pending) : reg.Awaits pending r := by
  refine ⟨fun p hp => ?_, fun p hp x hx => ?_⟩ <;>
    obtain ⟨c, hc, hp⟩ := List.exists_of_mapM_eq_ok hpending hp <;>
    obtain ⟨e, he, rfl⟩ := awaiting_eq_ok_iff.1 hp
  · have hbelow := (h.mem_below_of_childOf? (found_eq_ok_iff.1 he)).1
    rwa [below, if_neg hany] at hbelow
  · exact hfit c hc e x he hx

/-- The leaf of a key of a list is among the data of an entry, where no case hides it. -/
theorem Reversible.key_shown (h : reg.Reversible m) (hr : r.model = m) (hh : HoldsObjects r)
    (hk : r.kind = .list) (hstands : ∀ c ∈ nodes, c.Stands reg.Offers (some r))
    (hpending : nodes.mapM (reg.awaiting r) = .ok pending) (hawaits : reg.Awaits pending r)
    (htype : reg.classOf? r = some type) (hf : reg.fill pending type.new = .ok o) {key : String}
    (hkey : key ∈ r.keys) (hleaf : (keyLeaf? nodes key).isSome = true) :
    ∃ p ∈ reg.content o r, p.place.node.kind = .leaf ∧ p.place.node.name = key := by
  rw [keyLeaf?, Option.isSome_bind, Option.any_eq_true] at hleaf
  obtain ⟨c, hfind, -⟩ := hleaf
  have hc := List.mem_of_find?_eq_some hfind
  have htest := List.find?_some hfind
  simp only [Bool.and_eq_true, beq_iff_eq] at htest
  obtain ⟨s, hs⟩ := Tree.Node.stands_iff.1 (hstands c hc)
  have hsk := (shape_of_standsFor hs).2 htest.1
  have hname : s.name = key := by
    rw [← htest.2, Tree.NodeKey.name, hs.key_id_eq]
    rfl
  obtain ⟨p, hp, hpc⟩ := List.exists_mem_of_mapM_eq_ok hpending hc
  obtain ⟨e, he, rfl⟩ := awaiting_eq_ok_iff.1 hpc
  obtain rfl := node_of_resolveNode hs he
  have hoffer := hawaits.offered _ hp
  obtain ⟨q, hq, hqs⟩ := h.shown_of_fill hr hh hawaits (forming_new htype) hf hp
    (by simp [hsk, Schema.Kind.isLeafLike])
    (h.key_leaf _ (Ref.mem_refs_iff.2 hr) hk _ hoffer hsk (hname.symm ▸ hkey))
  exact ⟨q, hq, hqs.symm ▸ hsk, hqs.symm ▸ hname⟩

/-- An object that is read from data that has been assembled is fit. -/
theorem Reversible.fit_of_readObject (h : reg.Reversible m) (hr : r.model = m) (hh : HoldsObjects r)
    (hn : n.StandsFor reg.Offers parent r) (ho : reg.readObject n r = .ok o) : reg.Fit o r := by
  -- By induction on the data node.
  induction hsize : sizeOf n using Nat.strongRecOn generalizing n r parent o with
  | ind size ih =>
    obtain ⟨frame, hschema, hnode, -, hchildren⟩ := hn
    subst hschema
    obtain ⟨hkeys, rfl⟩ := (frame_node_eq_ok_iff hh.isLeafLike_eq).1 hnode
    have hparent : ∀ b, some frame.schema = some b → b.model = m := by
      rintro _ ⟨⟩
      exact hr
    have hfit : ∀ c ∈ frame.children, ∀ e x, reg.resolveNode (some frame.schema) c = .ok e →
        reg.readObject c e.node = .ok x → reg.Fit x e.node := by
      intro c hc e x he hx
      have hbelow := (h.sole.mem_below_of_childOf? (found_eq_ok_iff.1 he)).1
      obtain ⟨s, hs⟩ := Tree.Node.stands_iff.1 (hchildren c hc)
      obtain rfl := node_of_resolveNode hs he
      have hlt : sizeOf c < size := by
        rw [← hsize]
        exact sizeOf_lt_of_mem_children ((children_innerNode frame.schema frame.children).symm ▸ hc)
      obtain ⟨_, -, hinner, -⟩ := readObject_eq_ok hx
      have hk : e.node.kind.isLeafLike = false := by simpa [(shape_of_standsFor hs).1] using hinner
      exact ih _ hlt (h.sole.model_of_mem_below hparent hbelow)
        (h.holdsObjects_of_mem_below hparent hbelow hk (type_of_readObject hx)) hs hx rfl
    obtain ⟨type, htype, -, hread⟩ := readObject_eq_ok ho
    rw [children_innerNode] at hread
    rcases hread with ⟨hany, hp⟩ | ⟨hany, pending, hpending, hf⟩
    · exact (h.sole.forming_readPayloads hany hfit (forming_new htype) hp).fit (by simp [hany])
    · rw [readChildren_eq_mapM] at hpending
      have hawaits := h.sole.awaits_of_mapM hany hfit hpending
      refine (h.forming_fill hr hh hawaits (forming_new htype) hf).fit fun hk key hkey => ?_
      exact h.key_shown hr hh hk hchildren hpending hawaits htype hf hkey (hkeys hk key hkey)

end Registry

end YangBinding
