import Mathlib
import YangBinding.Proofs.Binding.Homing
import YangBinding.Proofs.Binding.LeafIds
import YangBinding.Proofs.Binding.Rooting

/-!
# Writing back what has been read

Data that has been assembled where it is rooted, and that can be read, can be written again at the
same place: whatever is read belongs to the base, and nothing that its schema node asks for is
missing.

## Main definitions

* `Registry.Returns` — an item can be put below a base, and nothing is missing in it

## Main results

* `Registry.Reversible.returns_of_readItem` — whatever is read below a base can be put back there
* `Registry.Reversible.write_read` — what has been assembled and read is written at the same place
-/

namespace YangBinding

open Schema (DataChild Model Ref)
open YangBinding.Tree (Assembly Node ResourceData ResourceId)

namespace Registry

/-- An item can be put below a base: it belongs there, and an object is of a class that fits its
schema node throughout. -/
def Returns (reg : Registry) (base : Option Ref) : Item → Prop
  | .object o => ∃ r, reg.nodeOfClass? o.className = some r ∧ HoldsObjects r ∧
      (samePlace r.dataParent? base = true ∨ ∃ b, base = some b ∧ b.kind = .anydata) ∧ reg.Fit o r
  | .leaf leaf values => ∃ s, reg.leafOf? leaf = some s ∧ s.kind.isLeafLike = true ∧
      samePlace s.dataParent? base = true ∧ (s.kind = .leaf → values.length = 1)

variable {reg : Registry} {m : Model} {s p : Ref} {base : Option Ref} {e : DataChild} {n : Node}
  {item : Item} {items items' : List Item} {li : LeafId} {v : LeafValue} {id : ResourceId}

theorem samePlace_self (base : Option Ref) : samePlace base base = true := by
  cases base with
  | none => rfl
  | some b => exact (Ref.beq_ref_iff rfl).2 rfl

/-- An item that can be put below a base is written there. -/
theorem Classified.writes_item (h : reg.Classified m) (hi : reg.Returns base item) :
    Writes (fun a => reg.writeItem base a item) True (reg.itemNodes item) := by
  cases item with
  | object o =>
    obtain ⟨r, hclass, hh, hplace, hfit⟩ := hi
    exact (h.writes_top hclass hh hfit.typed).congr
      (iff_of_true ⟨hplace, hfit.writable⟩ trivial) rfl
  | leaf li values =>
    obtain ⟨s, hs, -, hplace, hcount⟩ := hi
    exact writes_leafItem.congr (iff_of_true ⟨s, hs, hplace, hcount⟩ trivial) rfl

/-! ### The base -/

/-- A resource id leads to a node that shows up in data. -/
theorem Reversible.isAddressable_of_resolve (h : reg.Reversible m) (hb : reg.resolve id = .ok base) :
    ∀ b, base = some b → b.model = m ∧ isAddressable b.kind = true := by
  refine List.foldlM_keeps (P := fun base : Option Ref => ∀ b, base = some b →
    b.model = m ∧ isAddressable b.kind = true) ?_ (by rintro _ ⟨⟩) hb
  intro key _ parent base hparent hk
  obtain ⟨s, hs, rfl⟩ := Except.map_eq_ok_iff.1 hk
  obtain ⟨e, he, -, rfl⟩ := resolveKey_eq_ok_iff.1 hs
  have hmodel : ∀ b, parent = some b → b.model = m := fun b hb => (hparent b hb).1
  have hbelow := (h.sole.mem_below_of_childOf? he).1
  rintro _ ⟨⟩
  exact ⟨h.sole.model_of_mem_below hmodel hbelow, h.isAddressable_of_mem_below hmodel hbelow⟩

/-- What is below a base belongs there, or the base is an anydata node. -/
theorem Sole.samePlace_of_mem_below (h : reg.Sole m)
    (hbase : ∀ b, base = some b → b.model = m ∧ isAddressable b.kind = true)
    (he : e ∈ reg.below base) :
    samePlace e.node.dataParent? base = true ∨ ∃ b, base = some b ∧ b.kind = .anydata := by
  by_cases hany : ∃ b, base = some b ∧ b.kind = .anydata
  · exact .inr hany
  · have hparent : ∀ b, base = some b →
        b.model = m ∧ isAddressable b.kind = true ∧ b.kind ≠ .anydata :=
      fun b hb => ⟨(hbase b hb).1, (hbase b hb).2, fun hk => hany ⟨b, hb, hk⟩⟩
    rw [(h.dataParent?_of_mem_below hparent he).1]
    exact .inl (samePlace_self base)

/-! ### Leaves -/

/-- Values of a leaf-list are added to the item before; a leaf has an item of its own. -/
theorem mem_addLeafItem (hi : item ∈ addLeafItem s li v items) :
    item ∈ items ∨ ∃ values, item = .leaf li values ∧ (s.kind = .leaf → values.length = 1) := by
  have of_append (hi : item ∈ items ++ [.leaf li [v]]) :
      item ∈ items ∨ ∃ values, item = .leaf li values ∧ (s.kind = .leaf → values.length = 1) := by
    rcases List.mem_append.1 hi with hi | hi
    · exact .inl hi
    · exact .inr ⟨[v], List.mem_singleton.1 hi, fun _ => rfl⟩
  unfold addLeafItem at hi
  split at hi
  · split at hi
    · next hmerge =>
      rcases List.mem_append.1 hi with hi | hi
      · exact .inl (List.dropLast_subset _ hi)
      · obtain rfl := List.mem_singleton.1 hi
        exact .inr ⟨_, by rw [hmerge.2], by simp [hmerge.1]⟩
    · exact of_append hi
  · exact of_append hi

/-- A leaf that is read below a base is declared in a node that holds objects, or in a module. -/
theorem Reversible.exists_declarer (h : reg.Reversible m)
    (hbase : ∀ b, base = some b → b.model = m ∧ isAddressable b.kind = true)
    (hrpc : ∀ b, base = some b → b.kind ≠ .rpc) (he : e ∈ reg.below base)
    (hk : e.node.kind.isLeafLike = true) :
    ∃ p, e.node.parent? = some p ∧ (HoldsObjects p ∨ p.kind = .module) := by
  -- The leaf is offered by a module at the root, and by the base elsewhere.
  obtain ⟨r, hr, hoffer, hrk⟩ : ∃ r : Ref, r.model = m ∧ e ∈ r.offers ∧
      (HoldsObjects r ∨ r.kind = .module) := by
    cases base with
    | none =>
      obtain ⟨module, hmodule, hoffer⟩ := h.sole.mem_below_root_iff.1 he
      obtain ⟨hmm, hmk⟩ := (Ref.mem_moduleRefs_iff h.sole.linked).1 hmodule
      exact ⟨module, hmm, hoffer, .inr hmk⟩
    | some b =>
      obtain ⟨hb, ha⟩ := hbase b rfl
      obtain ⟨hl, hmodule⟩ := isAddressable_iff.1 ha
      have hany : b.kind ≠ .anydata := by
        intro hany
        rw [below, if_pos hany] at he
        obtain ⟨p, hp, rfl⟩ := List.mem_map.1 he
        simp [(h.holdsObjects_of_mem_payloads hb hany hp).isLeafLike_eq] at hk
      have hbl := h.sole.isLeafLike_of_mem_below hb he
      rw [below, if_neg hany] at he
      exact ⟨b, hb, he, .inl (.of_kind hl hmodule (hrpc b rfl) hbl)⟩
  have hchoice : r.kind ≠ .choice := by
    rcases hrk with hh | hmk
    · exact hh.kind_ne_choice
    · simp [hmk]
  obtain ⟨p, hp, rfl | hh⟩ := exists_parent_of_mem_offers (hr ▸ h.sole.linked) hchoice hoffer
  · exact ⟨p, hp, hrk⟩
  · exact ⟨p, hp, .inl hh⟩

/-- A node that declares a leaf with an id has a class, and tells what it declares apart by name. -/
theorem Reversible.className_of_declarer (h : reg.Reversible m) (hpm : p.model = m)
    (hpk : HoldsObjects p ∨ p.kind = .module) (hp : s.parent? = some p)
    (hli : leafId s = .ok li) : ∃ c, p.className = some c ∧ (p.declared.map Ref.name).Nodup := by
  rcases hpk with hh | hmk
  · obtain ⟨type, htype, -⟩ := h.exists_class hpm hh
    exact ⟨_, (h.sole.nodeOfClass?_of_classOf? hpm htype).1,
      h.nodup_declared p (Ref.mem_refs_iff.2 hpm) hh⟩
  · -- Nothing is around a module, so that the class of the id is its own.
    obtain ⟨owner, howner, -⟩ := Except.bind_eq_ok_iff.1 hli
    have hnone := (Ref.parent?_eq_none_iff (hpm ▸ h.sole.linked)).2 hmk
    have henclosing : p.enclosing = [] := by
      rw [Ref.enclosing]
      split
      · rfl
      · next q hq => cases hnone.symm.trans hq
    rw [found_eq_ok_iff, Ref.enclosingClass?, Ref.enclosing_eq hp, henclosing] at howner
    have hc : p.className = some owner := by simpa using howner
    exact ⟨owner, hc, h.nodup_module p (Ref.mem_refs_iff.2 hpm) hmk owner hc⟩

/-- A leaf that is read below a base is found again by its id: the node that declares it has the
class of the id, and tells what it declares apart by name. -/
theorem Reversible.leafOf?_of_leafId (h : reg.Reversible m)
    (hbase : ∀ b, base = some b → b.model = m ∧ isAddressable b.kind = true)
    (hrpc : ∀ b, base = some b → b.kind ≠ .rpc) (he : e ∈ reg.below base)
    (hk : e.node.kind.isLeafLike = true) (hli : leafId e.node = .ok li) :
    reg.leafOf? li = some e.node := by
  have hm := h.sole.model_of_mem_below (fun b hb => (hbase b hb).1) he
  obtain ⟨p, hp, hpk⟩ := h.exists_declarer hbase hrpc he hk
  have hpm := (Ref.model_of_parent? hp).trans hm
  obtain ⟨c, hc, hnames⟩ := h.className_of_declarer hpm hpk hp hli
  have howner : reg.nodeOfClass? li.owner = some p := by
    cases (leafId_of_parent hp hc).symm.trans hli
    exact h.sole.nodeOfClass?_eq_some_iff.2 ⟨hpm, hc⟩
  exact leafOf?_of_foremost hk hli howner
    (Ref.foremost_of_parent? (hm ▸ h.sole.linked) hnames hp (Ref.isLayer_of_isLeafLike hk))

/-! ### Reading and writing -/

/-- Whatever is read of assembled data below a base can be put back there. -/
theorem Reversible.returns_of_readItem (h : reg.Reversible m)
    (hbase : ∀ b, base = some b → b.model = m ∧ isAddressable b.kind = true)
    (hrpc : ∀ b, base = some b → b.kind ≠ .rpc) (hn : n.Stands reg.Offers base)
    (hitems : ∀ item ∈ items, reg.Returns base item) (hread : reg.readItem base items n = .ok items') :
    ∀ item ∈ items', reg.Returns base item := by
  obtain ⟨e, he, hread⟩ := Except.bind_eq_ok_iff.1 hread
  obtain ⟨s, hs⟩ := Tree.Node.stands_iff.1 hn
  obtain rfl := node_of_resolveNode hs he
  have hmodel : ∀ b, base = some b → b.model = m := fun b hb => (hbase b hb).1
  have hbelow := (h.sole.mem_below_of_childOf? (found_eq_ok_iff.1 he)).1
  have hm := h.sole.model_of_mem_below hmodel hbelow
  have hplace := h.sole.samePlace_of_mem_below hbase hbelow
  split at hread
  · next hk =>
    obtain ⟨v, -, hread⟩ := Except.bind_eq_ok_iff.1 hread
    obtain ⟨li, hli, hread⟩ := Except.bind_eq_ok_iff.1 hread
    cases hread
    intro item hitem
    rcases mem_addLeafItem hitem with hitem | ⟨values, rfl, hcount⟩
    · exact hitems item hitem
    · refine ⟨e.node, h.leafOf?_of_leafId hbase hrpc hbelow hk hli, hk, ?_, hcount⟩
      rcases hplace with hplace | ⟨b, rfl, hany⟩
      · exact hplace
      · -- Payloads are no leaves.
        rw [below, if_pos hany] at hbelow
        obtain ⟨p, hp, hpe⟩ := List.mem_map.1 hbelow
        have hpk := (h.holdsObjects_of_mem_payloads (hmodel b rfl) hany hp).isLeafLike_eq
        simp [← hpe, hpk] at hk
  · next hk =>
    obtain ⟨o, ho, hread⟩ := Except.bind_eq_ok_iff.1 hread
    cases hread
    have hclass := type_of_readObject ho
    have hh := h.holdsObjects_of_mem_below hmodel hbelow (by simpa using hk) hclass
    intro item hitem
    rcases List.mem_append.1 hitem with hitem | hitem
    · exact hitems item hitem
    · obtain rfl := List.mem_singleton.1 hitem
      exact ⟨e.node, (h.sole.nodeOfClass?_of_classOf? hm hclass).2, hh, hplace,
        h.fit_of_readObject hm hh hs ho⟩

/-- Data that has been assembled where it is rooted, with no operation there, is written again once it
has been read, and the resource id of what is written leads to the base that it was read from. -/
theorem Reversible.write_read (h : reg.Reversible m) {t : ResourceData} {d : ObjectData}
    {commands : List Assembly.Command} (hnodes : reg.assemble (rootId t) commands = .ok t.nodes)
    (hrpc : ∀ b, reg.resolve (rootId t) = .ok (some b) → b.kind ≠ .rpc)
    (hread : reg.read t = .ok d) :
    ∃ t' base, reg.write d = .ok t' ∧ reg.resolve (rootId t) = .ok base ∧
      reg.resolve t'.id = .ok base := by
  obtain ⟨base, hresolve, hread⟩ := Except.bind_eq_ok_iff.1 hread
  obtain ⟨oid, hoid, hread⟩ := Except.bind_eq_ok_iff.1 hread
  obtain ⟨items, hitems, hread⟩ := Except.bind_eq_ok_iff.1 hread
  cases hread
  obtain ⟨base', hsame, hleaf, hstands⟩ := h.sole.stands_of_assemble h.nodup_root hnodes
  obtain rfl : base = base' := Except.ok.inj (hresolve.symm.trans hsame)
  have hrpc : ∀ b, base = some b → b.kind ≠ .rpc := fun b hb => hrpc b (hb ▸ hresolve)
  have hbase := h.isAddressable_of_resolve hresolve
  have hreturns : ∀ item ∈ items, reg.Returns base item :=
    List.foldlM_keeps (P := fun items : List Item => ∀ item ∈ items, reg.Returns base item)
      (fun n hn _ _ hitems => h.returns_of_readItem hbase hrpc (hstands n hn) hitems)
      (by simp) hitems
  obtain ⟨rid, hrid, hback⟩ :=
    h.toResourceId_of_resolve (fun b hb => ⟨hleaf b hb, hrpc b hb⟩) hresolve hoid
  have hopen : Assembly.Open { base } := hleaf
  have hwrites := Writes.foldlM (fun item hitem => h.writes_item (hreturns item hitem)) { base } hopen
  refine ⟨{ id := rid, nodes := items.flatMap reg.itemNodes }, base, ?_, hresolve, hback⟩
  refine write_eq_ok_iff.2 ⟨base, hrid, .inr ⟨hleaf, _, (hwrites _).2 ⟨fun _ _ => trivial, rfl⟩, ?_⟩⟩
  rw [Assembly.placeAll_forest rfl]
  rfl

/-- A class without fields describes what declares nothing. -/
theorem describes_bare {c : String} (hs : s.declared = []) : reg.Describes (Crate.bareClass c) s where
  owner := by simp [Crate.bareClass]
  names := by simp [Crate.bareClass, hs]
  suits := by simp [Crate.bareClass]
  objects := by simp [Crate.bareClass]

/-! ### A depot

Boxes go by their marks, and a box may hold another one, which is not marked. Opening the depot is an
operation. What is given to open it is read at the root, since an operation has no class, and does not
belong there; and the inner box is taken for a box without a mark if it comes with the address of the
outer one. -/

/-- Data has been built at its resource id and can be read, but not written again. -/
structure Refused (reg : Registry) (t : ResourceData) : Prop where
  built : ∃ commands, reg.assemble t.id commands = .ok t.nodes
  refused : ∃ d, reg.read t = .ok d ∧ ∀ t', reg.write d ≠ .ok t'

theorem refused_of_isSome {t : ResourceData} (commands : List Assembly.Command)
    (hnodes : (reg.assemble t.id commands).toOption = some t.nodes)
    (hread : (reg.read t).toOption.isSome = true)
    (hwrite : ((reg.read t).bind reg.write).toOption.isSome = false) : reg.Refused t := by
  obtain ⟨d, hd⟩ := Except.isSome_toOption_iff.1 hread
  refine ⟨⟨commands, Except.toOption_eq_some_iff.1 hnodes⟩, d, hd, fun t' ht' => ?_⟩
  rw [hd] at hwrite
  simp [Except.bind, ht', Except.toOption] at hwrite

namespace Depot

open Crate (bareClass)

def model : Model where
  id := "depot"
  nodes := #[
    { id := ⟨"depot", some "urn:depot"⟩, kind := .module, children := [1, 3] },
    { id := ⟨"open", some "urn:depot"⟩, kind := .rpc, parent := some 0, children := [2] },
    { id := ⟨"input", some "urn:depot"⟩, kind := .input, parent := some 1,
      className := some "Opening" },
    { id := ⟨"box", some "urn:depot"⟩, kind := .list, parent := some 0, children := [4, 5],
      keys := ["mark"], className := some "Box" },
    { id := ⟨"mark", some "urn:depot"⟩, kind := .leaf, parent := some 3 },
    { id := ⟨"box", some "urn:depot"⟩, kind := .container, parent := some 3,
      className := some "InnerBox" }]
  modules := [0]

theorem built : model.Built :=
  ⟨"depot", [.addModule "depot" "urn:depot" none, .addChild 0 .rpc "open", .addChild 1 .input "input",
    .setClass 2 "Opening", .addChild 0 .list "box", .setClass 3 "Box", .setKeys 3 ["mark"],
    .addChild 3 .leaf "mark", .addChild 3 .container "box", .setClass 5 "InnerBox"], by rfl⟩

def markKey : KeyClass where
  className := "MarkKey"
  typeName := "MarkKey"
  leaves := [⟨"mark", "MarkKey", .string⟩]
  label := "MarkKey"
  labels := [("mark", "mark")]

def boxClass : Class where
  className := "Box"
  typeName := "Box"
  fields := [⟨"mark", "Box", .leaf .string⟩, ⟨"box", "Box", .container "InnerBox"⟩]
  key := some markKey

def registry : Registry :=
  run {} [.register model [bareClass "Opening", boxClass, bareClass "InnerBox"]]

theorem sole : registry.Sole model where
  reachable := ⟨true, _, fun command h => by
    obtain rfl := List.mem_singleton.1 h
    exact built, rfl⟩
  models := rfl
  nodup_names := by decide
  nodup_namespaces := by decide

def inputRef : Ref := ⟨model, 2, by decide⟩

def boxRef : Ref := ⟨model, 3, by decide⟩

def markRef : Ref := ⟨model, 4, by decide⟩

def innerBoxRef : Ref := ⟨model, 5, by decide⟩

theorem classes : registry.classOf? inputRef = some (bareClass "Opening") ∧
    registry.classOf? boxRef = some boxClass ∧
    registry.classOf? innerBoxRef = some (bareClass "InnerBox") := by
  with_unfolding_all exact ⟨rfl, rfl, rfl⟩

theorem describes_box : registry.Describes boxClass boxRef where
  owner := by decide
  names := by decide
  suits := by decide
  objects := by
    intro f hf child hc hname t ht
    have hinner : boxClass.fields = [⟨"mark", "Box", .leaf .string⟩,
      ⟨"box", "Box", .container "InnerBox"⟩] := rfl
    simp only [hinner, List.mem_cons, List.not_mem_nil, or_false] at hf
    rcases hf with rfl | rfl
    · simp at ht
    · obtain rfl : t = "InnerBox" := by simpa [eq_comm] using ht
      have hchild : child = markRef ∨ child = innerBoxRef := by
        have hdeclared : boxRef.declared = [markRef, innerBoxRef] := rfl
        simpa [hdeclared] using hc
      rcases hchild with rfl | rfl
      · exact absurd hname (by decide)
      · exact ⟨bareClass "InnerBox", classes.2.2, rfl⟩

theorem described (r : Ref) (hr : r ∈ model.refs) (hh : HoldsObjects r) :
    ∃ c, registry.classOf? r = some c ∧ registry.Describes c r := by
  have hrefs : model.refs = [⟨model, 0, by decide⟩, ⟨model, 1, by decide⟩, inputRef, boxRef, markRef,
    innerBoxRef] := rfl
  simp only [hrefs, List.mem_cons, List.not_mem_nil, or_false] at hr
  rcases hr with rfl | rfl | rfl | rfl | rfl | rfl
  · exact absurd rfl hh.kind_ne_module
  · simp [HoldsObjects, Ref.kind, Ref.node, model] at hh
  · exact ⟨_, classes.1, describes_bare rfl⟩
  · exact ⟨_, classes.2.1, describes_box⟩
  · cases hh.isLeafLike_eq
  · exact ⟨_, classes.2.2, describes_bare rfl⟩

theorem reversible : registry.Reversible model where
  sole := sole
  described := described
  payload_object := by
    have hnone : ∀ r ∈ model.refs, r.kind ≠ .anydata := by decide
    exact fun r hr hk => absurd hk (hnone r hr)
  nodup_declared := by
    have hnames : ∀ r ∈ model.refs, (r.declared.map Ref.name).Nodup := by decide
    exact fun r hr _ => hnames r hr
  nodup_offers := by
    have hids : ∀ r ∈ model.refs, (r.offers.map fun e => e.node.id).Nodup := by decide +kernel
    exact fun r hr _ _ => hids r hr
  rpc_class := by decide
  nodup_root := by decide +kernel
  entry_key := by
    have hlist : ∀ r ∈ model.refs, r.kind = .list → r.index.val = 3 := by decide
    intro r hr hk type htype
    obtain rfl : r = boxRef := Ref.ext_iff'.2 ⟨Ref.mem_refs_iff.1 hr, hlist r hr hk⟩
    rw [classes.2.1, Option.bind_some] at htype
    cases htype
    exact ⟨⟨by decide, by decide⟩, by decide⟩
  payload_shown := by
    have hnone : ∀ r ∈ model.refs, r.kind ≠ .anydata := by decide
    exact fun r hr hk => absurd hk (hnone r hr)
  nodup_module := by
    have hnone : ∀ r ∈ model.refs, r.kind = .module → r.className = none := by decide
    intro r hr hk c hc
    rw [hnone r hr hk] at hc
    cases hc
  key_leaf := by
    have hown : ∀ r ∈ model.refs, ∀ e ∈ r.offers, e.layers.length = 0 := by decide +kernel
    intro r hr _ e he _ _ l hl
    rw [List.length_eq_zero_iff.1 (hown r hr e he)] at hl
    cases hl

/-- A box that holds another one. -/
def fullBox : ResourceData where
  id := .root
  nodes := [.inner { id := boxRef.id, selector := .list [{ id := markRef.id, value := .string "a" }] }
    .multiNode [.leaf { id := markRef.id } .singleLeaf (.string "a"), bareNode innerBoxRef]]

/-- The inner box of a box, with the address of the outer one. -/
def innerBox : ResourceData where
  id := ⟨[{ id := boxRef.id, selector := .list [{ id := markRef.id, value := .string "a" }] }]⟩
  nodes := [bareNode innerBoxRef]

/-- What is given to open the depot. -/
def opening : ResourceData where
  id := ⟨[{ id := ⟨"open", some "urn:depot"⟩ }]⟩
  nodes := [bareNode inputRef]

theorem not_written_innerBox :
    ((registry.read innerBox).bind registry.write).toOption.isSome = false := by cbv

/-- Both have been built where they say, and are refused nevertheless. -/
theorem refused : registry.Refused opening ∧ registry.Refused innerBox :=
  ⟨refused_of_isSome [.add "input" none none, .exit] (by decide +kernel) (by decide +kernel)
      (by decide +kernel),
    refused_of_isSome [.add "box" none none, .exit] (by decide +kernel) (by decide +kernel)
      not_written_innerBox⟩

theorem read_fullBox : registry.assemble (rootId fullBox) [.add "box" none none,
      .add "mark" none (some (.string "a")), .exit, .add "box" none none, .exit, .exit] =
        .ok fullBox.nodes ∧
    ∃ d, registry.read fullBox = .ok d :=
  ⟨Except.toOption_eq_some_iff.1 (by decide +kernel),
    Except.isSome_toOption_iff.1 (by decide +kernel)⟩

end Depot

/-- A box in a box is written again at the root, where it has been read. -/
theorem write_read_fullBox : ∃ d t' base, Depot.registry.read Depot.fullBox = .ok d ∧
    Depot.registry.write d = .ok t' ∧ Depot.registry.resolve (rootId Depot.fullBox) = .ok base ∧
    Depot.registry.resolve t'.id = .ok base := by
  obtain ⟨hnodes, d, hread⟩ := Depot.read_fullBox
  obtain ⟨t', base, hwrite, hbase, hback⟩ :=
    Depot.reversible.write_read hnodes (fun b hb => by cases hb) hread
  exact ⟨d, t', base, hread, hwrite, hbase, hback⟩

/-! ### An attic

Its schema is bound to classes as it should be, but lacks all that is asked of it besides. A chest is
marked from outside in one case and holds nothing but air in another; data that has both cases keeps
the second one only, and with the first one the mark is lost. The sack may hold what the second case
holds, although that belongs to chests. And the lamp in the attic stands in the way of what its
neighbours call a lamp. -/

namespace Attic

open Crate (bareClass)

def model : Model where
  id := "attic"
  nodes := #[
    { id := ⟨"attic", some "urn:attic"⟩, kind := .module, children := [1, 8, 9, 10],
      className := some "Attic" },
    { id := ⟨"chest", some "urn:attic"⟩, kind := .list, parent := some 0, children := [2, 3],
      keys := ["mark"], className := some "Chest" },
    { id := ⟨"mark", some "urn:attic"⟩, kind := .leaf, parent := some 1 },
    { id := ⟨"content", some "urn:attic"⟩, kind := .choice, parent := some 1, children := [4, 6] },
    { id := ⟨"marked", some "urn:attic"⟩, kind := .case, parent := some 3, children := [5],
      className := some "Marked" },
    { id := ⟨"mark", some "urn:outside"⟩, kind := .leaf, parent := some 4 },
    { id := ⟨"empty", some "urn:attic"⟩, kind := .case, parent := some 3, children := [7],
      className := some "Empty" },
    { id := ⟨"air", some "urn:attic"⟩, kind := .container, parent := some 6,
      className := some "Air" },
    { id := ⟨"sack", some "urn:attic"⟩, kind := .anydata, parent := some 0,
      className := some "Sack" },
    { id := ⟨"lamp", some "urn:attic"⟩, kind := .container, parent := some 0,
      className := some "Lamp" },
    { id := ⟨"lamp", some "urn:outside"⟩, kind := .leaf, parent := some 0 }]
  modules := [0]

theorem built : model.Built :=
  ⟨"attic", [.addModule "attic" "urn:attic" none, .setClass 0 "Attic", .addChild 0 .list "chest",
    .setClass 1 "Chest", .setKeys 1 ["mark"], .addChild 1 .leaf "mark", .addChild 1 .choice "content",
    .addChild 3 .case "marked", .setClass 4 "Marked", .addChild 4 .leaf "mark",
    .setNamespace 5 "urn:outside", .addChild 3 .case "empty", .setClass 6 "Empty",
    .addChild 6 .container "air", .setClass 7 "Air", .addChild 0 .anydata "sack", .setClass 8 "Sack",
    .addChild 0 .container "lamp", .setClass 9 "Lamp", .addChild 0 .leaf "lamp",
    .setNamespace 10 "urn:outside"], by decide +kernel⟩

def chestClass : Class where
  className := "Chest"
  typeName := "Chest"
  fields := [⟨"mark", "Chest", .leaf .string⟩, ⟨"content", "Chest", .choice⟩]
  key := some Depot.markKey

def markedClass : Class where
  className := "Marked"
  typeName := "Marked"
  fields := [⟨"mark", "Marked", .leaf .string⟩]

def emptyClass : Class where
  className := "Empty"
  typeName := "Empty"
  fields := [⟨"air", "Empty", .container "Air"⟩]

def registry : Registry :=
  run {} [.register model [chestClass, markedClass, emptyClass, bareClass "Air", bareClass "Sack",
    bareClass "Lamp"], .registerAnydata "Sack" "Empty"]

theorem sole : registry.Sole model where
  reachable := ⟨true, _, fun command h => by
    simp only [List.mem_cons, List.not_mem_nil, or_false] at h
    rcases h with rfl | rfl
    · exact built
    · trivial, rfl⟩
  models := rfl
  nodup_names := by decide
  nodup_namespaces := by decide

def chestRef : Ref := ⟨model, 1, by decide⟩

def markedRef : Ref := ⟨model, 4, by decide⟩

def outsideMarkRef : Ref := ⟨model, 5, by decide⟩

def emptyRef : Ref := ⟨model, 6, by decide⟩

def airRef : Ref := ⟨model, 7, by decide⟩

def sackRef : Ref := ⟨model, 8, by decide⟩

def lampRef : Ref := ⟨model, 9, by decide⟩

theorem classes : registry.classOf? chestRef = some chestClass ∧
    registry.classOf? markedRef = some markedClass ∧
    registry.classOf? emptyRef = some emptyClass ∧
    registry.classOf? airRef = some (bareClass "Air") ∧
    registry.classOf? sackRef = some (bareClass "Sack") ∧
    registry.classOf? lampRef = some (bareClass "Lamp") := by
  with_unfolding_all exact ⟨rfl, rfl, rfl, rfl, rfl, rfl⟩

theorem describes_chest : registry.Describes chestClass chestRef where
  owner := by decide
  names := by decide
  suits := by decide
  objects := by
    intro f hf child hc hname t ht
    simp only [chestClass, List.mem_cons, List.not_mem_nil, or_false] at hf
    rcases hf with rfl | rfl <;> simp at ht

theorem describes_marked : registry.Describes markedClass markedRef where
  owner := by decide
  names := by decide
  suits := by decide
  objects := by
    intro f hf child hc hname t ht
    simp only [markedClass, List.mem_cons, List.not_mem_nil, or_false] at hf
    subst hf
    simp at ht

theorem describes_empty : registry.Describes emptyClass emptyRef where
  owner := by decide
  names := by decide
  suits := by decide
  objects := by
    intro f hf child hc _ t ht
    obtain rfl : f = ⟨"air", "Empty", .container "Air"⟩ := List.mem_singleton.1 hf
    obtain rfl : child = airRef := List.mem_singleton.1 hc
    obtain rfl : t = "Air" := by simpa [eq_comm] using ht
    exact ⟨bareClass "Air", classes.2.2.2.1, rfl⟩

theorem described (r : Ref) (hr : r ∈ model.refs) (hh : HoldsObjects r) :
    ∃ c, registry.classOf? r = some c ∧ registry.Describes c r := by
  have hrefs : model.refs = [⟨model, 0, by decide⟩, chestRef, ⟨model, 2, by decide⟩,
    ⟨model, 3, by decide⟩, markedRef, outsideMarkRef, emptyRef, airRef, sackRef, lampRef,
    ⟨model, 10, by decide⟩] := rfl
  simp only [hrefs, List.mem_cons, List.not_mem_nil, or_false] at hr
  obtain ⟨hchest, hmarked, hempty, hair, hsack, hlamp⟩ := classes
  rcases hr with rfl | rfl | rfl | rfl | rfl | rfl | rfl | rfl | rfl | rfl | rfl
  · exact absurd rfl hh.kind_ne_module
  · exact ⟨_, hchest, describes_chest⟩
  · cases hh.isLeafLike_eq
  · exact absurd rfl hh.kind_ne_choice
  · exact ⟨_, hmarked, describes_marked⟩
  · cases hh.isLeafLike_eq
  · exact ⟨_, hempty, describes_empty⟩
  · exact ⟨_, hair, describes_bare rfl⟩
  · exact ⟨_, hsack, describes_bare rfl⟩
  · exact ⟨_, hlamp, describes_bare rfl⟩
  · cases hh.isLeafLike_eq

theorem bound : registry.Bound model where
  sole := sole
  described := described
  payload_object := by
    have hcase : ∀ r ∈ model.refs, r.kind = .anydata → ∀ p ∈ registry.payloads r, p.kind = .case := by
      decide +kernel
    exact fun r hr hk p hp => by simp [HoldsObjects, hcase r hr hk p hp]
  nodup_declared := by
    have hnames : ∀ r ∈ model.refs, r.kind ≠ .module → (r.declared.map Ref.name).Nodup := by decide
    exact fun r hr hh => hnames r hr hh.kind_ne_module
  nodup_offers := by
    have hids : ∀ r ∈ model.refs, (r.offers.map fun e => e.node.id).Nodup := by decide +kernel
    exact fun r hr _ _ => hids r hr
  rpc_class := by decide
  nodup_root := by decide +kernel
  entry_key := by
    have hlist : ∀ r ∈ model.refs, r.kind = .list → r.index.val = 1 := by decide
    intro r hr hk type htype
    obtain rfl : r = chestRef := Ref.ext_iff'.2 ⟨Ref.mem_refs_iff.1 hr, hlist r hr hk⟩
    rw [classes.1, Option.bind_some] at htype
    cases htype
    exact ⟨⟨by decide, by decide⟩, by decide⟩

/-- A chest of both cases, with the mark from outside. -/
def markedChest : ResourceData where
  id := .root
  nodes := [.inner
    { id := chestRef.id, selector := .list [{ id := outsideMarkRef.id, value := .string "a" }] }
    .multiNode [.leaf { id := outsideMarkRef.id } .singleLeaf (.string "a"), bareNode airRef]]

/-- Air in what the sack holds. -/
def airInSack : ResourceData where
  id := ⟨[{ id := sackRef.id }, { id := emptyRef.id }]⟩
  nodes := [bareNode airRef]

/-- The lamp of the neighbours. -/
def outsideLamp : ResourceData where
  id := .root
  nodes := [.leaf { id := ⟨"lamp", some "urn:outside"⟩ } .singleLeaf .empty]

/-- The chest of both cases as it is read: the second case has taken the place of the first, and the
mark is lost. -/
def emptiedChest : Object :=
  .mk chestClass [("mark", [])]
    [("content", [.mk emptyClass [] [("air", [(bareClass "Air").new])] [] []])] [] []

theorem read_markedChest :
    registry.read markedChest = .ok { items := [.object emptiedChest] } := by
  with_unfolding_all rfl

theorem not_written_markedChest :
    ((registry.read markedChest).bind registry.write).toOption.isSome = false := by
  rw [read_markedChest]
  cbv

/-- All of them have been built where they say, and are refused nevertheless. -/
theorem refused : registry.Refused markedChest ∧ registry.Refused airInSack ∧
    registry.Refused outsideLamp :=
  ⟨refused_of_isSome [.add "chest" none none,
      .add "mark" (some "urn:outside") (some (.string "a")), .exit, .add "air" none none, .exit,
      .exit] (by decide +kernel) (by decide +kernel) not_written_markedChest,
    refused_of_isSome [.add "air" none none, .exit] (by decide +kernel) (by decide +kernel)
      (by decide +kernel),
    refused_of_isSome [.add "lamp" (some "urn:outside") none, .exit] (by decide +kernel)
      (by decide +kernel) (by decide +kernel)⟩

end Attic

/-- Even where nothing else is amiss, data below an operation, and data that is not rooted where it
has been built, need not be written again. With a key that is hidden behind a case, with a payload
that is a case, or with names that collide in a module that has a class, data need not be written
again either, although all that holds data is described by its class. -/
theorem write_read_refused : Depot.registry.Reversible Depot.model ∧
    Depot.registry.Refused Depot.opening ∧ Depot.registry.Refused Depot.innerBox ∧
    Attic.registry.Bound Attic.model ∧ Attic.registry.Refused Attic.markedChest ∧
    Attic.registry.Refused Attic.airInSack ∧ Attic.registry.Refused Attic.outsideLamp :=
  ⟨Depot.reversible, Depot.refused.1, Depot.refused.2, Attic.bound, Attic.refused⟩

end Registry

end YangBinding
