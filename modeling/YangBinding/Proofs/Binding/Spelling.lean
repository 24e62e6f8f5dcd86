import YangBinding.Proofs.Binding.Addressed

/-!
# Resource ids with their namespaces spelled out

A key of a resource id may leave its namespace out. Putting the full identifiers of the nodes in the
place of the keys gives an id that leads to the same nodes and selects the same there. So data at it
is read as the same objects, unless the first key left its namespace out and another node at the top
shares the identifier of the one that it leads to. It also has to be the same place that is read
below: whether an id ends at the first data node is told by the spelling of its last key.

## Main definitions

* `Registry.spellOut?`, `Registry.spelledOut?` — keys, and a resource id, with full identifiers
* `Registry.LeadAlike` — two lists of keys lead to the same nodes and select the same
* `Registry.Wavers` — the last key is a short form that the first data node shares or spells out

## Main results

* `Registry.LeadAlike.resolve_eq`, `Registry.LeadAlike.followKeys_eq` — keys that lead alike are
  resolved alike, and converted alike
* `Registry.Reachable.exists_spellOut` — resolved keys can be spelled out, and lead alike then
* `Registry.Reachable.read_spelledOut` — reading data at an id that is spelled out
-/

namespace YangBinding.Registry

open Schema (DataChild Kind Model Ref)
open YangBinding.Tree (Node NodeKey ResourceData ResourceId)

/-- The keys with the full identifiers of the nodes that their names lead to. -/
def spellOut? (reg : Registry) : Option Ref → List NodeKey → Option (List NodeKey)
  | _, [] => some []
  | parent, key :: keys =>
    (reg.childOf? parent key.name key.ns).bind fun child =>
      (reg.spellOut? (some child.node) keys).map ({ key with id := child.node.id } :: ·)

/-- A resource id with the full identifiers of the nodes that its keys lead to. -/
def spelledOut? (reg : Registry) (id : ResourceId) : Option ResourceId :=
  (reg.spellOut? none id.segments).map ResourceId.mk

/-- The last key leaves its namespace out, and the first data node goes by the identifier of that
key, be it as short or as that of the node that the key leads to. -/
def Wavers (data : ResourceData) (target : Option Ref) : Prop :=
  ∃ last first, data.id.lastKey? = some last ∧ data.nodes.head? = some first ∧ last.ns = none ∧
    (first.key.id = last.id ∨ target.map Ref.id = some first.key.id)

/-- Key by key, two lists of keys lead to the same node and select the same there. -/
inductive LeadAlike (reg : Registry) : Option Ref → List NodeKey → List NodeKey → Prop
  | nil {parent : Option Ref} : LeadAlike reg parent [] []
  | cons {parent : Option Ref} {key key' : NodeKey} {keys keys' : List NodeKey} {e e' : DataChild}
      (here : reg.childOf? parent key.name key.ns = some e)
      (there : reg.childOf? parent key'.name key'.ns = some e') (node : e'.node = e.node)
      (name : key'.name = key.name) (selector : key'.selector = key.selector)
      (rest : LeadAlike reg (some e.node) keys keys') :
      LeadAlike reg parent (key :: keys) (key' :: keys')

variable {reg : Registry} {r : Ref} {e e' : DataChild} {parent target : Option Ref}
  {key key' : NodeKey} {keys keys' : List NodeKey} {id id' : ResourceId}

/-! ### Keys that lead alike -/

theorem text_eq_of_name (hname : key'.name = key.name) (hselector : key'.selector = key.selector) :
    key'.text = key.text := by
  rw [NodeKey.text, NodeKey.text, hname, hselector]

theorem resolveKey_eq_of_childOf? (he : reg.childOf? parent key.name key.ns = some e) :
    reg.resolveKey id parent key =
      if fitsSelector e.node.kind key.selector then .ok e.node
      else Result.refuse (.keyMismatch key.text e.node.kind e.node.name) := by
  rw [resolveKey, found_eq_ok_iff.2 he]
  rfl

theorem keyStep?_congr (hname : key'.name = key.name) (hselector : key'.selector = key.selector) :
    reg.keyStep? r key' = reg.keyStep? r key := by
  rw [keyStep?, keyStep?, hselector, text_eq_of_name hname hselector]

namespace LeadAlike

/-- Keys that lead alike are resolved alike, or refused alike. -/
theorem foldlM_resolveKey_eq (h : reg.LeadAlike parent keys keys') :
    keys'.foldlM (fun parent key => some <$> reg.resolveKey id' parent key) parent =
      keys.foldlM (fun parent key => some <$> reg.resolveKey id parent key) parent := by
  induction h with
  | nil => rfl
  | cons here there node name selector rest ih =>
    rw [List.foldlM_cons, List.foldlM_cons, resolveKey_eq_of_childOf? here,
      resolveKey_eq_of_childOf? there, node, selector, text_eq_of_name name selector]
    split
    · exact ih
    · rfl

theorem resolve_eq (h : reg.LeadAlike none id.segments id'.segments) :
    reg.resolve id' = reg.resolve id :=
  h.foldlM_resolveKey_eq

/-- Keys that lead alike make the same steps. -/
theorem followKeys_eq (h : reg.LeadAlike parent keys keys') (oid : ObjectId) :
    reg.followKeys id' keys' oid parent = reg.followKeys id keys oid parent := by
  induction h generalizing oid with
  | nil => rfl
  | @cons parent key key' keys keys' e e' here there node name selector rest ih =>
    rw [followKeys, followKeys, found_eq_ok_iff.2 here, found_eq_ok_iff.2 there]
    change (reg.keyStep? e'.node key' >>= _) = (reg.keyStep? e.node key >>= _)
    rw [node, keyStep?_congr name selector]
    simp only [ih]

theorem toObjectId_eq (h : reg.LeadAlike none id.segments id'.segments) :
    reg.toObjectId id' = reg.toObjectId id :=
  h.followKeys_eq .root

theorem dropLast (h : reg.LeadAlike parent keys keys') :
    reg.LeadAlike parent keys.dropLast keys'.dropLast := by
  induction h with
  | nil => exact .nil
  | cons here there node name selector rest ih =>
    cases rest with
    | nil => exact .nil
    | cons => exact .cons here there node name selector ih

/-- Data is read alike below places whose keys lead alike. -/
theorem read_eq {data data' : ResourceData}
    (h : reg.LeadAlike none (rootId data).segments (rootId data').segments)
    (hnodes : data'.nodes = data.nodes) : reg.read data' = reg.read data := by
  rw [read, read, h.resolve_eq, h.toObjectId_eq, hnodes]

end LeadAlike

/-! ### Spelling out -/

theorem spellOut?_cons_eq_some_iff : reg.spellOut? parent (key :: keys) = some keys' ↔
    ∃ child rest, reg.childOf? parent key.name key.ns = some child ∧
      reg.spellOut? (some child.node) keys = some rest ∧
        keys' = { key with id := child.node.id } :: rest := by
  simp only [spellOut?, Option.bind_eq_some_iff, Option.map_eq_some_iff]
  constructor
  · rintro ⟨child, hchild, rest, hrest, rfl⟩
    exact ⟨child, rest, hchild, hrest, rfl⟩
  · rintro ⟨child, rest, hchild, hrest, rfl⟩
    exact ⟨child, hchild, rest, hrest, rfl⟩

/-- A key leads to its node under the identifier of the node as well. At the top the key has to have
its namespace already, or the node has to prevail. -/
theorem Reachable.childOf?_spelled (h : reg.Reachable)
    (hp : ∀ r, parent = some r → r.model ∈ reg.models)
    (htop : parent = none → key.ns = none → reg.Prevails e.node)
    (he : reg.childOf? parent key.name key.ns = some e) :
    ∃ f, reg.childOf? parent e.node.name e.node.ns = some f ∧ f.node = e.node := by
  cases parent with
  | some r =>
    obtain ⟨n, hn⟩ := h.exists_ns (h.model_mem_of_childOf? hp he)
    exact ⟨e, childOf?_again_below he hn, rfl⟩
  | none =>
    cases hkey : key.ns with
    | none =>
      rw [childOf?_none] at he ⊢
      exact h.topLevel?_again (htop rfl hkey) he
    | some n =>
      have hid : e.node.id = key.id := Schema.Id.eq_of_fits hkey (fits_of_childOf? he)
      refine ⟨e, ?_, rfl⟩
      rw [Ref.name, Ref.ns, hid]
      exact he

/-- The first of several keys that are resolved leads to where the others start. -/
theorem exists_child_of_foldlM
    (hres : (key :: keys).foldlM (fun parent key => some <$> reg.resolveKey id parent key) parent =
      .ok target) :
    ∃ e, reg.childOf? parent key.name key.ns = some e ∧
      keys.foldlM (fun parent key => some <$> reg.resolveKey id parent key) (some e.node) =
        .ok target := by
  obtain ⟨_, hfirst, hrest⟩ := Except.bind_eq_ok_iff.1 hres
  obtain ⟨r, hkey, rfl⟩ := Except.map_eq_ok_iff.1 hfirst
  obtain ⟨e, he, -, rfl⟩ := resolveKey_eq_ok_iff.1 hkey
  exact ⟨e, he, hrest⟩

/-- Keys that are resolved can be spelled out, and then they lead alike. -/
theorem Reachable.exists_spellOut (h : reg.Reachable)
    (hp : ∀ r, parent = some r → r.model ∈ reg.models)
    (htop : parent = none → ∀ key e, keys.head? = some key → key.ns = none →
      reg.topLevel? key.name none = some e → reg.Prevails e.node)
    (hres : keys.foldlM (fun parent key => some <$> reg.resolveKey id parent key) parent =
      .ok target) :
    ∃ keys', reg.spellOut? parent keys = some keys' ∧ reg.LeadAlike parent keys keys' := by
  induction keys generalizing parent with
  | nil => exact ⟨[], rfl, .nil⟩
  | cons key keys ih =>
    obtain ⟨e, he, hres⟩ := exists_child_of_foldlM hres
    have hfirst : parent = none → key.ns = none → reg.Prevails e.node := by
      rintro rfl hns
      rw [hns, childOf?_none] at he
      exact htop rfl key e rfl hns he
    obtain ⟨f, hf, hnode⟩ := h.childOf?_spelled hp hfirst he
    have hmodel : ∀ r, some e.node = some r → r.model ∈ reg.models := by
      rintro _ ⟨⟩
      exact h.model_mem_of_childOf? hp he
    obtain ⟨keys', hkeys', halike⟩ := ih hmodel (by simp) hres
    exact ⟨_, spellOut?_cons_eq_some_iff.2 ⟨e, keys', he, hkeys', rfl⟩,
      .cons he hf hnode (Schema.Id.fits_iff.1 (fits_of_childOf? he)).1 rfl halike⟩

/-- Spelled out, the last key has the identifier of the node at the end. It has that already if it
has a namespace. -/
theorem getLast?_of_spellOut? (hs : reg.spellOut? parent keys = some keys')
    (hres : keys.foldlM (fun parent key => some <$> reg.resolveKey id parent key) parent =
      .ok target) (hlast : keys.getLast? = some key) :
    ∃ r, target = some r ∧ keys'.getLast? = some { key with id := r.id } ∧
      (key.ns ≠ none → key.id = r.id) := by
  induction keys generalizing parent keys' with
  | nil => cases hlast
  | cons first keys ih =>
    obtain ⟨e, he, hres⟩ := exists_child_of_foldlM hres
    obtain ⟨f, rest, hf, hrest, rfl⟩ := spellOut?_cons_eq_some_iff.1 hs
    obtain rfl := Option.some.inj (he.symm.trans hf)
    rw [List.getLast?_cons] at hlast ⊢
    -- Only the last key matters, so any other is skipped.
    cases hkeys : keys.getLast? with
    | none =>
      obtain rfl := List.getLast?_eq_none_iff.1 hkeys
      cases hrest
      cases hres
      cases hlast
      refine ⟨e.node, rfl, rfl, fun hns => ?_⟩
      obtain ⟨n, hn⟩ := Option.ne_none_iff_exists'.1 hns
      exact (Schema.Id.eq_of_fits hn (fits_of_childOf? he)).symm
    | some last =>
      obtain rfl : last = key := by simpa [hkeys] using hlast
      obtain ⟨r, rfl, hlast', hsame⟩ := ih hrest hres hkeys
      exact ⟨r, rfl, by rw [hlast']; rfl, hsame⟩

/-! ### Reading -/

/-- Data is read below the parent of its id if the last key has the identifier of the first node. -/
theorem segments_rootId {nodes : List Node} {first : Node} (hlast : id.lastKey? = some key)
    (hfirst : nodes.head? = some first) : (rootId { id, nodes }).segments =
      if key.id = first.key.id then id.segments.dropLast else id.segments := by
  have hroot : id.isRoot = false := by
    rw [ResourceId.isRoot, List.isEmpty_eq_false_iff]
    rintro hnil
    rw [ResourceId.lastKey?, hnil] at hlast
    cases hlast
  rw [rootId, hlast, hfirst]
  simp only [ResourceId.parent?, hroot, Bool.false_eq_true, if_false, Option.getD_some]
  split <;> rfl

/-- The id that data is read below, and that of the data at the id spelled out. -/
theorem leadAlike_rootId {data : ResourceData} (hid : reg.resolve data.id = .ok target)
    (hs : reg.spellOut? none data.id.segments = some keys')
    (halike : reg.LeadAlike none data.id.segments keys') (hw : ¬ Wavers data target) :
    reg.LeadAlike none (rootId data).segments (rootId { data with id := ⟨keys'⟩ }).segments := by
  cases hfirst : data.nodes.head? with
  | none => simpa [rootId, hfirst] using halike
  | some first =>
    cases hlast : data.id.lastKey? with
    | none =>
      have hnil : data.id.segments = [] := List.getLast?_eq_none_iff.1 hlast
      rw [hnil] at hs
      cases hs
      have hroot : rootId data = data.id := by rw [rootId, hlast]
      rw [hroot]
      exact halike
    | some last =>
      obtain ⟨r, rfl, hlast', hsame⟩ := getLast?_of_spellOut? hs hid hlast
      have hlast' : (⟨keys'⟩ : ResourceId).lastKey? = some { last with id := r.id } := hlast'
      rw [segments_rootId hlast hfirst, segments_rootId hlast' hfirst]
      -- A key without a namespace would have to waver for the two tests to differ.
      have htest : last.id = first.key.id ↔ r.id = first.key.id := by
        by_cases hns : last.ns = none
        · have hneither : ¬ (first.key.id = last.id ∨ r.id = first.key.id) := fun h =>
            hw ⟨last, first, hlast, hfirst, hns, h.imp_right fun h => congrArg some h⟩
          exact ⟨fun h => absurd (.inl h.symm) hneither, fun h => absurd (.inr h) hneither⟩
        · rw [hsame hns]
      by_cases htest' : r.id = first.key.id
      · rw [if_pos (htest.2 htest'), if_pos htest']
        exact halike.dropLast
      · rw [if_neg fun h => htest' (htest.1 h), if_neg htest']
        exact halike

/-- Data at an id that is resolved is read as the same objects below the same object id, or refused
for the same reason, when the keys of the id are given the full identifiers of the nodes that they
lead to. If the first key leaves its namespace out, the node that it leads to has to prevail.
Whether the id ends at the first data node must not hang on a last key without namespace. -/
theorem Reachable.read_spelledOut (h : reg.Reachable) {data : ResourceData}
    (hid : reg.resolve data.id = .ok target)
    (htop : ∀ key e, data.id.segments.head? = some key → key.ns = none →
      reg.topLevel? key.name none = some e → reg.Prevails e.node)
    (hw : ¬ Wavers data target) :
    ∃ full, reg.spelledOut? data.id = some full ∧ reg.resolve full = .ok target ∧
      reg.read { data with id := full } = reg.read data := by
  obtain ⟨keys', hs, halike⟩ := h.exists_spellOut (by simp) (fun _ => htop) hid
  refine ⟨⟨keys'⟩, by rw [spelledOut?, hs, Option.map_some], ?_, ?_⟩
  · have hsame : reg.resolve ⟨keys'⟩ = reg.resolve data.id := halike.resolve_eq
    rw [hsame, hid]
  · exact (leadAlike_rootId hid hs halike hw).read_eq rfl

/-! ### The store of a shop, and twins

A shop has one store, whatever it is called. Of twins, which share a namespace, the short name means
the first by the name of its module, the full one the module that has the namespace. -/

namespace Shop

/-- The store, as it is called for short. -/
def shortId : ResourceId := ⟨[{ id := ⟨"store", none⟩ }]⟩

/-- The store, by its full identifier. -/
def fullId : ResourceId := ⟨[{ id := ⟨"store", some "urn:shop"⟩ }]⟩

theorem resolve_shortId : registry.resolve shortId = .ok (some storeRef) := by
  with_unfolding_all rfl

theorem spelledOut?_shortId : registry.spelledOut? shortId = some fullId := by
  with_unfolding_all rfl

/-- The store itself, as data by its full identifier. -/
def storeNode : Node := .inner { id := storeRef.id } .singleNode []

theorem read_shortId_self : ∃ cause,
    registry.read { id := shortId, nodes := [storeNode] } = .error (.resolution cause) :=
  ⟨.noNodeUnder "urn:shop:store" (some "shop:/store"), by with_unfolding_all rfl⟩

theorem read_fullId_self : registry.read { id := fullId, nodes := [storeNode] } =
    .ok { items := [.object storeClass.new] } := by
  with_unfolding_all rfl

theorem exists_read_penItem : ∃ d,
    registry.read { id := shortId, nodes := [penItemNode] } = .ok d := by
  have hread :
      (registry.read { id := shortId, nodes := [penItemNode] }).toOption.isSome = true := by
    decide +kernel
  obtain ⟨d, hd⟩ := Option.isSome_iff_exists.1 hread
  exact ⟨d, Except.toOption_eq_some_iff.1 hd⟩

end Shop

namespace Twins

def model : Model where
  id := "twins"
  nodes := #[
    { id := ⟨"left", some "urn:twin"⟩, kind := .module, children := [2] },
    { id := ⟨"right", some "urn:twin"⟩, kind := .module, children := [3] },
    { id := ⟨"room", some "urn:twin"⟩, kind := .container, parent := some 0,
      className := some "LeftRoom" },
    { id := ⟨"room", some "urn:twin"⟩, kind := .container, parent := some 1,
      className := some "RightRoom" }]
  modules := [0, 1]

theorem built : model.Built :=
  ⟨"twins", [.addModule "left" "urn:twin" none, .addModule "right" "urn:twin" none,
    .addChild 0 .container "room", .addChild 1 .container "room", .setClass 2 "LeftRoom",
    .setClass 3 "RightRoom"], by rfl⟩

def registry : Registry := run {} [.register model []]

theorem reachable : registry.Reachable :=
  ⟨true, [.register model []], fun command h => by
    obtain rfl := List.mem_singleton.1 h
    exact built, rfl⟩

def shortId : ResourceId := ⟨[{ id := ⟨"room", none⟩ }]⟩

def fullId : ResourceId := ⟨[{ id := ⟨"room", some "urn:twin"⟩ }]⟩

theorem resolve_shortId : registry.resolve shortId = .ok (some ⟨model, 2, by decide⟩) := by
  with_unfolding_all rfl

theorem spelledOut?_shortId : registry.spelledOut? shortId = some fullId := by
  with_unfolding_all rfl

theorem read_shortId : registry.read { id := shortId, nodes := [] } =
    .ok { id := ⟨[.child "LeftRoom"]⟩, items := [] } := by
  with_unfolding_all rfl

theorem read_fullId : registry.read { id := fullId, nodes := [] } =
    .ok { id := ⟨[.child "RightRoom"]⟩, items := [] } := by
  with_unfolding_all rfl

end Twins

/-- The store may be called by its short name where a pen is read below it. -/
theorem read_spelledOut_pen : ∃ full d, Shop.registry.spelledOut? Shop.shortId = some full ∧
    Shop.registry.resolve full = .ok (some Shop.storeRef) ∧
    Shop.registry.read { id := full, nodes := [Shop.penItemNode] } = .ok d ∧
    Shop.registry.read { id := Shop.shortId, nodes := [Shop.penItemNode] } = .ok d := by
  have hw : ¬ Wavers { id := Shop.shortId, nodes := [Shop.penItemNode] } (some Shop.storeRef) := by
    rintro ⟨last, first, hlast, hfirst, -, hid⟩
    cases hlast
    cases hfirst
    exact absurd hid (by decide)
  obtain ⟨full, hfull, hresolve, hread⟩ := Shop.sole.reachable.read_spelledOut
    Shop.resolve_shortId (fun _ _ _ _ => Shop.unambiguous.prevails) hw
  obtain ⟨d, hd⟩ := Shop.exists_read_penItem
  exact ⟨full, d, hfull, hresolve, hread.trans hd, hd⟩

/-- Spelling out the namespaces of an id that is resolved can change what is read there: with twins,
and where the first node is what the id leads to. -/
theorem read_spelledOut_differs :
    (Twins.registry.Reachable ∧
      Twins.registry.resolve Twins.shortId = .ok (some ⟨Twins.model, 2, by decide⟩) ∧
      Twins.registry.spelledOut? Twins.shortId = some Twins.fullId ∧
      ∃ d d', Twins.registry.read { id := Twins.shortId, nodes := [] } = .ok d ∧
        Twins.registry.read { id := Twins.fullId, nodes := [] } = .ok d' ∧
          (d.id == d'.id) = false) ∧
    Shop.registry.Sole Shop.model ∧ Shop.registry.Unambiguous ∧
      Shop.registry.resolve Shop.shortId = .ok (some Shop.storeRef) ∧
      Shop.registry.spelledOut? Shop.shortId = some Shop.fullId ∧
      (∃ e, Shop.registry.read { id := Shop.shortId, nodes := [Shop.storeNode] } = .error e) ∧
      ∃ d, Shop.registry.read { id := Shop.fullId, nodes := [Shop.storeNode] } = .ok d := by
  obtain ⟨cause, hrefused⟩ := Shop.read_shortId_self
  exact ⟨⟨Twins.reachable, Twins.resolve_shortId, Twins.spelledOut?_shortId, _, _,
      Twins.read_shortId, Twins.read_fullId, by decide⟩,
    Shop.sole, Shop.unambiguous, Shop.resolve_shortId, Shop.spelledOut?_shortId,
    ⟨_, hrefused⟩, _, Shop.read_fullId_self⟩

end YangBinding.Registry
