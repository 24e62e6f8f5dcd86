import YangBinding.Proofs.Schema.Compiled

/-!
# What compilation adds to a draft

A declaration becomes one node, and the declarations in it become the nodes behind it, in the order
in which they are written. So the nodes that a declaration adds are known beforehand: they are listed
here from the declaration alone, and the number at which the list starts. Nothing else changes in the
draft but the node that the declaration is for, which gets one more child.

## Main definitions

* `NodeSource.listing`, `ModuleSource.listing` — the nodes that a declaration adds
* `Draft.append` — a draft with nodes added below one of its own

## Main results

* `Draft.graft_listing`, `Draft.graftModule_listing`, `Draft.graftAugment_listing` — a declaration
  that is accepted adds the nodes of its listing
-/

namespace YangBinding.Schema

/-- A node with more children. -/
def Node.addChildren (n : Node) (children : List Nat) : Node :=
  { n with children := n.children ++ children }

/-! ### Listings -/

mutual

/-- The number of nodes that a declaration makes. -/
def NodeSource.count : NodeSource → Nat
  | ⟨_, _, _, _, _, _, children⟩ => NodeSource.countAll children + 1

/-- The number of nodes that declarations make. -/
def NodeSource.countAll : List NodeSource → Nat
  | [] => 0
  | source :: sources => source.count + NodeSource.countAll sources

end

/-- Where lists of the given lengths start if they follow one after the other from a number on. -/
def startsFrom : Nat → List Nat → List Nat
  | _, [] => []
  | i, length :: lengths => i :: startsFrom (i + length) lengths

mutual

/-- The nodes that a declaration adds from a number on, below a node. -/
def NodeSource.listing (i parent : Nat) : NodeSource → List Node
  | ⟨kind, name, ns, className, keys, config, children⟩ =>
    { id := ⟨name, ns⟩, kind, parent := some parent, className, keys, config,
      children := startsFrom (i + 1) (children.map NodeSource.count) } ::
      NodeSource.listingAll (i + 1) i children

/-- The nodes that declarations add from a number on, below a node. -/
def NodeSource.listingAll (i parent : Nat) : List NodeSource → List Node
  | [] => []
  | source :: sources =>
    source.listing i parent ++ NodeSource.listingAll (i + source.count) parent sources

end

mutual

theorem NodeSource.length_listing (i parent : Nat) :
    ∀ source : NodeSource, (source.listing i parent).length = source.count
  | ⟨_, _, _, _, _, _, children⟩ => by
    rw [listing, count, List.length_cons, NodeSource.length_listingAll]

theorem NodeSource.length_listingAll (i parent : Nat) :
    ∀ sources : List NodeSource, (NodeSource.listingAll i parent sources).length =
      NodeSource.countAll sources
  | [] => rfl
  | source :: sources => by
    rw [listingAll, countAll, List.length_append, NodeSource.length_listing,
      NodeSource.length_listingAll]

end

/-- The nodes that a module adds without its augments. -/
def ModuleSource.listing (i : Nat) (source : ModuleSource) : List Node :=
  { id := ⟨source.name, some source.ns⟩, kind := .module, revision := source.revision,
    className := source.className,
    children := startsFrom (i + 1) (source.children.map NodeSource.count) } ::
    NodeSource.listingAll (i + 1) i source.children

/-- The number of nodes that a module makes without its augments. -/
def ModuleSource.count (source : ModuleSource) : Nat :=
  NodeSource.countAll source.children + 1

theorem ModuleSource.length_listing (i : Nat) (source : ModuleSource) :
    (source.listing i).length = source.count := by
  rw [listing, List.length_cons, NodeSource.length_listingAll, count]

/-- An augment that has found its target. -/
structure Placement where
  /-- The module that declares the augment. -/
  module : Nat
  target : Nat
  /-- The name of the augment, the path of its target. -/
  name : String
  source : AugmentSource

/-- The nodes that an augment adds from a number on. -/
def Placement.listing (i : Nat) (p : Placement) : List Node :=
  { id := ⟨p.name, none⟩, kind := .augment, parent := some p.module, target := some p.target,
    className := p.source.className,
    children := startsFrom (i + 1) (p.source.children.map NodeSource.count) } ::
    NodeSource.listingAll (i + 1) i p.source.children

/-- The nodes of several listings that follow one after the other from a number on. -/
def listFrom {α : Type} (listing : Nat → α → List Node) : Nat → List α → List Node
  | _, [] => []
  | i, a :: as => listing i a ++ listFrom listing (i + (listing i a).length) as

theorem listFrom_concat {α : Type} (listing : Nat → α → List Node) (i : Nat) (as : List α) (a : α) :
    listFrom listing i (as ++ [a]) =
      listFrom listing i as ++ listing (i + (listFrom listing i as).length) a := by
  induction as generalizing i with
  | nil => simp [listFrom]
  | cons b as ih => simp [listFrom, ih, Nat.add_assoc]

/-- The augments that modules declare if their nodes start at a number, each with the number of its
module. -/
def declaredAugments : Nat → List ModuleSource → List (Nat × AugmentSource)
  | _, [] => []
  | i, source :: sources =>
    source.augments.map (fun a => (i, a)) ++ declaredAugments (i + source.count) sources

namespace Draft

variable {d d' : Draft} {i p : Nat}

/-! ### Adding nodes below a node -/

/-- Drafts are the same if the same nodes stand at every number. -/
theorem ext_nodes (hid : d.model.id = d'.model.id) (hmodules : d.model.modules = d'.model.modules)
    (hnodes : ∀ i : Nat, d.model.nodes[i]? = d'.model.nodes[i]?) : d = d' := by
  obtain ⟨⟨id, nodes, modules⟩⟩ := d
  obtain ⟨⟨id', nodes', modules'⟩⟩ := d'
  obtain rfl : nodes = nodes' := Array.ext_getElem? hnodes
  cases hid
  cases hmodules
  rfl

/-- More nodes at the end, some of which are children of one that is there. -/
def append (d : Draft) (p : Nat) (children : List Nat) (nodes : List Node) : Draft :=
  ⟨{ d.model with
      nodes := d.model.nodes.modify p (Node.addChildren · children) ++ nodes.toArray }⟩

theorem size_append (d : Draft) (p : Nat) (children : List Nat) (nodes : List Node) :
    (d.append p children nodes).size = d.size + nodes.length := by
  simp [append, size]

theorem getElem?_append (d : Draft) (p : Nat) (children : List Nat) (nodes : List Node) (i : Nat) :
    (d.append p children nodes).model.nodes[i]? =
      if i < d.size then
        d.model.nodes[i]?.map fun n => if p = i then n.addChildren children else n
      else nodes[i - d.size]? := by
  by_cases h : i < d.size
  · have hi : i < d.model.nodes.size := h
    rw [if_pos h]
    simp only [append, Array.getElem?_append, Array.size_modify, hi, if_true,
      Array.getElem?_modify]
    split <;> simp
  · have hi : ¬ i < d.model.nodes.size := h
    rw [if_neg h]
    simp [append, size, Array.getElem?_append, hi]

theorem append_children_nil (d : Draft) (p : Nat) (nodes : List Node) :
    d.append p [] nodes = ⟨{ d.model with nodes := d.model.nodes ++ nodes.toArray }⟩ := by
  have hkeep : d.model.nodes.modify p (Node.addChildren · []) = d.model.nodes := by
    refine Array.ext_getElem? fun i => ?_
    rw [Array.getElem?_modify]
    split <;> simp [Node.addChildren]
  rw [append, hkeep]

theorem append_nil (d : Draft) (p : Nat) : d.append p [] [] = d := by
  rw [append_children_nil]
  simp

theorem insert_eq_append {node : Node} (h : node.parent = some p) :
    d.insert node = d.append p [d.size] [node] := by
  simp [insert, append, h, Node.addChildren]

/-- A property of the newest node. -/
theorem update_append (d : Draft) (p : Nat) (children : List Nat) (node : Node)
    (change : Node → Node) :
    (d.append p children [node]).update d.size change = d.append p children [change node] := by
  refine ext_nodes rfl rfl fun i => ?_
  simp only [update, Array.getElem?_modify, getElem?_append]
  split
  · next h =>
    subst h
    simp
  · next h =>
    split
    · rfl
    · rw [List.getElem?_eq_none, List.getElem?_eq_none] <;> simp <;> omega

/-- Nodes below the newest node. -/
theorem append_newest (d : Draft) (p : Nat) (node : Node) (children children' : List Nat)
    (nodes : List Node) :
    (d.append p children [node]).append d.size children' nodes =
      d.append p children (node.addChildren children' :: nodes) := by
  refine ext_nodes rfl rfl fun i => ?_
  simp only [getElem?_append, size_append, List.length_singleton]
  rcases Nat.lt_trichotomy i d.size with h | rfl | h
  · have hne : d.size ≠ i := by omega
    simp [h, hne, Nat.lt_succ_of_lt h, Function.comp_def]
  · simp
  · obtain ⟨k, rfl⟩ := Nat.exists_eq_add_of_lt h
    have h₁ : ¬ d.size + k + 1 < d.size + 1 := by omega
    have h₂ : ¬ d.size + k + 1 < d.size := by omega
    have h₃ : d.size + k + 1 - (d.size + 1) = k := by omega
    have h₄ : d.size + k + 1 - d.size = k + 1 := by omega
    rw [if_neg h₁, if_neg h₂, h₃, h₄, List.getElem?_cons_succ]

/-- More nodes below the same node. -/
theorem append_append (hp : p < d.size) (children children' : List Nat) (nodes nodes' : List Node) :
    (d.append p children nodes).append p children' nodes' =
      d.append p (children ++ children') (nodes ++ nodes') := by
  refine ext_nodes rfl rfl fun i => ?_
  simp only [getElem?_append, size_append]
  by_cases h : i < d.size
  · simp only [h, Nat.lt_add_right _ h, if_true, Option.map_map]
    congr 1
    funext n
    by_cases hpi : p = i <;> simp [hpi, Node.addChildren]
  · have hpi : p ≠ i := by omega
    rw [if_neg h, if_neg h, List.getElem?_append]
    by_cases h' : i < d.size + nodes.length
    · have : i - d.size < nodes.length := by omega
      simp [h', this, hpi]
    · have h₁ : ¬ i - d.size < nodes.length := by omega
      rw [if_neg h', if_neg h₁, Nat.sub_add_eq]

/-! ### Declarations -/

theorem addChild_eq {kind : Kind} {name : String} (h : d.addChild p kind name = .ok d') :
    p < d.size ∧ d' = d.append p [d.size] [{ id := ⟨name, none⟩, kind, parent := some p }] := by
  have hd : d.perform (.addChild p kind name) = .ok d' := h
  cases perform_eq_ok_iff.1 hd with
  | addChild hparent => exact ⟨Model.lt_of_kindAt hparent, insert_eq_append rfl⟩
  | change hchange => cases hchange

section Properties

variable {children : List Nat} {node : Node}

/-- A namespace that is declared is set, and no node has one before. -/
theorem setNamespace_append {ns : Option String}
    (h : (match ns with
      | some ns => (d.append p children [node]).setNamespace d.size ns
      | none => .ok (d.append p children [node])) = Except.ok d')
    (hnode : node.id.ns = none) :
    d' = d.append p children [{ node with id := { node.id with ns } }] := by
  cases ns with
  | none =>
    cases h
    rw [← hnode]
  | some ns => rw [update_of_perform (.setNamespace d.size ns) h rfl, update_append]

/-- A class that is declared is set, and no node has one before. -/
theorem setDeclaredClass_append {className : Option String}
    (h : (d.append p children [node]).setDeclaredClass d.size className = .ok d')
    (hnode : node.className = none) :
    d' = d.append p children [{ node with className }] := by
  cases className with
  | none =>
    cases h
    rw [← hnode]
  | some className => rw [update_of_perform (.setClass d.size className) h rfl, update_append]

/-- Keys that are declared are set, and no node has any before. -/
theorem setKeys_append {keys : List String}
    (h : (if keys.isEmpty then .ok (d.append p children [node])
      else (d.append p children [node]).setKeys d.size keys) = Except.ok d')
    (hnode : node.keys = []) :
    d' = d.append p children [{ node with keys }] := by
  split at h
  · next hnil =>
    cases h
    rw [List.isEmpty_iff.1 hnil, ← hnode]
  · rw [update_of_perform (.setKeys d.size keys) h rfl, update_append]

/-- A node that is declared to be state is no configuration any more. -/
theorem setConfig_append {config : Bool}
    (h : (if config then .ok (d.append p children [node])
      else (d.append p children [node]).setConfig d.size false) = Except.ok d')
    (hnode : node.config = true) :
    d' = d.append p children [{ node with config }] := by
  cases config with
  | true =>
    cases h
    rw [← hnode]
  | false => rw [update_of_perform (.setConfig d.size false) h rfl, update_append]

end Properties

/-- Declarations that are accepted add the nodes of their listing. -/
theorem graft_listing :
    (∀ d parent (source : NodeSource) d', graft d parent source = .ok d' →
      d' = d.append parent [d.size] (source.listing d.size parent)) ∧
      ∀ d parent (sources : List NodeSource) d', parent < d.size →
        graftAll d parent sources = .ok d' →
        d' = d.append parent (startsFrom d.size (sources.map NodeSource.count))
          (NodeSource.listingAll d.size parent sources) := by
  apply graft.mutual_induct
    (fun d parent source => ∀ d', graft d parent source = .ok d' →
      d' = d.append parent [d.size] (source.listing d.size parent))
    (fun d parent sources => ∀ d', parent < d.size → graftAll d parent sources = .ok d' →
      d' = d.append parent (startsFrom d.size (sources.map NodeSource.count))
        (NodeSource.listingAll d.size parent sources))
  case case1 =>
    intro d parent kind name ns className keys config children i ih d' h
    rw [graft_eq] at h
    obtain ⟨d₁, hchild, h⟩ := Except.bind_eq_ok_iff.1 h
    obtain ⟨d₂, hns, h⟩ := Except.bind_eq_ok_iff.1 h
    obtain ⟨d₃, hclass, h⟩ := Except.bind_eq_ok_iff.1 h
    obtain ⟨d₄, hkeys, h⟩ := Except.bind_eq_ok_iff.1 h
    obtain ⟨d₅, hconfig, h⟩ := Except.bind_eq_ok_iff.1 h
    -- The steps before the nodes below complete the new node property by property.
    obtain ⟨hp, rfl⟩ := addChild_eq hchild
    obtain rfl := setNamespace_append hns rfl
    obtain rfl := setDeclaredClass_append hclass rfl
    obtain rfl := setKeys_append hkeys rfl
    have h₅ : d₅ = d.append parent [d.size]
        [{ id := ⟨name, ns⟩, kind, parent := some parent, className, keys, config }] :=
      setConfig_append hconfig rfl
    subst h₅
    have hsize : (d.append parent [d.size]
        [{ id := ⟨name, ns⟩, kind, parent := some parent, className, keys, config }]).size =
          d.size + 1 := size_append _ _ _ _
    rw [ih _ d' (by omega) h, hsize, append_newest]
    rfl
  case case2 =>
    intro d parent d' hp h
    cases h
    exact (append_nil d parent).symm
  case case3 =>
    intro d parent source sources hsource hsources d' hp h
    rw [graftAll] at h
    obtain ⟨d₁, h₁, h⟩ := Except.bind_eq_ok_iff.1 h
    have hd₁ := hsource d₁ h₁
    have hsize : d₁.size = d.size + source.count := by
      rw [hd₁, size_append, NodeSource.length_listing]
    rw [hsources d₁ d' (by omega) h, hsize, hd₁, append_append hp]
    rfl

/-- The class of the newest node and the nodes below it. -/
theorem newest_listing {node : Node} {cs : List Nat} {className : Option String}
    {children : List NodeSource} {d₁ : Draft}
    (hclass : (d.append p cs [node]).setDeclaredClass d.size className = .ok d₁)
    (hnode : node.className = none) (h : d₁.graftAll d.size children = .ok d') :
    d' = d.append p cs
      ({ node with className, children :=
          node.children ++ startsFrom (d.size + 1) (children.map NodeSource.count) } ::
        NodeSource.listingAll (d.size + 1) d.size children) := by
  obtain rfl := setDeclaredClass_append hclass hnode
  have hsize : (d.append p cs [{ node with className }]).size = d.size + 1 := size_append _ _ _ _
  rw [graft_listing.2 _ _ _ _ (by omega) h, hsize, append_newest]
  rfl

/-- A module adds the nodes of its listing, of which the first is listed among the modules. -/
theorem graftModule_listing {source : ModuleSource} (h : d.graftModule source = .ok d') :
    d' = ⟨{ d.model with
      nodes := d.model.nodes ++ (source.listing d.size).toArray
      modules := d.model.modules ++ [d.size] }⟩ := by
  obtain ⟨d₁, hclass, h⟩ := Except.bind_eq_ok_iff.1 h
  -- The node of the module is added below no node, so it does not matter which one is named.
  let listed : Draft := ⟨{ d.model with modules := d.model.modules ++ [d.size] }⟩
  have hadd : d.addModule source.name source.ns source.revision = listed.append 0 []
      [{ id := ⟨source.name, some source.ns⟩, kind := .module, revision := source.revision }] := by
    rw [append_children_nil]
    simp [addModule, insert, listed]
  rw [hadd] at hclass
  rw [newest_listing (d := listed) hclass rfl h, append_children_nil]
  rfl

theorem size_update (d : Draft) (i : Nat) (change : Node → Node) :
    (d.update i change).size = d.size := by
  simp [update, size]

/-- What is said about an earlier node, but for its children, and more nodes elsewhere. -/
theorem update_append_of_lt {change : Node → Node} (hi : i < d.size) (children : List Nat)
    (nodes : List Node)
    (hchange : ∀ n, change (n.addChildren children) = (change n).addChildren children) :
    (d.append p children nodes).update i change = (d.update i change).append p children nodes := by
  refine ext_nodes rfl rfl fun j => ?_
  rw [getElem?_append, size_update]
  simp only [update, Array.getElem?_modify, getElem?_append]
  by_cases hij : i = j
  · subst hij
    simp only [hi, if_true, Option.map_map]
    congr 1
    funext n
    by_cases hp : p = i <;> simp [hp, hchange]
  · simp [hij]

theorem addAugment_eq {module target : Nat} (h : d.addAugment module target = .ok d') :
    ∃ t, d.ref target = .ok t ∧ module < d.size ∧
      d' = (d.update target fun n => { n with augments := n.augments ++ [d.size] }).append module
        [d.size] [{ id := ⟨t.targetPath, none⟩, kind := .augment, parent := some module,
                    target := some target }] := by
  have hd : d.perform (.addAugment module target) = .ok d' := h
  cases perform_eq_ok_iff.1 hd with
  | addAugment hmodule htarget =>
    refine ⟨_, htarget, Model.lt_of_kindAt hmodule, ?_⟩
    rw [insert_eq_append rfl, update_append_of_lt (lt_of_ref htarget) _ _ fun n => rfl]
  | change hchange => cases hchange

/-- An augment adds the nodes of its listing and is listed in its module and in its target. -/
theorem graftAugment_listing {module target : Nat} {source : AugmentSource}
    (h : d.graftAugment module target source = .ok d') :
    ∃ t, d.ref target = .ok t ∧ module < d.size ∧
      d' = (d.update target fun n => { n with augments := n.augments ++ [d.size] }).append module
        [d.size] (Placement.listing d.size ⟨module, target, t.targetPath, source⟩) := by
  obtain ⟨d₁, hadd, hrest⟩ := Except.bind_eq_ok_iff.1 h
  obtain ⟨d₂, hclass, hall⟩ := Except.bind_eq_ok_iff.1 hrest
  obtain ⟨t, ht, hmodule, rfl⟩ := addAugment_eq hadd
  refine ⟨t, ht, hmodule, ?_⟩
  have hsize := size_update d target fun n => { n with augments := n.augments ++ [d.size] }
  generalize d.update target (fun n => { n with augments := n.augments ++ [d.size] }) = e
    at hclass hsize ⊢
  rw [← hsize] at hclass hall ⊢
  rw [newest_listing hclass rfl hall]
  rfl

theorem graftModules_listing {sources : List ModuleSource} {augments : List (Nat × AugmentSource)}
    (h : d.graftModules sources = .ok (d', augments)) :
    augments = declaredAugments d.size sources ∧
      d' = ⟨{ d.model with
        nodes := d.model.nodes ++ (listFrom ModuleSource.listing d.size sources).toArray
        modules := d.model.modules ++ startsFrom d.size (sources.map ModuleSource.count) }⟩ := by
  induction sources generalizing d augments with
  | nil =>
    cases h
    simp [declaredAugments, listFrom, startsFrom]
  | cons source sources ih =>
    obtain ⟨d₁, hsource, h⟩ := Except.bind_eq_ok_iff.1 h
    obtain ⟨⟨d₂, rest⟩, hsources, h⟩ := Except.bind_eq_ok_iff.1 h
    cases h
    have hd₁ := graftModule_listing hsource
    have hsize : d₁.size = d.size + source.count := by
      rw [hd₁]
      simp [size, ModuleSource.length_listing]
    obtain ⟨hrest, hd'⟩ := ih hsources
    rw [hrest, hd', hsize, hd₁]
    simp [declaredAugments, listFrom, startsFrom, ModuleSource.length_listing]

end Draft

end YangBinding.Schema
