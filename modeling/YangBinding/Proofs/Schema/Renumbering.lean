import YangBinding.Proofs.Schema.Placing

/-!
# Nodes under other numbers

Two drafts of the same source may have the same nodes in another order. If the numbers of the one
are translated into those of the other, every node is declared alike, with the links translated;
only the augments that a node has may differ, and these may still be missing in one of the drafts.

Schema paths are made for that. What a name leads to from a node is one of the nodes declared in it
or in an augment of it, and where these have distinct names it does not matter in which order they
come. A path that resolves in the smaller draft therefore leads to the same node in the larger one,
and a path of the larger one resolves in the smaller one as soon as all nodes on the way are there.

## Main definitions

* `Model.Embeds`, `Model.Renumbers` — some, or all, nodes of a model are those of another one
* `Model.Steps` — the nodes that a name of a schema path may lead to
* `Model.DistinctNames` — these have distinct names

## Main results

* `Model.Embeds.resolveAt`, `Model.Embeds.exists_resolveAt` — paths lead to the same nodes
* `Placement.map_relabel_listing` — what is listed at other numbers
* `Model.Renumbers.freeze` — drafts with the same nodes are frozen alike
-/

namespace YangBinding.Schema

/-- The node with its links translated. -/
def Node.relabel (f : Nat → Nat) (n : Node) : Node :=
  { n with
    parent := n.parent.map f
    children := n.children.map f
    augments := n.augments.map f
    target := n.target.map f }

namespace Model

/-- The nodes of a model are nodes of another one under other numbers. They are declared alike, and
the modules are in the same order. -/
structure Embeds (f : Nat → Nat) (m m' : Model) : Prop where
  id : m'.id = m.id
  modules : m'.modules = m.modules.map f
  inj : ∀ {i j}, i < m.nodes.size → j < m.nodes.size → f i = f j → i = j
  node : ∀ {i}, i < m.nodes.size →
    m'.nodes[f i]?.map m'.core = m.nodes[i]?.map fun n => (m.core n).relabel f

/-- The nodes of a model are all the nodes of another one. -/
structure Renumbers (f : Nat → Nat) (m m' : Model) : Prop extends Embeds f m m' where
  surj : ∀ {j}, j < m'.nodes.size → ∃ i < m.nodes.size, f i = j

/-- A name of a schema path may lead from one node to the other, which is declared in it or in an
augment of it. -/
def Steps (m : Model) (i c : Nat) : Prop :=
  m.parentAt c = some i ∧ m.kindAt c ≠ some .augment ∨
    ∃ a, m.parentAt c = some a ∧ m.targetAt a = some i

/-- What is declared in a node, together with what augments contribute to it, has distinct names. -/
def DistinctNames (m : Model) : Prop :=
  ∀ i, ((m.declaredAt i ++ m.contributedAt i).map m.nameAt).Nodup

variable {f : Nat → Nat} {m m' : Model} {i j c : Nat} {name : String}

/-! ### Steps of a path -/

theorem mem_declaredAt_append_iff (hm : m.Linked) :
    c ∈ m.declaredAt i ++ m.contributedAt i ↔ m.Steps i c := by
  simp only [List.mem_append, declaredAt, contributedAt, List.mem_filter, List.mem_flatMap,
    hm.mem_children, hm.mem_augments, bne_iff_ne, Steps]
  exact or_congr_right (exists_congr fun a => and_comm)

theorem Steps.lt (h : m.Steps i c) (hm : m.Linked) : i < c := by
  obtain ⟨hc, -⟩ | ⟨a, hc, ha⟩ := h
  · exact hm.parent_lt hc
  · exact (hm.target_lt ha).trans (hm.parent_lt hc)

theorem Steps.lt_size (h : m.Steps i c) : c < m.nodes.size := by
  obtain ⟨hc, -⟩ | ⟨a, hc, -⟩ := h
  · exact lt_of_parentAt hc
  · exact lt_of_parentAt hc

theorem steps_of_pathChildAt (hm : m.Linked) (hc : m.pathChildAt name i = some c) :
    m.Steps i c := by
  rw [pathChildAt, ← List.find?_append] at hc
  exact (mem_declaredAt_append_iff hm).1 (List.mem_of_find?_eq_some hc)

/-- The nodes on a path come one after the other. -/
theorem le_of_foldlM_pathChildAt {names : List String} (hm : m.Linked)
    (hj : names.foldlM (fun i name => m.pathChildAt (qualifiedName name).2 i) i = some j) :
    i ≤ j := by
  induction names generalizing i with
  | nil =>
    cases hj
    exact Nat.le_refl _
  | cons name names ih =>
    obtain ⟨k, hk, hj⟩ := Option.bind_eq_some_iff.1 hj
    exact ((steps_of_pathChildAt hm hk).lt hm).le.trans (ih hj)

theorem lt_of_findSome?_pathChildAt {modules : List Nat} (hm : m.Linked)
    (hc : modules.findSome? (m.pathChildAt name) = some c) : c < m.nodes.size := by
  obtain ⟨i, -, hi⟩ := List.exists_of_findSome?_eq_some hc
  exact (steps_of_pathChildAt hm hi).lt_size

/-- Names lead to one node at most. -/
def Decided (m : Model) : Prop :=
  ∀ {i c c'}, m.Steps i c → m.Steps i c' → m.nameAt c = m.nameAt c' → c = c'

theorem DistinctNames.decided (h : m.DistinctNames) (hm : m.Linked) : m.Decided :=
  fun {i _ _} hc hc' hname => List.eq_of_nodup_map (h i) ((mem_declaredAt_append_iff hm).2 hc)
    ((mem_declaredAt_append_iff hm).2 hc') hname

/-- Freezing a draft changes no name and no link. -/
theorem DistinctNames.of_freeze {d : Draft} (h : m.DistinctNames) (hd : d.model.Linked)
    (hm : d.freeze = .ok m) : d.model.DistinctNames := by
  have hsame := sameLinks_of_freeze hd hm
  have hname : m.nameAt = d.model.nameAt := funext (nameAt_of_freeze hd hm)
  simpa only [DistinctNames, hsame.declaredAt, hsame.contributedAt, hname] using h

/-- Where names are decided, a name leads to the node that has it. -/
theorem pathChildAt_eq_some_iff (hm : m.Linked) (hd : m.Decided) :
    m.pathChildAt name i = some c ↔ m.Steps i c ∧ m.nameAt c = some name := by
  constructor
  · intro h
    refine ⟨steps_of_pathChildAt hm h, ?_⟩
    rw [pathChildAt, ← List.find?_append] at h
    simpa using List.find?_some h
  · rintro ⟨hc, hname⟩
    rw [pathChildAt, ← List.find?_append]
    have hmem := (mem_declaredAt_append_iff hm).2 hc
    refine List.find?_eq_some_of_unique hmem (by simpa using hname) fun b hb hb' => ?_
    exact hd ((mem_declaredAt_append_iff hm).1 hb) hc (by rw [hname]; simpa using hb')

/-! ### What nodes under other numbers have in common -/

namespace Embeds

variable (h : m.Embeds f m')
include h

theorem exists_node (hi : i < m.nodes.size) : ∃ n n', m.nodes[i]? = some n ∧
    m'.nodes[f i]? = some n' ∧ m'.core n' = (m.core n).relabel f := by
  have hnode := h.node hi
  rw [Array.getElem?_eq_getElem hi, Option.map_some] at hnode
  obtain ⟨n', hn', heq⟩ := Option.map_eq_some_iff.1 hnode
  exact ⟨_, n', Array.getElem?_eq_getElem hi, hn', heq⟩

theorem lt (hi : i < m.nodes.size) : f i < m'.nodes.size := by
  obtain ⟨_, _, -, hn', -⟩ := h.exists_node hi
  exact (Array.getElem?_eq_some_iff.1 hn').1

/-- Kinds, names and links up are the same. -/
theorem upward : m.Upward f m' := by
  constructor <;> intro i hi <;> obtain ⟨n, n', hn, hn', heq⟩ := h.exists_node hi
  case kindAt =>
    simpa [kindAt, hn, hn', Model.core, Node.relabel] using congrArg Node.kind heq
  case nameAt =>
    simpa [nameAt, hn, hn', Model.core, Node.relabel] using congrArg (fun n => n.id.name) heq
  case parentAt =>
    simpa [parentAt, hn, hn', Model.core, Node.relabel] using congrArg Node.parent heq
  case targetAt =>
    simpa [targetAt, hn, hn', Model.core, Node.relabel] using congrArg Node.target heq

theorem declaredAt (hi : i < m.nodes.size) : m'.declaredAt (f i) = (m.declaredAt i).map f := by
  obtain ⟨n, n', hn, hn', heq⟩ := h.exists_node hi
  simpa [Model.declaredAt, childrenAt, hn, hn', Model.core, Node.relabel] using
    congrArg Node.children heq

/-- What is declared in a node has the same kinds and names. -/
theorem any_declaredAt (hm : m.Linked) (hi : i < m.nodes.size)
    (p : Option Kind → Option String → Bool) :
    ((m'.declaredAt (f i)).any fun c => p (m'.kindAt c) (m'.nameAt c)) =
      (m.declaredAt i).any fun c => p (m.kindAt c) (m.nameAt c) := by
  rw [h.declaredAt hi, List.any_map, Bool.eq_iff_iff, List.any_eq_true, List.any_eq_true]
  refine exists_congr fun c => and_congr_right fun hc => ?_
  have hlt := hm.lt_of_mem_children (List.mem_of_mem_filter hc)
  rw [Function.comp_apply, h.upward.kindAt hlt, h.upward.nameAt hlt]

/-- A name may lead from one node to another exactly if it may do so under the other numbers. -/
theorem steps_iff (hm : m.Linked) (hi : i < m.nodes.size) (hc : c < m.nodes.size) :
    m'.Steps (f i) (f c) ↔ m.Steps i c := by
  have hup := h.upward
  have hparent {j p : Nat} (hj : j < m.nodes.size) (hp : p < m.nodes.size) :
      m'.parentAt (f j) = some (f p) ↔ m.parentAt j = some p := by
    rw [hup.parentAt hj, Option.map_eq_some_iff]
    constructor
    · rintro ⟨q, hq, heq⟩
      rwa [← h.inj ((hm.parent_lt hq).trans hj) hp heq]
    · exact fun hq => ⟨p, hq, rfl⟩
  rw [Steps, Steps, hparent hc hi, hup.kindAt hc, hup.parentAt hc]
  -- A step through an augment passes two links, and both are renumbered.
  refine or_congr_right ?_
  constructor
  · rintro ⟨_, hfa, ht⟩
    obtain ⟨a, ha, rfl⟩ := Option.map_eq_some_iff.1 hfa
    have hlt : a < m.nodes.size := (hm.parent_lt ha).trans hc
    rw [hup.targetAt hlt] at ht
    obtain ⟨t, ht, heq⟩ := Option.map_eq_some_iff.1 ht
    exact ⟨a, ha, by rwa [← h.inj ((hm.target_lt ht).trans hlt) hi heq]⟩
  · rintro ⟨a, ha, ht⟩
    have hlt : a < m.nodes.size := (hm.parent_lt ha).trans hc
    exact ⟨f a, by rw [ha, Option.map_some], by rw [hup.targetAt hlt, ht, Option.map_some]⟩

/-- Names are decided in the smaller draft if they are in the larger one. -/
theorem decided (hm : m.Linked) (hd : m'.Decided) : m.Decided := by
  intro i c c' hc hc' hname
  have hi : i < m.nodes.size := (hc.lt hm).trans hc.lt_size
  refine h.inj hc.lt_size hc'.lt_size (hd ((h.steps_iff hm hi hc.lt_size).2 hc)
    ((h.steps_iff hm hi hc'.lt_size).2 hc') ?_)
  rw [h.upward.nameAt hc.lt_size, h.upward.nameAt hc'.lt_size, hname]

/-! ### Paths -/

section Path

variable (hm : m.Linked) (hm' : m'.Linked) (hd : m'.Decided)
include hm hm' hd

/-- A name leads to the same node. -/
theorem pathChildAt_iff (hi : i < m.nodes.size) (hc : c < m.nodes.size) :
    m'.pathChildAt name (f i) = some (f c) ↔ m.pathChildAt name i = some c := by
  rw [pathChildAt_eq_some_iff hm' hd, pathChildAt_eq_some_iff hm (h.decided hm hd),
    h.steps_iff hm hi hc, h.upward.nameAt hc]

omit hd in
/-- In a module, a name leads to the same node or in both drafts to none. -/
theorem pathChildAt_of_module (hi : m.kindAt i = some .module) :
    m'.pathChildAt name (f i) = (m.pathChildAt name i).map f := by
  have hlt := lt_of_kindAt hi
  have hi' : m'.kindAt (f i) = some .module := by rw [h.upward.kindAt hlt, hi]
  rw [Model.pathChildAt, Model.pathChildAt, contributedAt, contributedAt,
    hm.augmentsAt_of_module hi, hm'.augmentsAt_of_module hi', h.declaredAt hlt, List.find?_map]
  simp only [List.flatMap_nil, List.find?_nil, Option.or_none]
  congr 1
  refine List.find?_congr fun c hc => ?_
  rw [Function.comp_apply, h.upward.nameAt (hm.lt_of_mem_children (List.mem_of_mem_filter hc))]

omit hd in
/-- The first name of a path, which is searched in the modules, leads to the same node. -/
theorem findSome?_modules (module : Option String) (name : String) :
    (m'.modules.filter fun i => module.all fun n => m'.nameAt i == some n).findSome?
        (m'.pathChildAt name) =
      ((m.modules.filter fun i => module.all fun n => m.nameAt i == some n).findSome?
        (m.pathChildAt name)).map f := by
  have hmodules : (m'.modules.filter fun i => module.all fun n => m'.nameAt i == some n) =
      (m.modules.filter fun i => module.all fun n => m.nameAt i == some n).map f := by
    rw [h.modules, List.filter_map]
    congr 1
    refine List.filter_congr fun i hi => ?_
    rw [Function.comp_apply, h.upward.nameAt (hm.lt_of_mem_modules hi)]
  rw [hmodules, List.findSome?_map, List.map_findSome?]
  refine List.findSome?_congr fun i hi => ?_
  exact h.pathChildAt_of_module hm hm' (hm.mem_modules.1 (List.mem_of_mem_filter hi))

/-- The names of a path lead on to the same node. -/
theorem foldlM_pathChildAt {names : List String} (hi : i < m.nodes.size)
    (hc : names.foldlM (fun i name => m.pathChildAt (qualifiedName name).2 i) i = some c) :
    names.foldlM (fun i name => m'.pathChildAt (qualifiedName name).2 i) (f i) = some (f c) := by
  induction names generalizing i with
  | nil =>
    cases hc
    rfl
  | cons name names ih =>
    rw [List.foldlM_cons] at hc ⊢
    obtain ⟨j, hj, hc⟩ := Option.bind_eq_some_iff.1 hc
    have hlt := (steps_of_pathChildAt hm hj).lt_size
    rw [(h.pathChildAt_iff hm hm' hd hi hlt).2 hj]
    exact ih hlt hc

/-- The names of a path lead on to the same node as soon as all nodes before it are there. -/
theorem exists_foldlM_pathChildAt {names : List String} (hi : i < m.nodes.size)
    (hj : names.foldlM (fun i name => m'.pathChildAt (qualifiedName name).2 i) (f i) = some j)
    (hthere : ∀ k ≤ j, k < m'.nodes.size → ∃ i < m.nodes.size, f i = k) :
    ∃ c, names.foldlM (fun i name => m.pathChildAt (qualifiedName name).2 i) i = some c ∧
      f c = j := by
  induction names generalizing i with
  | nil =>
    cases hj
    exact ⟨i, rfl, rfl⟩
  | cons name names ih =>
    rw [List.foldlM_cons] at hj
    obtain ⟨k, hk, hj⟩ := Option.bind_eq_some_iff.1 hj
    -- What the first name leads to comes before the end of the path, so it is there.
    have hstep := steps_of_pathChildAt hm' hk
    obtain ⟨c, hc, rfl⟩ := hthere k (le_of_foldlM_pathChildAt hm' hj) hstep.lt_size
    obtain ⟨c', hc', rfl⟩ := ih hc hj
    refine ⟨c', ?_, rfl⟩
    rw [List.foldlM_cons, (h.pathChildAt_iff hm hm' hd hi hc).1 hk]
    exact hc'

/-- A path that resolves leads to the same node. -/
theorem resolveAt {path : String} (hi : m.resolveAt path = some i) :
    m'.resolveAt path = some (f i) := by
  rw [Model.resolveAt] at hi ⊢
  cases hnames : pathNames path with
  | nil => simp [hnames] at hi
  | cons first rest =>
    simp only [hnames] at hi ⊢
    obtain ⟨top, htop, hrest⟩ := Option.bind_eq_some_iff.1 hi
    rw [h.findSome?_modules hm hm', htop]
    exact h.foldlM_pathChildAt hm hm' hd (lt_of_findSome?_pathChildAt hm htop) hrest

/-- A path resolves as soon as all nodes before its end are there. -/
theorem exists_resolveAt {path : String} (hj : m'.resolveAt path = some j)
    (hthere : ∀ k ≤ j, k < m'.nodes.size → ∃ i < m.nodes.size, f i = k) :
    ∃ i, m.resolveAt path = some i ∧ f i = j := by
  rw [Model.resolveAt] at hj ⊢
  cases hnames : pathNames path with
  | nil => simp [hnames] at hj
  | cons first rest =>
    simp only [hnames] at hj ⊢
    rw [h.findSome?_modules hm hm'] at hj
    obtain ⟨_, htop, hrest⟩ := Option.bind_eq_some_iff.1 hj
    obtain ⟨top, htop', rfl⟩ := Option.map_eq_some_iff.1 htop
    rw [htop']
    exact h.exists_foldlM_pathChildAt hm hm' hd (lt_of_findSome?_pathChildAt hm htop') hrest hthere

end Path

end Embeds

end Model

/-! ### Listings at other numbers -/

section Listing

variable {f : Nat → Nat} {i i' parent : Nat}

theorem NodeSource.count_pos (source : NodeSource) : 0 < source.count := by
  cases source
  rw [count]
  omega

/-- Where nodes start if they are moved as a whole. -/
theorem map_startsFrom {sources : List NodeSource}
    (hf : ∀ k < NodeSource.countAll sources, f (i + k) = i' + k) :
    (startsFrom i (sources.map NodeSource.count)).map f =
      startsFrom i' (sources.map NodeSource.count) := by
  induction sources generalizing i i' with
  | nil => rfl
  | cons source sources ih =>
    rw [NodeSource.countAll] at hf
    have hfirst : f i = i' := hf 0 (Nat.add_pos_left source.count_pos _)
    have hrest : ∀ k < NodeSource.countAll sources,
        f (i + source.count + k) = i' + source.count + k := fun k hk => by
      rw [Nat.add_assoc, Nat.add_assoc, hf _ (by omega)]
    rw [List.map_cons, startsFrom, List.map_cons, hfirst, ih hrest, startsFrom]

mutual

/-- Nodes that are moved as a whole are listed alike. -/
theorem NodeSource.map_relabel_listing : ∀ (source : NodeSource) (i i' parent : Nat),
    (∀ k < source.count, f (i + k) = i' + k) →
      (source.listing i parent).map (Node.relabel f) = source.listing i' (f parent)
  | ⟨kind, name, ns, className, keys, config, children⟩, i, i', parent, hf => by
    rw [count] at hf
    have hfirst : f i = i' := hf 0 (by omega)
    have hrest : ∀ k < countAll children, f (i + 1 + k) = i' + 1 + k := fun k hk => by
      rw [Nat.add_assoc, Nat.add_assoc, hf _ (by omega)]
    rw [listing, List.map_cons, NodeSource.map_relabel_listingAll children (i + 1) (i' + 1) i hrest,
      hfirst, listing, Node.relabel, map_startsFrom hrest]
    rfl

theorem NodeSource.map_relabel_listingAll : ∀ (sources : List NodeSource) (i i' parent : Nat),
    (∀ k < NodeSource.countAll sources, f (i + k) = i' + k) →
      (NodeSource.listingAll i parent sources).map (Node.relabel f) =
        NodeSource.listingAll i' (f parent) sources
  | [], _, _, _, _ => rfl
  | source :: sources, i, i', parent, hf => by
    rw [countAll] at hf
    rw [listingAll, List.map_append,
      NodeSource.map_relabel_listing source i i' parent fun k hk => hf k (by omega),
      NodeSource.map_relabel_listingAll sources (i + source.count) (i' + source.count) parent
        fun k hk => by rw [Nat.add_assoc, Nat.add_assoc, hf _ (by omega)], listingAll]

end

/-- The number of nodes that an augment adds. -/
def Placement.count (p : Placement) : Nat := NodeSource.countAll p.source.children + 1

theorem Placement.length_listing (i : Nat) (p : Placement) : (p.listing i).length = p.count := by
  rw [listing, List.length_cons, NodeSource.length_listingAll, count]

/-- An augment that is moved as a whole is listed alike. -/
theorem Placement.map_relabel_listing (p : Placement) (hf : ∀ k < p.count, f (i + k) = i' + k) :
    (p.listing i).map (Node.relabel f) =
      Placement.listing i' { p with module := f p.module, target := f p.target } := by
  rw [count] at hf
  have hfirst : f i = i' := hf 0 (by omega)
  have hrest : ∀ k < NodeSource.countAll p.source.children, f (i + 1 + k) = i' + 1 + k :=
    fun k hk => by rw [Nat.add_assoc, Nat.add_assoc, hf _ (by omega)]
  rw [listing, List.map_cons, NodeSource.map_relabel_listingAll _ (i + 1) (i' + 1) i hrest, hfirst,
    listing, Node.relabel, map_startsFrom hrest]
  rfl

end Listing

/-! ### Frozen drafts -/

/-- Which keys are declared is decided by the leaves among what is declared in the list. -/
theorem Draft.undeclaredKey?_index {m : Model} {r : Ref} (hr : r.model = m) (hm : m.Linked) :
    undeclaredKey? r = if r.kind == .list then r.keys.find? fun key =>
      !(m.declaredAt r.index).any fun c => m.kindAt c == some .leaf && m.nameAt c == some key
    else none := by
  have hany (key : String) : (r.children.any fun c => c.kind == .leaf && c.name == key) =
      (m.declaredAt r.index).any fun c => m.kindAt c == some .leaf && m.nameAt c == some key := by
    rw [Model.declaredAt, ← Ref.map_index_children hr hm, List.filter_map, List.any_map,
      List.any_filter, Bool.eq_iff_iff, List.any_eq_true, List.any_eq_true]
    refine exists_congr fun c => and_congr_right fun hc => ?_
    have hc := (Ref.model_of_mem_children hc).trans hr
    simp only [Function.comp_apply, Ref.kindAt_index hc, Ref.nameAt_index hc]
    cases c.kind <;> simp
  simp only [undeclaredKey?, hany]

namespace Model

variable {f : Nat → Nat} {d d' : Draft} {m' : Model} {i : Nat}

theorem core_inheriting {m : Model} (hsame : d.model.SameLinks m) (done : Array Node) (n : Node) :
    m.core (Draft.inheriting done n) =
      { d.model.core n with id := (Draft.inheriting done n).id } := by
  have hkind : m.kindAt = d.model.kindAt := funext hsame.kind
  simp only [core, hkind, Draft.inheriting]

theorem Embeds.keys_eq {m : Model} {r r' : Ref} (h : m.Embeds f m') (hr : r.model = m)
    (hr' : r'.model = m') (hi : r'.index.val = f r.index) : r'.keys = r.keys := by
  subst hr hr'
  obtain ⟨n, n', hn, hn', heq⟩ := h.exists_node r.index.isLt
  rw [← hi] at hn'
  obtain rfl : r.node = n :=
    Option.some.inj ((Array.getElem?_eq_getElem r.index.isLt).symm.trans hn)
  obtain rfl : r'.node = n' :=
    Option.some.inj ((Array.getElem?_eq_getElem r'.index.isLt).symm.trans hn')
  simpa [Model.core, Node.relabel, Ref.keys] using congrArg Node.keys heq

/-- The same keys are declared, by the same leaves. -/
theorem Embeds.undeclaredKey?_eq {m : Model} {r r' : Ref} (h : m.Embeds f m') (hm : m.Linked)
    (hm' : m'.Linked) (hr : r.model = m) (hr' : r'.model = m') (hi : r'.index.val = f r.index) :
    Draft.undeclaredKey? r' = Draft.undeclaredKey? r := by
  rw [Draft.undeclaredKey?_index hr' hm', Draft.undeclaredKey?_index hr hm,
    Ref.kind_of_upward h.upward hr hr' hi, h.keys_eq hr hr' hi, hi]
  have hlt : r.index.val < m.nodes.size := hr ▸ r.index.isLt
  have hany (key : String) := h.any_declaredAt hm hlt fun kind name =>
    kind == some .leaf && name == some key
  simp only [hany]

/-- Nodes inherit the same namespaces under other numbers: by induction on the way up. -/
theorem Embeds.id_inherited (h : d.model.Embeds f d'.model) (hm : d.model.Linked)
    (hm' : d'.model.Linked) (hi : i < d.model.nodes.size) :
    d'.inherited.nodes[f i]?.map Node.id = d.inherited.nodes[i]?.map Node.id := by
  induction i using Nat.strongRecOn with
  | ind i ih =>
    obtain ⟨n, n', hn, hn', heq⟩ := h.exists_node hi
    have hid : n'.id = n.id := by simpa [Model.core, Node.relabel] using congrArg Node.id heq
    have hparent : n'.parent = n.parent.map f := by
      simpa [Model.core, Node.relabel] using congrArg Node.parent heq
    have hns : (n'.parent.bind fun p => d'.inherited.nodes[p]?).bind (fun p => p.id.ns) =
        (n.parent.bind fun p => d.inherited.nodes[p]?).bind fun p => p.id.ns := by
      rw [hparent]
      cases hp : n.parent with
      | none => rfl
      | some p =>
        have hlt : p < i := hm.parent_lt (by simp [parentAt, hn, hp])
        have := congrArg (Option.bind · Id.ns) (ih p hlt (hlt.trans hi))
        simpa [Option.bind_map, Function.comp_def] using this
    rw [getElem?_inherited hm, getElem?_inherited hm', hn, hn']
    simp only [Option.map_some, Draft.inheriting, hid, hns]

/-- Namespaces are passed on alike. -/
theorem Embeds.inherited (h : d.model.Embeds f d'.model) (hm : d.model.Linked)
    (hm' : d'.model.Linked) : d.inherited.Embeds f d'.inherited := by
  refine ⟨h.id, h.modules, fun hi hj => h.inj (size_inherited hm ▸ hi) (size_inherited hm ▸ hj),
    fun {i} hi => ?_⟩
  rw [size_inherited hm] at hi
  obtain ⟨n, n', hn, hn', heq⟩ := h.exists_node hi
  have hid := h.id_inherited hm hm' hi
  rw [getElem?_inherited hm, getElem?_inherited hm', hn, hn'] at hid ⊢
  have hid := Option.some.inj hid
  simp only [Option.map_some, core_inheriting (sameLinks_inherited hm),
    core_inheriting (sameLinks_inherited hm'), heq, hid]
  rfl

/-- Drafts with the same nodes are frozen alike. -/
theorem Renumbers.freeze (h : d.model.Renumbers f d'.model) (hm : d.model.Linked)
    (hm' : d'.model.Linked) (hfreeze : d'.freeze = .ok m') :
    ∃ m, d.freeze = .ok m ∧ m.Renumbers f m' := by
  obtain ⟨hmodules, rfl, hkeys⟩ := freeze_eq_ok_iff.1 hfreeze
  have hembeds := h.toEmbeds.inherited hm hm'
  have hlinked := hm.of_sameLinks (sameLinks_inherited hm)
  have hlinked' := hm'.of_sameLinks (sameLinks_inherited hm')
  refine ⟨_, freeze_eq_ok_iff.2 ⟨?_, rfl, fun r hr => ?_⟩, hembeds, ?_⟩
  · intro hnil
    rw [h.modules, hnil] at hmodules
    exact hmodules rfl
  · have hr := Ref.model_of_mem_refs hr
    have hi : r.index.val < d.inherited.nodes.size := hr ▸ r.index.isLt
    let r' : Ref := ⟨d'.inherited, f r.index, hembeds.lt hi⟩
    have hsame : Draft.undeclaredKey? r' = Draft.undeclaredKey? r :=
      hembeds.undeclaredKey?_eq hlinked hlinked' hr rfl rfl
    rw [← hsame]
    exact hkeys r' (Ref.mem_refs_iff.2 rfl)
  · intro j hj
    rw [size_inherited hm'] at hj
    obtain ⟨i, hi, rfl⟩ := h.surj hj
    exact ⟨i, (size_inherited hm).symm ▸ hi, rfl⟩

end Model

end YangBinding.Schema
