import Mathlib.Data.List.Find
import YangBinding.Proofs.Schema.Arena

/-!
# Schema paths in a growing draft

An augment that is added to a draft makes more paths resolve, and changes nothing about those that
resolve already: what a node declares is looked at before what augments contribute to it, and
earlier augments before later ones. The walk along a path is therefore taken by numbers, which stay
the same while the draft grows, and the numbers that it passes in a draft are passed in every later
one.

## Main definitions

* `Model.resolveAt` — the number of the node at a schema path
* `Model.Later` — a model to which augments have been added
* `Model.Upward` — a model in which the nodes of another have the same links up, under other numbers

## Main results

* `Draft.resolve?_index` — the walk by numbers is the walk along the nodes
* `Model.Later.resolveAt`, `Ref.targetPath_of_upward` — what resolves keeps its place, and places
  keep their names
-/

namespace YangBinding.Schema

namespace Model

/-! ### Paths by number -/

def nameAt (m : Model) (i : Nat) : Option String := m.nodes[i]?.map fun n => n.id.name

/-- What a node declares itself, without the augments that a module declares. -/
def declaredAt (m : Model) (i : Nat) : List Nat :=
  (m.childrenAt i).filter fun c => m.kindAt c != some .augment

/-- What augments contribute to a node. -/
def contributedAt (m : Model) (i : Nat) : List Nat := (m.augmentsAt i).flatMap m.childrenAt

/-- The child that a name of a schema path leads to. -/
def pathChildAt (m : Model) (name : String) (i : Nat) : Option Nat :=
  ((m.declaredAt i).find? fun c => m.nameAt c == some name).or
    ((m.contributedAt i).find? fun c => m.nameAt c == some name)

/-- The node at a schema path. -/
def resolveAt (m : Model) (path : String) : Option Nat :=
  match pathNames path with
  | [] => none
  | first :: rest =>
    let modules := m.modules.filter fun i =>
      (qualifiedName first).1.all fun n => m.nameAt i == some n
    (modules.findSome? (m.pathChildAt (qualifiedName first).2)).bind fun top =>
      rest.foldlM (fun i name => m.pathChildAt (qualifiedName name).2 i) top

end Model

namespace Ref

variable {m : Model} {r : Ref}

theorem nameAt_index (h : r.model = m) : m.nameAt r.index = some r.name := by
  subst h
  simp [Model.nameAt, name, id, node]

/-- Nodes that are found by their numbers have these numbers. -/
theorem map_index_filterMap {links : List Nat} {find : Nat → Option Ref}
    (h : ∀ i ∈ links, ∃ r, find i = some r ∧ r.index.val = i) :
    (links.filterMap find).map (·.index.val) = links := by
  induction links with
  | nil => rfl
  | cons i links ih =>
    obtain ⟨r, hr, hi⟩ := h i (by simp)
    rw [List.filterMap_cons_some hr, List.map_cons, hi, ih fun j hj => h j (by simp [hj])]

theorem map_index_children (hr : r.model = m) (h : m.Linked) :
    r.children.map (·.index.val) = m.childrenAt r.index := by
  rw [childrenAt_index hr]
  refine map_index_filterMap fun i hi => ?_
  rw [← childrenAt_index hr] at hi
  have hlt := h.parent_lt (h.mem_children.1 hi)
  have hsize := h.lt_of_mem_children hi
  subst hr
  exact ⟨⟨r.model, i, hsize⟩, by simp [Model.ref?, hlt, hsize], rfl⟩

theorem map_index_augments (hr : r.model = m) (h : m.Linked) :
    r.augments.map (·.index.val) = m.augmentsAt r.index := by
  rw [augmentsAt_index hr]
  refine map_index_filterMap fun i hi => ?_
  rw [← augmentsAt_index hr] at hi
  have hlt := h.target_lt (h.mem_augments.1 hi)
  have hsize := h.lt_of_mem_augments hi
  subst hr
  exact ⟨⟨r.model, i, hsize⟩, by simp [Model.ref?, hlt, hsize], rfl⟩

theorem map_index_moduleRefs (h : m.Linked) : m.moduleRefs.map (·.index.val) = m.modules := by
  refine map_index_filterMap fun i hi => ?_
  have hsize := h.lt_of_mem_modules hi
  exact ⟨⟨m, i, hsize⟩, by simp [Model.ref?, hsize], rfl⟩

/-- Nodes of one model that are selected by what the model says at their numbers. -/
theorem map_index_filter {rs : List Ref} {p : Ref → Bool} {q : Nat → Bool}
    (h : ∀ r ∈ rs, p r = q r.index) :
    (rs.filter p).map (·.index.val) = (rs.map (·.index.val)).filter q := by
  rw [List.filter_map, List.filter_congr h]
  rfl

theorem map_index_find? {rs : List Ref} {p : Ref → Bool} {q : Nat → Bool}
    (h : ∀ r ∈ rs, p r = q r.index) :
    (rs.find? p).map (·.index.val) = (rs.map (·.index.val)).find? q := by
  rw [← List.head?_filter, ← List.head?_filter, ← map_index_filter h, List.head?_map]

theorem pathChild?_index (hr : r.model = m) (h : m.Linked) (name : String) :
    (r.pathChild? name).map (·.index.val) = m.pathChildAt name r.index := by
  have hname {c : Ref} (hc : c.model = r.model) : (c.name == name) =
      (m.nameAt c.index == some name) := by
    simp [nameAt_index (hc.trans hr)]
  -- Declared children go first, then what augments contribute; either list is renumbered.
  have hdeclared : (r.children.filter fun c => c.kind != .augment).map (·.index.val) =
      m.declaredAt r.index := by
    rw [Model.declaredAt, ← map_index_children hr h]
    refine map_index_filter fun c hc => ?_
    rw [kindAt_index ((model_of_mem_children hc).trans hr)]
    rfl
  have hcontributed : (r.augments.flatMap children).map (·.index.val) =
      m.contributedAt r.index := by
    rw [Model.contributedAt, ← map_index_augments hr h, List.map_flatMap, List.flatMap_map]
    refine List.flatMap_congr fun a ha => ?_
    exact map_index_children ((model_of_mem_augments ha).trans hr) h
  rw [pathChild?, Option.orElse_eq_orElse, ← Option.or_eq_orElse, Option.map_or,
    map_index_find? (q := fun c => m.nameAt c == some name),
    map_index_find? (q := fun c => m.nameAt c == some name), hdeclared, hcontributed]
  · rfl
  · intro c hc
    obtain ⟨a, ha, hc⟩ := List.mem_flatMap.1 hc
    exact hname ((model_of_mem_children hc).trans (model_of_mem_augments ha))
  · intro c hc
    exact hname (model_of_mem_children (List.mem_of_mem_filter hc))

/-- The walk along the names of a schema path, by numbers. -/
theorem foldlM_pathChild?_index (hr : r.model = m) (h : m.Linked) (names : List String) :
    (names.foldlM (fun (r : Ref) name => r.pathChild? (qualifiedName name).2) r).map (·.index.val) =
      names.foldlM (fun i name => m.pathChildAt (qualifiedName name).2 i) r.index.val := by
  induction names generalizing r with
  | nil => rfl
  | cons name names ih =>
    have hchild := pathChild?_index hr h (qualifiedName name).2
    rw [List.foldlM_cons, List.foldlM_cons, ← hchild]
    cases hc : r.pathChild? (qualifiedName name).2 with
    | none => rfl
    | some c => exact ih ((Unguarded.model_of_pathChild? hc).trans hr)

/-- Searching nodes of one model, by numbers. -/
theorem map_index_findSome? {rs : List Ref} {f : Ref → Option Ref} {g : Nat → Option Nat}
    (h : ∀ r ∈ rs, (f r).map (·.index.val) = g r.index) :
    (rs.findSome? f).map (·.index.val) = (rs.map (·.index.val)).findSome? g := by
  induction rs with
  | nil => rfl
  | cons r rs ih =>
    rw [List.map_cons, List.findSome?_cons, List.findSome?_cons, ← h r (by simp)]
    cases f r with
    | none => exact ih fun r hr => h r (by simp [hr])
    | some c => rfl

end Ref

/-- The walk along a schema path, by numbers. -/
theorem Draft.resolve?_index (d : Draft) (h : d.model.Linked) (path : String) :
    (d.resolve? path).map (·.index.val) = d.model.resolveAt path := by
  rw [Draft.resolve?, Model.resolveAt]
  cases pathNames path with
  | nil => rfl
  | cons first rest =>
    have hmodel : ∀ r ∈ d.model.moduleRefs.filter fun m =>
        (qualifiedName first).1.all fun n => n == m.name, r.model = d.model := fun r hr =>
      Ref.model_of_mem_moduleRefs (List.mem_of_mem_filter hr)
    -- The module name in front restricts the modules, by number as by reference.
    have hmodules : (d.model.moduleRefs.filter fun m =>
        (qualifiedName first).1.all fun n => n == m.name).map (·.index.val) =
          d.model.modules.filter fun i =>
            (qualifiedName first).1.all fun n => d.model.nameAt i == some n := by
      rw [← Ref.map_index_moduleRefs h]
      refine Ref.map_index_filter fun r hr => ?_
      rw [Ref.nameAt_index (Ref.model_of_mem_moduleRefs hr)]
      cases (qualifiedName first).1 <;> simp [BEq.comm]
    have htop := Ref.map_index_findSome? fun r hr =>
      Ref.pathChild?_index (hmodel r hr) h (qualifiedName first).2
    rw [hmodules] at htop
    simp only
    rw [← htop]
    cases hc : (d.model.moduleRefs.filter fun m =>
        (qualifiedName first).1.all fun n => n == m.name).findSome?
          fun r => r.pathChild? (qualifiedName first).2 with
    | none => rfl
    | some c =>
      obtain ⟨r, hr, hc⟩ := List.exists_of_findSome?_eq_some hc
      exact Ref.foldlM_pathChild?_index
        ((Ref.Unguarded.model_of_pathChild? hc).trans (hmodel r hr)) h rest

/-- A path leads to where its last name leads from a node of the model. -/
theorem Draft.exists_pathChild?_of_resolve? {d : Draft} {path : String} {r : Ref}
    (h : d.resolve? path = some r) :
    ∃ (q : Ref) (name : String), q.model = d.model ∧ q.pathChild? name = some r := by
  rw [Draft.resolve?] at h
  split at h
  · cases h
  · next first rest hnames =>
    obtain ⟨top, htop, hrest⟩ := Option.bind_eq_some_iff.1 h
    obtain ⟨m, hm, hfound⟩ := List.exists_of_findSome?_eq_some htop
    have hmodel : m.model = d.model := Ref.model_of_mem_moduleRefs (List.mem_of_mem_filter hm)
    clear htop h hnames hm
    induction rest generalizing first m top with
    | nil =>
      cases hrest
      exact ⟨m, _, hmodel, hfound⟩
    | cons name rest ih =>
      obtain ⟨c, hc, hrest⟩ := Option.bind_eq_some_iff.1 hrest
      exact ih name c hrest top hc ((Ref.Unguarded.model_of_pathChild? hfound).trans hmodel)

theorem Draft.model_of_resolve? {d : Draft} {path : String} {r : Ref}
    (h : d.resolve? path = some r) : r.model = d.model := by
  obtain ⟨q, name, hq, hr⟩ := exists_pathChild?_of_resolve? h
  exact (Ref.Unguarded.model_of_pathChild? hr).trans hq

theorem Draft.resolveAt_of_resolve? {d : Draft} {path : String} {r : Ref} (hd : d.model.Linked)
    (h : d.resolve? path = some r) : d.model.resolveAt path = some r.index.val := by
  rw [← resolve?_index d hd, h, Option.map_some]

theorem Draft.exists_resolve? {d : Draft} {path : String} {i : Nat} (hd : d.model.Linked)
    (h : d.model.resolveAt path = some i) : ∃ r, d.resolve? path = some r ∧ r.index.val = i :=
  Option.map_eq_some_iff.1 ((resolve?_index d hd path).trans h)

theorem Draft.lt_of_resolve? {d : Draft} {path : String} {r : Ref}
    (h : d.resolve? path = some r) : r.index.val < d.size := by
  rw [size, ← model_of_resolve? h]
  exact r.index.isLt

theorem Draft.ref_of_resolve? {d : Draft} {path : String} {r : Ref}
    (h : d.resolve? path = some r) : d.ref r.index = .ok r :=
  ref_eq_ok_iff.2 ⟨lt_of_resolve? h, Ref.ext_iff'.2 ⟨model_of_resolve? h, rfl⟩⟩

namespace Model

variable {m m' : Model} {i j c : Nat} {k : Kind}

/-! ### Augments that are added later -/

/-- A model to which augments have been added. Every node is still there and has at most become the
parent or the target of augments. -/
structure Later (m m' : Model) : Prop where
  modules : m'.modules = m.modules
  node : ∀ {i : Nat} {n : Node}, m.nodes[i]? = some n → ∃ children augments,
    m'.nodes[i]? = some
      { n with children := n.children ++ children, augments := n.augments ++ augments } ∧
    ∀ c ∈ children, m'.kindAt c = some .augment

/-- Only modules have augments among their children. -/
theorem Linked.module_of_augment (h : m.Linked) (hc : c ∈ m.childrenAt i)
    (hk : m.kindAt c = some .augment) : m.kindAt i = some .module := by
  obtain ⟨q, hq, hadmits⟩ := h.admits (h.mem_children.1 hc) hk
  rw [hq, parent_of_admits_top (.inr rfl) hadmits]

theorem Linked.kindAt_of_mem_augments (h : m.Linked) (hj : j ∈ m.augmentsAt i) :
    m.kindAt j = some .augment := by
  have htarget := h.mem_augments.1 hj
  obtain ⟨k, hk⟩ := exists_kindAt (lt_of_targetAt htarget)
  have := (not_congr (h.targetless hk)).1 (by simp [htarget])
  rw [hk, not_not.1 this]

/-- Nothing augments a module. -/
theorem Linked.augmentsAt_of_module (h : m.Linked) (hk : m.kindAt i = some .module) :
    m.augmentsAt i = [] := by
  refine List.eq_nil_iff_forall_not_mem.2 fun j hj => ?_
  obtain ⟨q, hq, haugmentable⟩ := h.augmentable (h.mem_augments.1 hj)
  obtain rfl := Option.some.inj (hk.symm.trans hq)
  cases haugmentable

theorem lt_of_pathChildAt {name : String} (hc : m.pathChildAt name i = some c) :
    i < m.nodes.size := by
  by_contra hi
  have hchildren := childrenAt_eq_nil (by omega : m.nodes.size ≤ i)
  have haugments := augmentsAt_eq_nil (by omega : m.nodes.size ≤ i)
  simp [Model.pathChildAt, Model.declaredAt, Model.contributedAt, hchildren, haugments] at hc

theorem lt_of_mem_contributedAt (hm : m.Linked) (hc : c ∈ m.contributedAt i) :
    c < m.nodes.size := by
  obtain ⟨a, -, hc⟩ := List.mem_flatMap.1 hc
  exact hm.lt_of_mem_children hc

namespace Later

variable (h : m.Later m')
include h

theorem kindAt (hi : i < m.nodes.size) : m'.kindAt i = m.kindAt i := by
  obtain ⟨_, _, hn, -⟩ := h.node (Array.getElem?_eq_getElem hi)
  simp [Model.kindAt, hn, hi]

theorem nameAt (hi : i < m.nodes.size) : m'.nameAt i = m.nameAt i := by
  obtain ⟨_, _, hn, -⟩ := h.node (Array.getElem?_eq_getElem hi)
  simp [Model.nameAt, hn, hi]

theorem parentAt (hi : i < m.nodes.size) : m'.parentAt i = m.parentAt i := by
  obtain ⟨_, _, hn, -⟩ := h.node (Array.getElem?_eq_getElem hi)
  simp [Model.parentAt, hn, hi]

theorem targetAt (hi : i < m.nodes.size) : m'.targetAt i = m.targetAt i := by
  obtain ⟨_, _, hn, -⟩ := h.node (Array.getElem?_eq_getElem hi)
  simp [Model.targetAt, hn, hi]

theorem childrenAt (hi : i < m.nodes.size) : ∃ children,
    m'.childrenAt i = m.childrenAt i ++ children ∧
      ∀ c ∈ children, m'.kindAt c = some .augment := by
  obtain ⟨children, _, hn, haugment⟩ := h.node (Array.getElem?_eq_getElem hi)
  exact ⟨children, by simp [Model.childrenAt, hn, hi], haugment⟩

theorem augmentsAt (hi : i < m.nodes.size) : ∃ augments,
    m'.augmentsAt i = m.augmentsAt i ++ augments := by
  obtain ⟨_, augments, hn, -⟩ := h.node (Array.getElem?_eq_getElem hi)
  exact ⟨augments, by simp [Model.augmentsAt, hn, hi]⟩

/-- What a node declares itself is complete. -/
theorem declaredAt (hm : m.Linked) (hi : i < m.nodes.size) :
    m'.declaredAt i = m.declaredAt i := by
  obtain ⟨children, hchildren, haugment⟩ := h.childrenAt hi
  have hnew : (children.filter fun c => m'.kindAt c != some .augment) = [] := by
    simpa [List.filter_eq_nil_iff] using haugment
  rw [Model.declaredAt, hchildren, List.filter_append, hnew, List.append_nil, Model.declaredAt]
  refine List.filter_congr fun c hc => ?_
  rw [h.kindAt (hm.lt_of_mem_children hc)]

/-- What augments contribute is followed by what later augments contribute. -/
theorem contributedAt (hm : m.Linked) (hm' : m'.Linked) (hi : i < m.nodes.size) : ∃ more,
    m'.contributedAt i = m.contributedAt i ++ more := by
  obtain ⟨augments, haugments⟩ := h.augmentsAt hi
  refine ⟨augments.flatMap m'.childrenAt, ?_⟩
  rw [Model.contributedAt, haugments, List.flatMap_append, Model.contributedAt]
  congr 1
  refine List.flatMap_congr fun a ha => ?_
  -- An augment is no module, so none of its children is an augment.
  have hlt := hm.lt_of_mem_augments ha
  obtain ⟨children, hchildren, haugment⟩ := h.childrenAt hlt
  cases children with
  | nil => rw [hchildren, List.append_nil]
  | cons c children =>
    have hmodule := hm'.module_of_augment (i := a) (c := c) (by rw [hchildren]; simp)
      (haugment c (by simp))
    rw [h.kindAt hlt, hm.kindAt_of_mem_augments ha] at hmodule
    cases hmodule

/-- What a node declares itself is found under the same name. -/
theorem find?_declaredAt (hm : m.Linked) (hi : i < m.nodes.size) (name : String) :
    ((m'.declaredAt i).find? fun c => m'.nameAt c == some name) =
      (m.declaredAt i).find? fun c => m.nameAt c == some name := by
  rw [h.declaredAt hm hi]
  refine List.find?_congr fun c hc => ?_
  rw [h.nameAt (hm.lt_of_mem_children (List.mem_of_mem_filter hc))]

theorem pathChildAt {name : String} (hm : m.Linked) (hm' : m'.Linked)
    (hc : m.pathChildAt name i = some c) : m'.pathChildAt name i = some c := by
  have hi := lt_of_pathChildAt hc
  rw [Model.pathChildAt, h.find?_declaredAt hm hi]
  obtain hc | ⟨hnone, hc⟩ := Option.or_eq_some_iff.1 hc
  · rw [hc, Option.some_or]
  · obtain ⟨more, hmore⟩ := h.contributedAt hm hm' hi
    have hfind : ((m.contributedAt i).find? fun c => m'.nameAt c == some name) = some c := by
      rw [← hc]
      refine List.find?_congr fun c hc => ?_
      rw [h.nameAt (lt_of_mem_contributedAt hm hc)]
    rw [hnone, Option.none_or, hmore, List.find?_append, hfind]
    rfl

/-- Modules are not augmented, so a name leads to the same node of a module or still to none. -/
theorem pathChildAt_of_module {name : String} (hm : m.Linked) (hm' : m'.Linked)
    (hi : m.kindAt i = some .module) : m'.pathChildAt name i = m.pathChildAt name i := by
  have hlt := lt_of_kindAt hi
  have hi' : m'.kindAt i = some .module := by rw [h.kindAt hlt, hi]
  rw [Model.pathChildAt, h.find?_declaredAt hm hlt, Model.pathChildAt, Model.contributedAt,
    Model.contributedAt, hm.augmentsAt_of_module hi, hm'.augmentsAt_of_module hi']
  rfl

/-- The names of a path lead on from the same place. -/
theorem foldlM_pathChildAt {names : List String} (hm : m.Linked) (hm' : m'.Linked)
    (hc : names.foldlM (fun i name => m.pathChildAt (qualifiedName name).2 i) i = some c) :
    names.foldlM (fun i name => m'.pathChildAt (qualifiedName name).2 i) i = some c := by
  induction names generalizing i with
  | nil => exact hc
  | cons name names ih =>
    rw [List.foldlM_cons] at hc ⊢
    obtain ⟨j, hj, hc⟩ := Option.bind_eq_some_iff.1 hc
    rw [h.pathChildAt hm hm' hj]
    exact ih hc

/-- A path that resolves keeps its place. -/
theorem resolveAt {path : String} (hm : m.Linked) (hm' : m'.Linked)
    (hi : m.resolveAt path = some i) : m'.resolveAt path = some i := by
  rw [Model.resolveAt] at hi ⊢
  cases hnames : pathNames path with
  | nil => simp [hnames] at hi
  | cons first rest =>
    simp only [hnames] at hi ⊢
    obtain ⟨top, htop, hrest⟩ := Option.bind_eq_some_iff.1 hi
    have hmodules : (m'.modules.filter fun i =>
        (qualifiedName first).1.all fun n => m'.nameAt i == some n) =
          m.modules.filter fun i => (qualifiedName first).1.all fun n => m.nameAt i == some n := by
      rw [h.modules]
      refine List.filter_congr fun i hi => ?_
      rw [h.nameAt (hm.lt_of_mem_modules hi)]
    have htop' : (m.modules.filter fun i =>
        (qualifiedName first).1.all fun n => m.nameAt i == some n).findSome?
          (m'.pathChildAt (qualifiedName first).2) = some top := by
      rw [← htop]
      refine List.findSome?_congr fun i hi => ?_
      exact h.pathChildAt_of_module hm hm' (hm.mem_modules.1 (List.mem_of_mem_filter hi))
    rw [hmodules, htop']
    exact h.foldlM_pathChildAt hm hm' hrest

end Later

/-! ### Models in which nodes have the same places -/

theorem SameLinks.declaredAt (h : m.SameLinks m') : m'.declaredAt = m.declaredAt := by
  funext i
  rw [Model.declaredAt, funext h.kind, h.children, Model.declaredAt]

theorem SameLinks.contributedAt (h : m.SameLinks m') : m'.contributedAt = m.contributedAt := by
  funext i
  rw [Model.contributedAt, funext h.children, h.augments, Model.contributedAt]

/-- What a path leads to is a matter of links and names. -/
theorem SameLinks.resolveAt (h : m.SameLinks m') (hname : ∀ i, m'.nameAt i = m.nameAt i)
    (path : String) : m'.resolveAt path = m.resolveAt path := by
  have hnames : m'.nameAt = m.nameAt := funext hname
  have hchild : m'.pathChildAt = m.pathChildAt := by
    funext name i
    rw [pathChildAt, h.declaredAt, h.contributedAt, hnames, pathChildAt]
  rw [Model.resolveAt, Model.resolveAt, h.modules, hnames, hchild]

/-- Freezing a draft changes no name. -/
theorem nameAt_of_freeze {d : Draft} (hd : d.model.Linked) (h : d.freeze = .ok m) (i : Nat) :
    m.nameAt i = d.model.nameAt i := by
  simp [nameAt, getElem?_of_freeze hd h, Function.comp_def, Draft.inheriting]

/-- The nodes of a model have the same kinds, names and links up in another one, where they may have
other numbers. -/
structure Upward (f : Nat → Nat) (m m' : Model) : Prop where
  kindAt : ∀ {i}, i < m.nodes.size → m'.kindAt (f i) = m.kindAt i
  nameAt : ∀ {i}, i < m.nodes.size → m'.nameAt (f i) = m.nameAt i
  parentAt : ∀ {i}, i < m.nodes.size → m'.parentAt (f i) = (m.parentAt i).map f
  targetAt : ∀ {i}, i < m.nodes.size → m'.targetAt (f i) = (m.targetAt i).map f

theorem Later.upward (h : m.Later m') : m.Upward (fun i => i) m' where
  kindAt := h.kindAt
  nameAt := h.nameAt
  parentAt hi := by rw [h.parentAt hi, Option.map_id']
  targetAt hi := by rw [h.targetAt hi, Option.map_id']

theorem SameLinks.upward (h : m.SameLinks m') (hname : ∀ i, m'.nameAt i = m.nameAt i) :
    m.Upward (fun i => i) m' where
  kindAt _ := h.kind _
  nameAt _ := hname _
  parentAt _ := by rw [h.parent, Option.map_id']
  targetAt _ := by rw [h.target, Option.map_id']

end Model

namespace Ref

variable {m m' : Model} {f : Nat → Nat}

theorem kind_of_upward {r r' : Ref} (h : m.Upward f m') (hr : r.model = m) (hr' : r'.model = m')
    (hi : r'.index.val = f r.index) : r'.kind = r.kind := by
  have hlt : r.index.val < m.nodes.size := hr ▸ r.index.isLt
  have hkind := h.kindAt hlt
  rw [← hi, kindAt_index hr', kindAt_index hr] at hkind
  exact Option.some.inj hkind

theorem name_of_upward {r r' : Ref} (h : m.Upward f m') (hr : r.model = m) (hr' : r'.model = m')
    (hi : r'.index.val = f r.index) : r'.name = r.name := by
  have hlt : r.index.val < m.nodes.size := hr ▸ r.index.isLt
  have hname := h.nameAt hlt
  rw [← hi, nameAt_index hr', nameAt_index hr] at hname
  exact Option.some.inj hname

/-- The way up passes the same nodes. -/
theorem exists_up?_of_upward {r r' p : Ref} (h : m.Upward f m') (hm' : m'.Linked) (hr : r.model = m)
    (hr' : r'.model = m') (hi : r'.index.val = f r.index) (hp : r.up? = some p) :
    ∃ p', r'.up? = some p' ∧ p'.index.val = f p.index := by
  have hlt : r.index.val < m.nodes.size := hr ▸ r.index.isLt
  have hkind := kind_of_upward h hr hr' hi
  have hparent : r'.node.parent = r.node.parent.map f := by
    rw [← parentAt_index hr', hi, h.parentAt hlt, parentAt_index hr]
  have htarget : r'.node.target = r.node.target.map f := by
    rw [← targetAt_index hr', hi, h.targetAt hlt, targetAt_index hr]
  have hk : r.kind ≠ .module := by
    intro hk
    simp [up?, hk] at hp
  obtain ⟨p', hp'⟩ := exists_up? (r := r') (hr' ▸ hm') (hkind ▸ hk)
  refine ⟨p', hp', ?_⟩
  -- Both ways follow the same link.
  have hlink {a q : Ref} (hq : a.up? = some q) :
      (if a.kind = .augment then a.node.target else a.node.parent) = some q.index.val := by
    unfold up? at hq
    split at hq
    · cases hq
    · next ha => rw [if_pos ha, (earlier?_eq_some_iff.1 hq).2.1]
    · next ha => rw [if_neg ha, (earlier?_eq_some_iff.1 hq).2.1]
  have h₁ := hlink hp
  have h₂ := hlink hp'
  rw [hkind, hparent, htarget, ← apply_ite (Option.map f), h₁] at h₂
  exact (Option.some.inj h₂).symm

theorem ancestry_of_upward {r r' : Ref} (h : m.Upward f m') (hm : m.Linked) (hm' : m'.Linked)
    (hr : r.model = m) (hr' : r'.model = m') (hi : r'.index.val = f r.index) :
    r'.ancestry.map (fun a => (a.kind, a.name)) = r.ancestry.map fun a => (a.kind, a.name) := by
  have hkind := kind_of_upward h hr hr' hi
  by_cases hk : r.kind = .module
  · rw [ancestry, if_pos (hkind.trans hk), ancestry, if_pos hk]
  · obtain ⟨p, hp⟩ := exists_up? (r := r) (hr ▸ hm) hk
    obtain ⟨p', hp', hpi⟩ := exists_up?_of_upward h hm' hr hr' hi hp
    have := index_lt_of_up? hp
    rw [ancestry_of_up? hk hp, ancestry_of_up? (hkind ▸ hk) hp', List.map_cons, List.map_cons,
      hkind, name_of_upward h hr hr' hi, ancestry_of_upward h hm hm' ((model_of_up? hp).trans hr)
        ((model_of_up? hp').trans hr') hpi]
termination_by r.index.val

/-- Places keep their names. -/
theorem targetPath_of_upward {r r' : Ref} (h : m.Upward f m') (hm : m.Linked) (hm' : m'.Linked)
    (hr : r.model = m) (hr' : r'.model = m') (hi : r'.index.val = f r.index) :
    r'.targetPath = r.targetPath := by
  have hnames (nodes : List Ref) :
      (nodes.filter fun a => a.kind != .augment).reverse.map name =
        ((nodes.map fun a => (a.kind, a.name)).filter fun a => a.1 != .augment).reverse.map
          Prod.snd := by
    rw [List.filter_map, ← List.map_reverse, List.map_map]
    rfl
  rw [targetPath, targetPath, hnames, hnames, ancestry_of_upward h hm hm' hr hr' hi]

end Ref

end YangBinding.Schema
