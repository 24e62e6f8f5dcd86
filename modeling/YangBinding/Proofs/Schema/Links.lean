import Mathlib.Data.List.Nodup
import YangBinding.Proofs.Outcome
import YangBinding.Schema.Draft

/-!
# Links of a built model

A model stores every link between nodes twice: a node names its parent and is listed among the
children of the parent, an augment names its target and is listed among the augments of the target.
Whatever commands build a model, both sides agree, every link leads from a later node to an earlier
one, and the kinds at its two ends fit together. Whatever walks over a schema rests on that.

## Main definitions

* `Model.Linked` — the two sides of every link agree
* `Draft.Performs` — an accepted command with its checks and the draft that it leads to
* `Model.Built` — a model that a sequence of commands has drafted and that was then frozen

## Main results

* `Draft.perform_eq_ok_iff` — all that an accepted command can do, from which follows what it keeps
* `Draft.links_of_perform` — what a command does to the links of a draft
* `Draft.linked_run` — commands keep the links of a draft in step
* `Model.Built.linked`, `Model.Built.exists_ns` — so they are in a built model, in which moreover
  every node has a namespace
* `Ref.mem_children_iff`, `Ref.mem_augments_iff` — the two sides of a link, as seen from a node
-/

namespace YangBinding.Schema

namespace Model

variable {m m' : Model} {i j p t : Nat} {k : Kind}

/-! ### The links of a model by number -/

def kindAt (m : Model) (i : Nat) : Option Kind := m.nodes[i]?.map Node.kind

def parentAt (m : Model) (i : Nat) : Option Nat := m.nodes[i]?.bind Node.parent

def targetAt (m : Model) (i : Nat) : Option Nat := m.nodes[i]?.bind Node.target

def childrenAt (m : Model) (i : Nat) : List Nat := (m.nodes[i]?.map Node.children).getD []

def augmentsAt (m : Model) (i : Nat) : List Nat := (m.nodes[i]?.map Node.augments).getD []

/-- Which kinds may stand below which: what a command declares there, or an augment of a module. -/
def Admits (parent child : Kind) : Prop :=
  parent.admits child = true ∨ parent = .module ∧ child = .augment

/-- The two sides of every link agree, links lead to earlier nodes, and kinds fit together. -/
structure Linked (m : Model) : Prop where
  parent_lt : ∀ {i p}, m.parentAt i = some p → p < i
  target_lt : ∀ {i t}, m.targetAt i = some t → t < i
  mem_children : ∀ {i j}, j ∈ m.childrenAt i ↔ m.parentAt j = some i
  mem_augments : ∀ {i j}, j ∈ m.augmentsAt i ↔ m.targetAt j = some i
  nodup_children : ∀ i, (m.childrenAt i).Nodup
  nodup_augments : ∀ i, (m.augmentsAt i).Nodup
  mem_modules : ∀ {i}, i ∈ m.modules ↔ m.kindAt i = some .module
  nodup_modules : m.modules.Nodup
  parentless : ∀ {i k}, m.kindAt i = some k → (m.parentAt i = none ↔ k = .module)
  targetless : ∀ {i k}, m.kindAt i = some k → (m.targetAt i = none ↔ k ≠ .augment)
  admits : ∀ {i p k}, m.parentAt i = some p → m.kindAt i = some k →
    ∃ q, m.kindAt p = some q ∧ Admits q k
  augmentable : ∀ {i t}, m.targetAt i = some t → ∃ q, m.kindAt t = some q ∧ q.isAugmentable = true

theorem kindAt_eq_none (h : m.nodes.size ≤ i) : m.kindAt i = none := by
  simp [kindAt, h]

theorem parentAt_eq_none (h : m.nodes.size ≤ i) : m.parentAt i = none := by
  simp [parentAt, h]

theorem targetAt_eq_none (h : m.nodes.size ≤ i) : m.targetAt i = none := by
  simp [targetAt, h]

theorem childrenAt_eq_nil (h : m.nodes.size ≤ i) : m.childrenAt i = [] := by
  simp [childrenAt, h]

theorem augmentsAt_eq_nil (h : m.nodes.size ≤ i) : m.augmentsAt i = [] := by
  simp [augmentsAt, h]

theorem lt_of_kindAt (h : m.kindAt i = some k) : i < m.nodes.size := by
  by_contra hi
  rw [kindAt_eq_none (by omega)] at h
  cases h

/-! ### Commands that touch no link -/

/-- Two models with the same links. -/
structure SameLinks (m m' : Model) : Prop where
  modules : m'.modules = m.modules
  kind : ∀ i, m'.kindAt i = m.kindAt i
  parent : ∀ i, m'.parentAt i = m.parentAt i
  target : ∀ i, m'.targetAt i = m.targetAt i
  children : ∀ i, m'.childrenAt i = m.childrenAt i
  augments : ∀ i, m'.augmentsAt i = m.augmentsAt i

theorem Linked.of_sameLinks (h : m.Linked) (s : m.SameLinks m') : m'.Linked where
  parent_lt := by
    intro i p
    rw [s.parent]
    exact h.parent_lt
  target_lt := by
    intro i t
    rw [s.target]
    exact h.target_lt
  mem_children := by
    intro i j
    rw [s.parent, s.children]
    exact h.mem_children
  mem_augments := by
    intro i j
    rw [s.target, s.augments]
    exact h.mem_augments
  nodup_children i := s.children i ▸ h.nodup_children i
  nodup_augments i := s.augments i ▸ h.nodup_augments i
  mem_modules := by
    intro i
    rw [s.modules, s.kind]
    exact h.mem_modules
  nodup_modules := s.modules ▸ h.nodup_modules
  parentless := by
    intro i k
    rw [s.kind, s.parent]
    exact h.parentless
  targetless := by
    intro i k
    rw [s.kind, s.target]
    exact h.targetless
  admits := by
    intro i p k
    simp only [s.kind, s.parent]
    exact h.admits
  augmentable := by
    intro i t
    simp only [s.kind, s.target]
    exact h.augmentable

/-- A change of a node that keeps its kind and its links. -/
structure KeepsLinks (change : Node → Node) : Prop where
  kind : ∀ n, (change n).kind = n.kind
  parent : ∀ n, (change n).parent = n.parent
  target : ∀ n, (change n).target = n.target
  children : ∀ n, (change n).children = n.children
  augments : ∀ n, (change n).augments = n.augments

/-- Changing nodes one by one in a way that keeps links keeps the links of the model. -/
theorem sameLinks_of_map (change : Nat → Node → Node) (hmod : m'.modules = m.modules)
    (hnodes : ∀ i, m'.nodes[i]? = m.nodes[i]?.map (change i)) (hc : ∀ i, KeepsLinks (change i)) :
    m.SameLinks m' where
  modules := hmod
  kind i := by simp [kindAt, hnodes, Function.comp_def, (hc i).kind]
  parent i := by cases h : m.nodes[i]? <;> simp [parentAt, hnodes, h, (hc i).parent]
  target i := by cases h : m.nodes[i]? <;> simp [targetAt, hnodes, h, (hc i).target]
  children i := by simp [childrenAt, hnodes, Function.comp_def, (hc i).children]
  augments i := by simp [augmentsAt, hnodes, Function.comp_def, (hc i).augments]

/-! ### Commands that add a node -/

/-- One more node at the end, with a parent or a target that lists it. -/
structure Grown (m m' : Model) (kind : Kind) (parent target : Option Nat) : Prop where
  modules : m'.modules = m.modules ++ if kind = .module then [m.nodes.size] else []
  kindAt : ∀ i, m'.kindAt i = if i = m.nodes.size then some kind else m.kindAt i
  parentAt : ∀ i, m'.parentAt i = if i = m.nodes.size then parent else m.parentAt i
  targetAt : ∀ i, m'.targetAt i = if i = m.nodes.size then target else m.targetAt i
  childrenAt : ∀ i, m'.childrenAt i =
    m.childrenAt i ++ if parent = some i then [m.nodes.size] else []
  augmentsAt : ∀ i, m'.augmentsAt i =
    m.augmentsAt i ++ if target = some i then [m.nodes.size] else []

theorem Linked.lt_of_mem_children (h : m.Linked) (hj : j ∈ m.childrenAt i) : j < m.nodes.size := by
  by_contra hn
  have := h.mem_children.1 hj
  rw [parentAt_eq_none (by omega)] at this
  cases this

theorem Linked.lt_of_mem_augments (h : m.Linked) (hj : j ∈ m.augmentsAt i) : j < m.nodes.size := by
  by_contra hn
  have := h.mem_augments.1 hj
  rw [targetAt_eq_none (by omega)] at this
  cases this

theorem Linked.lt_of_mem_modules (h : m.Linked) (hi : i ∈ m.modules) : i < m.nodes.size :=
  lt_of_kindAt (h.mem_modules.1 hi)

/-- A list of earlier nodes keeps distinct entries when the newest node is added. -/
private theorem nodup_append_newest {xs : List Nat} {n : Nat} {c : Prop} [Decidable c]
    (hxs : xs.Nodup) (hlt : ∀ x ∈ xs, x < n) : (xs ++ if c then [n] else []).Nodup := by
  split
  · refine List.nodup_append.2 ⟨hxs, by simp, ?_⟩
    intro a ha b hb
    have := hlt a ha
    simp only [List.mem_singleton] at hb
    omega
  · simpa using hxs

/-- A list of all nodes that are linked in some way still is one when the newest node is added,
provided that this is listed exactly if it is linked so itself. -/
private theorem mem_append_newest {α : Type} {xs : List Nat} {link : Nat → Option α} {a : α}
    {new : Option α} {n j : Nat} {c : Prop} [Decidable c] (hxs : ∀ j, j ∈ xs ↔ link j = some a)
    (hn : link n = none) (hnew : c ↔ new = some a) :
    (j ∈ xs ++ if c then [n] else []) ↔ (if j = n then new else link j) = some a := by
  rw [List.mem_append, hxs]
  by_cases hj : j = n
  · subst hj
    rw [if_pos rfl, hn, ← hnew]
    by_cases hc : c <;> simp [hc]
  · rw [if_neg hj]
    by_cases hc : c <;> simp [hc, hj]

/-- A node of this kind may be added with this parent and this target. -/
structure Place (m : Model) (kind : Kind) (parent target : Option Nat) : Prop where
  parentless : parent = none ↔ kind = .module
  targetless : target = none ↔ kind ≠ .augment
  admits : ∀ p, parent = some p → ∃ q, m.kindAt p = some q ∧ Admits q kind
  augmentable : ∀ t, target = some t → ∃ q, m.kindAt t = some q ∧ q.isAugmentable = true

section Grown

variable {parent target : Option Nat}

theorem Grown.kindAt_of_old (g : Grown m m' k parent target) {q : Kind} (hq : m.kindAt i = some q) :
    m'.kindAt i = some q := by
  have := lt_of_kindAt hq
  rw [g.kindAt, if_neg (by omega), hq]

theorem Place.parent_lt (hplace : m.Place k parent target) (hp : parent = some p) :
    p < m.nodes.size := by
  obtain ⟨q, hq, -⟩ := hplace.admits p hp
  exact lt_of_kindAt hq

theorem Place.target_lt (hplace : m.Place k parent target) (ht : target = some t) :
    t < m.nodes.size := by
  obtain ⟨q, hq, -⟩ := hplace.augmentable t ht
  exact lt_of_kindAt hq

/-- Links stay in step when a node is added in a place that its kind allows. -/
theorem Linked.grown (h : m.Linked) (g : Grown m m' k parent target)
    (hplace : m.Place k parent target) : m'.Linked := by
  -- Of each link either the lower end is the new node, of which its place speaks, or it was there
  -- before; the upper end always was.
  constructor
  case parent_lt =>
    intro i p hp
    rw [g.parentAt] at hp
    split at hp
    case isTrue hi => exact hi ▸ hplace.parent_lt hp
    case isFalse => exact h.parent_lt hp
  case target_lt =>
    intro i t ht
    rw [g.targetAt] at ht
    split at ht
    case isTrue hi => exact hi ▸ hplace.target_lt ht
    case isFalse => exact h.target_lt ht
  case mem_children =>
    intro i j
    rw [g.childrenAt, g.parentAt]
    exact mem_append_newest (fun _ => h.mem_children) (parentAt_eq_none (Nat.le_refl _)) .rfl
  case mem_augments =>
    intro i j
    rw [g.augmentsAt, g.targetAt]
    exact mem_append_newest (fun _ => h.mem_augments) (targetAt_eq_none (Nat.le_refl _)) .rfl
  case nodup_children =>
    intro i
    rw [g.childrenAt]
    exact nodup_append_newest (h.nodup_children i) fun _ => h.lt_of_mem_children
  case nodup_augments =>
    intro i
    rw [g.augmentsAt]
    exact nodup_append_newest (h.nodup_augments i) fun _ => h.lt_of_mem_augments
  case mem_modules =>
    intro i
    rw [g.modules, g.kindAt]
    exact mem_append_newest (fun _ => h.mem_modules) (kindAt_eq_none (Nat.le_refl _))
      Option.some_inj.symm
  case nodup_modules =>
    rw [g.modules]
    exact nodup_append_newest h.nodup_modules fun _ => h.lt_of_mem_modules
  case parentless =>
    intro i k' hk
    rw [g.kindAt] at hk
    rw [g.parentAt]
    split at hk
    case isTrue hi =>
      cases hk
      rw [if_pos hi]
      exact hplace.parentless
    case isFalse hi =>
      rw [if_neg hi]
      exact h.parentless hk
  case targetless =>
    intro i k' hk
    rw [g.kindAt] at hk
    rw [g.targetAt]
    split at hk
    case isTrue hi =>
      cases hk
      rw [if_pos hi]
      exact hplace.targetless
    case isFalse hi =>
      rw [if_neg hi]
      exact h.targetless hk
  case admits =>
    intro i p k' hp hk
    rw [g.parentAt] at hp
    rw [g.kindAt] at hk
    obtain ⟨q, hq, ha⟩ : ∃ q, m.kindAt p = some q ∧ Admits q k' := by
      split at hp
      case isTrue hi =>
        rw [if_pos hi] at hk
        cases hk
        exact hplace.admits p hp
      case isFalse hi =>
        rw [if_neg hi] at hk
        exact h.admits hp hk
    exact ⟨q, g.kindAt_of_old hq, ha⟩
  case augmentable =>
    intro i t ht
    rw [g.targetAt] at ht
    obtain ⟨q, hq, ha⟩ : ∃ q, m.kindAt t = some q ∧ q.isAugmentable = true := by
      split at ht
      case isTrue => exact hplace.augmentable t ht
      case isFalse => exact h.augmentable ht
    exact ⟨q, g.kindAt_of_old hq, ha⟩

end Grown

end Model

namespace Draft

open Model (Admits Grown KeepsLinks Linked)

variable {d d' : Draft} {i p t : Nat}

/-! ### Drafts -/

theorem linked_empty (id : String) : (empty id).model.Linked := by
  constructor <;> simp [empty, Model.kindAt, Model.parentAt, Model.targetAt, Model.childrenAt,
    Model.augmentsAt]

theorem ref_eq_ok_iff {r : Ref} :
    d.ref i = .ok r ↔ ∃ h : i < d.model.nodes.size, r = ⟨d.model, i, h⟩ := by
  unfold ref Model.ref?
  by_cases h : i < d.model.nodes.size
  · simp [h, eq_comm]
  · simp [h]

theorem kindAt_of_ref {r : Ref} (h : d.ref i = .ok r) : d.model.kindAt i = some r.kind := by
  obtain ⟨hi, rfl⟩ := ref_eq_ok_iff.1 h
  simp [Model.kindAt, Ref.kind, Ref.node, hi]

theorem exists_ref {k : Kind} (h : d.model.kindAt i = some k) :
    ∃ r, d.ref i = .ok r ∧ r.kind = k := by
  have hr := ref_eq_ok_iff.2 ⟨Model.lt_of_kindAt h, rfl⟩
  exact ⟨_, hr, Option.some.inj ((kindAt_of_ref hr).symm.trans h)⟩

theorem lt_of_ref {r : Ref} (h : d.ref i = .ok r) : i < d.size :=
  Model.lt_of_kindAt (kindAt_of_ref h)

theorem discard_ref_eq_ok_iff {u : Unit} : discard (d.ref i) = .ok u ↔ i < d.size := by
  constructor
  · intro h
    obtain ⟨r, hr, -⟩ := Except.map_eq_ok_iff.1 h
    exact lt_of_ref hr
  · intro hlt
    exact Except.map_eq_ok_iff.2 ⟨_, ref_eq_ok_iff.2 ⟨hlt, rfl⟩, rfl⟩

/-! ### What an accepted command does -/

/-- The node that a command changes, with what becomes of it. The other commands add a node. -/
def Command.change? : Command → Option (Nat × (Node → Node))
  | .setClass i className => some (i, fun n => { n with className := some className })
  | .setKeys i keys => some (i, fun n => { n with keys })
  | .setNamespace i ns => some (i, fun n => { n with id := { n.id with ns := some ns } })
  | .setConfig i config => some (i, fun n => { n with config })
  | _ => none

/-- A command with the draft that it leads to, and the checks that it has passed. -/
inductive Performs (d : Draft) : Command → Draft → Prop where
  | addModule {name ns : String} {revision : Option Calendar.Date} :
    d.Performs (.addModule name ns revision) (d.addModule name ns revision)
  | addChild {parent : Nat} {kind above : Kind} {name : String}
    (hparent : d.model.kindAt parent = some above) (hadmits : above.admits kind = true) :
    d.Performs (.addChild parent kind name)
      (d.insert { id := ⟨name, none⟩, kind, parent := some parent })
  | addAugment {module target : Nat} {t : Ref} (hmodule : d.model.kindAt module = some .module)
    (htarget : d.ref target = .ok t) (haugmentable : t.kind.isAugmentable = true) :
    d.Performs (.addAugment module target)
      ((d.insert { id := ⟨t.targetPath, none⟩, kind := .augment,
                   parent := some module, target := some target }).update target fun n =>
        { n with augments := n.augments ++ [d.size] })
  | change {command : Command} {i : Nat} {change : Node → Node}
    (hchange : command.change? = some (i, change)) (hlt : i < d.size)
    (hlist : ∀ keys, command = .setKeys i keys → d.model.kindAt i = some .list) :
    d.Performs command (d.update i change)

theorem performs_of_perform {command : Command} (hd : d.perform command = .ok d') :
    d.Performs command d' := by
  -- A command that is accepted has passed its guards, which the constructors keep as premises.
  cases command with
  | addModule name ns revision =>
    cases hd
    exact .addModule
  | addChild parent kind name =>
    obtain ⟨p, hp, hd⟩ := Except.bind_eq_ok_iff.1 hd
    split at hd
    case isFalse => cases hd
    case isTrue hadmits =>
      cases hd
      exact .addChild (kindAt_of_ref hp) hadmits
  | addAugment module target =>
    obtain ⟨m, hm, hd⟩ := Except.bind_eq_ok_iff.1 hd
    split at hd
    case isTrue => cases hd
    case isFalse hmodule =>
      obtain ⟨t, ht, hd⟩ := Except.bind_eq_ok_iff.1 hd
      split at hd
      case isTrue => cases hd
      case isFalse haugmentable =>
        cases hd
        have hkind : m.kind = .module := by simpa using hmodule
        exact .addAugment (hkind ▸ kindAt_of_ref hm) ht (by simpa using haugmentable)
  | setKeys list keys =>
    obtain ⟨r, hr, hd⟩ := Except.bind_eq_ok_iff.1 hd
    split at hd
    case isFalse => cases hd
    case isTrue hlist =>
      cases hd
      have hkind : r.kind = .list := by simpa using hlist
      exact .change rfl (lt_of_ref hr) fun _ _ => hkind ▸ kindAt_of_ref hr
  | setClass node className =>
    obtain ⟨_, hr, hd⟩ := Except.bind_eq_ok_iff.1 hd
    cases hd
    exact .change rfl (discard_ref_eq_ok_iff.1 hr) (by rintro _ ⟨⟩)
  | setNamespace node ns =>
    obtain ⟨_, hr, hd⟩ := Except.bind_eq_ok_iff.1 hd
    cases hd
    exact .change rfl (discard_ref_eq_ok_iff.1 hr) (by rintro _ ⟨⟩)
  | setConfig node config =>
    obtain ⟨_, hr, hd⟩ := Except.bind_eq_ok_iff.1 hd
    cases hd
    exact .change rfl (discard_ref_eq_ok_iff.1 hr) (by rintro _ ⟨⟩)

theorem Performs.perform_eq_ok {command : Command} (h : d.Performs command d') :
    d.perform command = .ok d' := by
  cases h with
  | addModule => rfl
  | addChild hparent hadmits =>
    obtain ⟨r, hr, rfl⟩ := exists_ref hparent
    exact Except.bind_eq_ok_iff.2 ⟨r, hr, if_pos hadmits⟩
  | addAugment hmodule htarget haugmentable =>
    obtain ⟨r, hr, hk⟩ := exists_ref hmodule
    simp only [perform, Draft.addAugment, hr, htarget]
    simp [hk, haugmentable, bind, Except.bind, pure, Except.pure]
  | change hchange hlt hlist =>
    cases command with
    | setKeys list keys =>
      cases hchange
      obtain ⟨r, hr, hk⟩ := exists_ref (hlist keys rfl)
      exact Except.bind_eq_ok_iff.2 ⟨r, hr, if_pos (by simp [hk])⟩
    | _ =>
      cases hchange <;> exact Except.bind_eq_ok_iff.2 ⟨(), discard_ref_eq_ok_iff.2 hlt, rfl⟩

/-- A command is accepted exactly if it passes its checks. -/
theorem perform_eq_ok_iff {command : Command} :
    d.perform command = .ok d' ↔ d.Performs command d' :=
  ⟨performs_of_perform, Performs.perform_eq_ok⟩

theorem update_of_perform (command : Command) {change : Node → Node}
    (hd : d.perform command = .ok d') (hc : command.change? = some (i, change)) :
    d' = d.update i change := by
  cases perform_eq_ok_iff.1 hd with
  | change hchange =>
    cases hchange.symm.trans hc
    rfl
  | _ => cases hc

theorem sameLinks_update {change : Node → Node} (hc : KeepsLinks change) :
    d.model.SameLinks (d.update i change).model := by
  have hnodes : ∀ j, (d.update i change).model.nodes[j]? =
      d.model.nodes[j]?.map (if i = j then change else id) := by
    intro j
    simp only [update, Array.getElem?_modify]
    split <;> simp
  refine Model.sameLinks_of_map _ rfl hnodes ?_
  intro j
  split
  · exact hc
  · constructor <;> intro n <;> rfl

/-- The nodes after one more was added below its parent. -/
theorem getElem?_insert (node : Node) (hp : ∀ p, node.parent = some p → p < d.model.nodes.size)
    (i : Nat) :
    (d.insert node).model.nodes[i]? =
      if i = d.model.nodes.size then some node
      else d.model.nodes[i]?.map fun n =>
        if node.parent = some i then { n with children := n.children ++ [d.model.nodes.size] }
        else n := by
  unfold insert
  change (Array.push _ node)[i]? = _
  cases hq : node.parent with
  | none =>
    simp only [Array.getElem?_push]
    split <;> simp
  | some q =>
    have := hp q hq
    simp only [Array.getElem?_push, Array.size_modify, Array.getElem?_modify, size]
    split
    · rfl
    · by_cases hqi : q = i <;> simp [hqi]

/-- The nodes after one more was added and listed among the augments of its target. -/
private theorem getElem?_insert_listed {n : Node}
    (hp : ∀ p, n.parent = some p → p < d.model.nodes.size)
    (ht : ∀ t, n.target = some t → t < d.model.nodes.size)
    (hnodes : ∀ i : Nat, d'.model.nodes[i]? = (d.insert n).model.nodes[i]?.map fun old =>
      if n.target = some i then { old with augments := old.augments ++ [d.model.nodes.size] }
      else old)
    (i : Nat) :
    d'.model.nodes[i]? =
      if i = d.model.nodes.size then some n
      else d.model.nodes[i]?.map fun old =>
        { old with
          children := old.children ++ if n.parent = some i then [d.model.nodes.size] else []
          augments := old.augments ++ if n.target = some i then [d.model.nodes.size] else [] } := by
  have target_ne : n.target ≠ some d.model.nodes.size := fun h => Nat.lt_irrefl _ (ht _ h)
  rw [hnodes, getElem?_insert n hp]
  by_cases hi : i = d.model.nodes.size
  · simp [hi, target_ne]
  · rw [if_neg hi, if_neg hi, Option.map_map]
    congr 1
    funext old
    by_cases h1 : n.parent = some i <;> by_cases h2 : n.target = some i <;> simp [h1, h2]

/-- Adding a node without links down, and listing it among the modules or the augments of its
target. -/
theorem grown_of_insert {n : Node}
    (hp : ∀ p, n.parent = some p → p < d.model.nodes.size)
    (ht : ∀ t, n.target = some t → t < d.model.nodes.size)
    (hc : n.children = []) (ha : n.augments = [])
    (hmod : d'.model.modules =
      d.model.modules ++ if n.kind = .module then [d.model.nodes.size] else [])
    (hnodes : ∀ i : Nat, d'.model.nodes[i]? = (d.insert n).model.nodes[i]?.map fun old =>
      if n.target = some i then { old with augments := old.augments ++ [d.model.nodes.size] }
      else old) :
    Grown d.model d'.model n.kind n.parent n.target := by
  have hget := getElem?_insert_listed hp ht hnodes
  -- The new node is behind all others, so none of its links leads to itself.
  have no_link {link : Option Nat} {i : Nat} (hlink : ∀ p, link = some p → p < d.model.nodes.size)
      (hi : d.model.nodes.size ≤ i) : link ≠ some i := by
    rintro rfl
    have := hlink i rfl
    omega
  constructor
  case modules => exact hmod
  case kindAt =>
    intro i
    rw [Model.kindAt, hget]
    split
    · rfl
    · simp [Model.kindAt, Function.comp_def]
  case parentAt =>
    intro i
    rw [Model.parentAt, hget]
    split
    · rfl
    · cases h : d.model.nodes[i]? <;> simp [Model.parentAt, h]
  case targetAt =>
    intro i
    rw [Model.targetAt, hget]
    split
    · rfl
    · cases h : d.model.nodes[i]? <;> simp [Model.targetAt, h]
  case childrenAt =>
    intro i
    rw [Model.childrenAt, hget]
    by_cases hi : d.model.nodes.size ≤ i
    · rw [Model.childrenAt_eq_nil hi, Array.getElem?_eq_none hi, if_neg (no_link hp hi)]
      split <;> simp [hc]
    · simp [Model.childrenAt, Nat.ne_of_lt (Nat.not_le.1 hi), Nat.not_le.1 hi]
  case augmentsAt =>
    intro i
    rw [Model.augmentsAt, hget]
    by_cases hi : d.model.nodes.size ≤ i
    · rw [Model.augmentsAt_eq_nil hi, Array.getElem?_eq_none hi, if_neg (no_link ht hi)]
      split <;> simp [ha]
    · simp [Model.augmentsAt, Nat.ne_of_lt (Nat.not_le.1 hi), Nat.not_le.1 hi]

theorem modules_insert (n : Node) : (d.insert n).model.modules = d.model.modules := rfl

theorem keepsLinks_of_change? {command : Command} {change : Node → Node}
    (hchange : command.change? = some (i, change)) : KeepsLinks change := by
  cases command <;> cases hchange <;> constructor <;> intro n <;> rfl

/-- A command that is accepted touches no link, or it adds one node in a place that its kind
allows. -/
theorem links_of_perform {command : Command} (hd : d.perform command = .ok d') :
    d.model.SameLinks d'.model ∨
      ∃ kind parent target, Grown d.model d'.model kind parent target ∧
        d.model.Place kind parent target := by
  cases perform_eq_ok_iff.1 hd with
  | @addModule name ns revision =>
    refine .inr ⟨_, _, _,
      grown_of_insert (n := { id := ⟨name, some ns⟩, kind := .module, revision })
        (by simp) (by simp) rfl rfl (by simp [addModule, size]) (by simp [addModule]), ?_⟩
    constructor <;> simp
  | @addChild parent kind above name hparent hadmits =>
    -- Neither modules nor augments are added as children.
    have hmod : kind ≠ .module := by rintro rfl; simp [Kind.admits] at hadmits
    have haug : kind ≠ .augment := by rintro rfl; simp [Kind.admits] at hadmits
    have hplace : d.model.Place kind (some parent) none := by
      constructor
      · simp [hmod]
      · simp [haug]
      · rintro _ ⟨⟩
        exact ⟨_, hparent, .inl hadmits⟩
      · simp
    exact .inr ⟨_, _, _,
      grown_of_insert (n := { id := ⟨name, none⟩, kind, parent := some parent })
        (fun _ => hplace.parent_lt) (by simp) rfl rfl (by simp [modules_insert, hmod]) (by simp),
      hplace⟩
  | @addAugment module target t hmodule htarget haugmentable =>
    have hplace : d.model.Place .augment (some module) (some target) := by
      constructor
      · simp
      · simp
      · rintro _ ⟨⟩
        exact ⟨_, hmodule, .inr ⟨rfl, rfl⟩⟩
      · rintro _ ⟨⟩
        exact ⟨_, kindAt_of_ref htarget, haugmentable⟩
    refine .inr ⟨_, _, _,
      grown_of_insert
        (n := { id := ⟨t.targetPath, none⟩, kind := .augment,
                parent := some module, target := some target })
        (fun _ => hplace.parent_lt) (fun _ => hplace.target_lt) rfl rfl
        (by simp [update, modules_insert]) ?_, hplace⟩
    intro i
    simp only [update, Array.getElem?_modify, Option.some.injEq, size]
    split <;> simp
  | change hchange => exact .inl (sameLinks_update (keepsLinks_of_change? hchange))

/-- Every command that is accepted keeps the links of a draft in step. -/
theorem linked_perform {command : Command} (h : d.model.Linked) (hd : d.perform command = .ok d') :
    d'.model.Linked := by
  obtain hsame | ⟨_, _, _, hgrown, hplace⟩ := links_of_perform hd
  · exact h.of_sameLinks hsame
  · exact h.grown hgrown hplace

theorem run_cons (d : Draft) (command : Command) (commands : List Command) :
    d.run (command :: commands) = ((d.perform command).toOption.getD d).run commands := rfl

/-- What every accepted command keeps holds after any sequence of commands. -/
theorem run_induction {P : Draft → Prop}
    (step : ∀ {d d' : Draft} {command : Command}, P d → d.perform command = .ok d' → P d')
    (commands : List Command) (h : P d) : P (d.run commands) := by
  induction commands generalizing d with
  | nil => exact h
  | cons command commands ih =>
    rw [run_cons]
    cases hd : d.perform command with
    | error e => exact ih h
    | ok d' => exact ih (step h hd)

/-- Whatever commands are given, the links of a draft stay in step. -/
theorem linked_run (commands : List Command) (h : d.model.Linked) : (d.run commands).model.Linked :=
  run_induction (P := fun d => d.model.Linked) linked_perform commands h

/-! ### Namespaces -/

/-- The modules of a draft have a namespace. -/
def Rooted (d : Draft) : Prop :=
  ∀ (i : Nat) (n : Node), d.model.nodes[i]? = some n → n.kind = .module → n.id.ns.isSome

theorem Rooted.update {change : Node → Node} (h : d.Rooted) (hk : ∀ n, (change n).kind = n.kind)
    (hns : ∀ n, n.id.ns.isSome → (change n).id.ns.isSome) : (d.update i change).Rooted := by
  intro j n hn hmod
  simp only [Draft.update, Array.getElem?_modify] at hn
  split at hn
  · obtain ⟨old, hold, rfl⟩ := Option.map_eq_some_iff.1 hn
    exact hns _ (h j old hold (hk old ▸ hmod))
  · exact h j n hn hmod

theorem Rooted.insert {n : Node} (h : d.Rooted)
    (hp : ∀ p, n.parent = some p → p < d.model.nodes.size)
    (hn : n.kind = .module → n.id.ns.isSome) : (d.insert n).Rooted := by
  intro j new hnew hmod
  rw [getElem?_insert n hp] at hnew
  split at hnew
  · cases hnew
    exact hn hmod
  · obtain ⟨old, hold, rfl⟩ := Option.map_eq_some_iff.1 hnew
    split at hmod <;> split <;> exact h j old hold hmod

theorem rooted_perform {command : Command} (h : d.Rooted) (hd : d.perform command = .ok d') :
    d'.Rooted := by
  cases perform_eq_ok_iff.1 hd with
  | @addModule name ns revision =>
    have := h.insert (n := { id := ⟨name, some ns⟩, kind := .module, revision }) (by simp)
      fun _ => rfl
    exact this
  | addChild hparent hadmits =>
    refine h.insert ?_ ?_
    · rintro _ ⟨⟩
      exact Model.lt_of_kindAt hparent
    · rintro rfl
      simp [Kind.admits] at hadmits
  | addAugment hmodule =>
    refine Rooted.update (h.insert ?_ (by simp)) (fun _ => rfl) fun _ => id
    rintro _ ⟨⟩
    exact Model.lt_of_kindAt hmodule
  | change hchange =>
    refine h.update (keepsLinks_of_change? hchange).kind fun n hn => ?_
    -- A declared namespace takes the place of another; the other changes leave it alone.
    cases command <;> cases hchange <;> first | exact hn | rfl

theorem rooted_run (commands : List Command) (h : d.Rooted) : (d.run commands).Rooted :=
  run_induction (P := fun d => d.Rooted) rooted_perform commands h

/-- The node with the namespace that it inherits from nodes that have theirs already. -/
def inheriting (done : Array Node) (n : Node) : Node :=
  { n with id := { n.id with
      ns := n.id.ns <|> (n.parent.bind fun p => done[p]?).bind fun p => p.id.ns } }

/-- The model of a draft when all namespaces are passed on. -/
def inherited (d : Draft) : Model :=
  { d.model with nodes := inheritNamespaces d.model.nodes }

/-- Freezing goes through the nodes in their order; each sees those before it. -/
theorem getElem?_inheritNamespaces (nodes : Array Node)
    (hp : ∀ (i : Nat) (h : i < nodes.size) (p : Nat), nodes[i].parent = some p → p < i) :
    (inheritNamespaces nodes).size = nodes.size ∧
      ∀ i (h : i < nodes.size), (inheritNamespaces nodes)[i]? =
        some (inheriting (inheritNamespaces nodes) nodes[i]) := by
  have key : (inheritNamespaces nodes).size = nodes.size ∧
      ∀ i (h : i < nodes.size), i < nodes.size → (inheritNamespaces nodes)[i]? =
        some (inheriting (inheritNamespaces nodes) nodes[i]) := by
    refine Array.foldl_induction
      (motive := fun k (done : Array Node) => done.size = k ∧
        ∀ i (h : i < nodes.size), i < k → done[i]? = some (inheriting done nodes[i]))
      ⟨rfl, fun i _ hi => absurd hi (Nat.not_lt_zero i)⟩ ?_
    intro ⟨k, hk⟩ done ih
    obtain ⟨hsize, hdone⟩ : done.size = k ∧
      ∀ i (h : i < nodes.size), i < k → done[i]? = some (inheriting done nodes[i]) := ih
    -- What a node inherits comes from an earlier node, so a later one changes nothing.
    have inheriting_push (new : Node) (i : Nat) (h : i < nodes.size) (hi : i ≤ k) :
        inheriting (done.push new) nodes[i] = inheriting done nodes[i] := by
      cases hq : nodes[i].parent with
      | none => simp [inheriting, hq]
      | some q =>
        have := hp i h q hq
        have hne : q ≠ done.size := by omega
        simp [inheriting, hq, Array.getElem?_push, hne]
    refine ⟨by simp [hsize], ?_⟩
    intro i h hi
    have hle : i ≤ k := Nat.le_of_lt_succ hi
    rw [inheriting_push _ i h hle, Array.getElem?_push]
    split
    · next heq =>
      obtain rfl : i = k := heq.trans hsize
      rfl
    · next hne => exact hdone i h (by omega)
  exact ⟨key.1, fun i h => key.2 i h h⟩

end Draft

namespace Model

variable {m : Model} {i : Nat}

/-- A model that a sequence of commands has drafted and that was then frozen. -/
def Built (m : Model) : Prop :=
  ∃ id commands, ((Draft.empty id).run commands).freeze = .ok m

/-- A draft is frozen if it has a module and no list has a key that is none of its leaves; then the
namespaces of its nodes are passed on. -/
theorem freeze_eq_ok_iff {d : Draft} : d.freeze = .ok m ↔
    d.model.modules ≠ [] ∧ m = d.inherited ∧ ∀ r ∈ m.refs, Draft.undeclaredKey? r = none := by
  unfold Draft.freeze
  by_cases hmodules : d.model.modules = []
  · simp [hmodules, throw, throwThe, MonadExceptOf.throw, bind, Except.bind]
  have hempty : d.model.modules.isEmpty = false := by simpa using hmodules
  simp only [hempty, Bool.false_eq_true, if_false]
  -- The search for undeclared keys goes through the nodes in order and reports the first.
  split
  · next list key hkeys =>
    obtain ⟨r, hr, hfound⟩ := List.exists_of_findSome?_eq_some hkeys
    constructor
    · rintro ⟨⟩
    · rintro ⟨-, rfl, hnone⟩
      rw [hnone r hr] at hfound
      cases hfound
  · next hkeys =>
    have hnone : ∀ r ∈ d.inherited.refs, Draft.undeclaredKey? r = none := fun r hr => by
      simpa using List.findSome?_eq_none_iff.1 hkeys r hr
    constructor
    · rintro ⟨⟩
      exact ⟨hmodules, rfl, hnone⟩
    · rintro ⟨-, rfl, -⟩
      rfl

theorem freeze_eq_ok {d : Draft} (h : d.freeze = .ok m) :
    m = d.inherited ∧ ∀ r ∈ m.refs, Draft.undeclaredKey? r = none :=
  (freeze_eq_ok_iff.1 h).2

/-- The nodes of a draft whose namespaces are passed on, one by one. -/
theorem getElem?_inherited {d : Draft} (hd : d.model.Linked) (i : Nat) :
    d.inherited.nodes[i]? = d.model.nodes[i]?.map (Draft.inheriting d.inherited.nodes) := by
  obtain ⟨hsize, hget⟩ := Draft.getElem?_inheritNamespaces d.model.nodes fun i h p hp =>
    hd.parent_lt (by simpa [parentAt, h] using hp)
  change (Draft.inheritNamespaces _)[i]? = _
  by_cases hi : i < d.model.nodes.size
  · rw [hget i hi, Array.getElem?_eq_getElem hi, Option.map_some]
    rfl
  · rw [Array.getElem?_eq_none (by omega), Array.getElem?_eq_none (by omega), Option.map_none]

theorem size_inherited {d : Draft} (hd : d.model.Linked) :
    d.inherited.nodes.size = d.model.nodes.size :=
  (Draft.getElem?_inheritNamespaces d.model.nodes fun i h p hp =>
    hd.parent_lt (by simpa [parentAt, h] using hp)).1

/-- Passing on namespaces touches no link. -/
theorem sameLinks_inherited {d : Draft} (hd : d.model.Linked) : d.model.SameLinks d.inherited := by
  refine sameLinks_of_map (fun _ => Draft.inheriting d.inherited.nodes) rfl (getElem?_inherited hd)
    fun i => ?_
  constructor <;> intro n <;> rfl

/-- The nodes of a frozen draft, one by one. -/
theorem getElem?_of_freeze {d : Draft} (hd : d.model.Linked) (h : d.freeze = .ok m) (i : Nat) :
    m.nodes[i]? = d.model.nodes[i]?.map (Draft.inheriting m.nodes) := by
  obtain ⟨rfl, -⟩ := freeze_eq_ok h
  exact getElem?_inherited hd i

/-- Freezing a draft touches no link. -/
theorem sameLinks_of_freeze {d : Draft} (hd : d.model.Linked) (h : d.freeze = .ok m) :
    d.model.SameLinks m := by
  obtain ⟨rfl, -⟩ := freeze_eq_ok h
  exact sameLinks_inherited hd

/-- The links of a built model are in step. -/
theorem Built.linked (h : m.Built) : m.Linked := by
  obtain ⟨id, commands, h⟩ := h
  have hd := Draft.linked_run commands (Draft.linked_empty id)
  exact hd.of_sameLinks (sameLinks_of_freeze hd h)

/-- Every node of a built model has a namespace. -/
theorem Built.exists_ns (h : m.Built) {n : Node} (hn : m.nodes[i]? = some n) :
    ∃ ns, n.id.ns = some ns := by
  have hlinked := h.linked
  obtain ⟨id, commands, h⟩ := h
  have hd := Draft.linked_run commands (Draft.linked_empty id)
  have hroot := Draft.rooted_run (d := .empty id) commands (by simp [Draft.Rooted, Draft.empty])
  obtain ⟨rfl, -⟩ := freeze_eq_ok h
  obtain ⟨hsize, hget⟩ := Draft.getElem?_inheritNamespaces
    ((Draft.empty id).run commands).model.nodes fun i h p hp =>
      hd.parent_lt (by simpa [parentAt, h] using hp)
  generalize ((Draft.empty id).run commands) = d at *
  -- Namespaces come from above, so the induction goes along the numbers of the nodes.
  induction i using Nat.strongRecOn generalizing n with
  | ind i ih =>
    have hi : i < d.model.nodes.size := by
      rw [← hsize]
      exact (Array.getElem?_eq_some_iff.1 hn).1
    obtain rfl : Draft.inheriting _ d.model.nodes[i] = n :=
      Option.some.inj ((hget i hi).symm.trans hn)
    cases hns : d.model.nodes[i].id.ns with
    | some ns => exact ⟨ns, by simp [Draft.inheriting, hns]⟩
    | none =>
      have hkind : d.model.kindAt i = some d.model.nodes[i].kind := by simp [kindAt, hi]
      cases hp : d.model.nodes[i].parent with
      | none =>
        have hmod := (hd.parentless hkind).1 (by simpa [parentAt, hi] using hp)
        have := hroot i _ (Array.getElem?_eq_getElem hi) hmod
        simp [hns] at this
      | some p =>
        have hlt : p < i := hd.parent_lt (by simpa [parentAt, hi] using hp)
        have hpn := hget p (by omega)
        obtain ⟨ns, hns'⟩ := ih p hlt hpn
        refine ⟨ns, ?_⟩
        change (_ <|> _) = some ns
        rw [hns, hp, Option.bind_some, hpn, Option.bind_some, hns']
        rfl

end Model

namespace Ref

variable {r c p t : Ref} {m : Model}

theorem kindAt_index (h : r.model = m) : m.kindAt r.index = some r.kind := by
  subst h
  simp [Model.kindAt, kind, node]

theorem parentAt_index (h : r.model = m) : m.parentAt r.index = r.node.parent := by
  subst h
  simp [Model.parentAt, node]

theorem targetAt_index (h : r.model = m) : m.targetAt r.index = r.node.target := by
  subst h
  simp [Model.targetAt, node]

theorem childrenAt_index (h : r.model = m) : m.childrenAt r.index = r.node.children := by
  subst h
  simp [Model.childrenAt, node]

theorem augmentsAt_index (h : r.model = m) : m.augmentsAt r.index = r.node.augments := by
  subst h
  simp [Model.augmentsAt, node]

theorem ext_iff' : r = c ↔ r.model = c.model ∧ r.index.val = c.index.val := by
  constructor
  · rintro rfl
    exact ⟨rfl, rfl⟩
  · obtain ⟨m, i⟩ := r
    obtain ⟨m', j⟩ := c
    rintro ⟨rfl, h⟩
    obtain rfl : i = j := Fin.ext h
    rfl

/-- Within one model the executable equality is equality. -/
theorem beq_ref_iff (h : r.model = c.model) : (r == c) = true ↔ r = c := by
  rw [ext_iff', and_iff_right h]
  simp [BEq.beq, h]

/-- Where a link up leads. -/
theorem earlier?_eq_some_iff {link : Option Nat} :
    c.earlier? link = some r ↔
      r.model = c.model ∧ link = some r.index.val ∧ r.index.val < c.index.val := by
  simp only [earlier?, Option.bind_eq_some_iff]
  constructor
  · rintro ⟨i, rfl, h⟩
    split at h
    · cases h
      exact ⟨rfl, rfl, by assumption⟩
    · cases h
  · rintro ⟨hm, rfl, hlt⟩
    refine ⟨_, rfl, ?_⟩
    rw [dif_pos hlt, Option.some_inj, ext_iff']
    exact ⟨hm.symm, rfl⟩

/-- The children of a node are those that have it for a parent. -/
theorem mem_children_iff (h : r.model.Linked) : c ∈ r.children ↔ c.parent? = some r := by
  rw [children, mem_later_iff, parent?, earlier?_eq_some_iff, ← childrenAt_index rfl,
    h.mem_children]
  constructor
  · rintro ⟨hm, hp, hlt⟩
    exact ⟨hm.symm, parentAt_index hm ▸ hp, hlt⟩
  · rintro ⟨hm, hp, hlt⟩
    exact ⟨hm.symm, (parentAt_index hm.symm).trans hp, hlt⟩

/-- The augments of a node are those that have it for a target. -/
theorem mem_augments_iff (h : r.model.Linked) : c ∈ r.augments ↔ c.target? = some r := by
  rw [augments, mem_later_iff, target?, earlier?_eq_some_iff, ← augmentsAt_index rfl,
    h.mem_augments]
  constructor
  · rintro ⟨hm, hp, hlt⟩
    exact ⟨hm.symm, targetAt_index hm ▸ hp, hlt⟩
  · rintro ⟨hm, hp, hlt⟩
    exact ⟨hm.symm, (targetAt_index hm.symm).trans hp, hlt⟩

theorem model_of_mem_children (h : c ∈ r.children) : c.model = r.model := (mem_later_iff.1 h).1

theorem model_of_mem_augments (h : c ∈ r.augments) : c.model = r.model := (mem_later_iff.1 h).1

theorem model_of_mem_refs (h : r ∈ m.refs) : r.model = m := by
  obtain ⟨i, -, rfl⟩ := List.mem_map.1 h
  rfl

theorem mem_refs_self (r : Ref) : r ∈ r.model.refs :=
  List.mem_map.2 ⟨r.index, List.mem_finRange _, rfl⟩

theorem mem_refs_iff : r ∈ m.refs ↔ r.model = m :=
  ⟨model_of_mem_refs, fun h => h ▸ r.mem_refs_self⟩

theorem model_of_mem_moduleRefs (h : r ∈ m.moduleRefs) : r.model = m := by
  obtain ⟨i, -, h⟩ := List.mem_filterMap.1 h
  unfold Model.ref? at h
  split at h <;> cases h
  rfl

private theorem nodup_later {links : List Nat} (h : links.Nodup) : (r.later links).Nodup := by
  refine h.filterMap ?_
  intro i j b hi hj
  simp only [Option.mem_def, Model.ref?] at hi hj
  split at hi <;> split at hj <;> try contradiction
  split at hi <;> split at hj <;> try contradiction
  cases hi
  cases hj
  rfl

theorem nodup_children (h : r.model.Linked) : r.children.Nodup :=
  nodup_later (childrenAt_index (r := r) rfl ▸ h.nodup_children r.index)

theorem nodup_augments (h : r.model.Linked) : r.augments.Nodup :=
  nodup_later (augmentsAt_index (r := r) rfl ▸ h.nodup_augments r.index)

/-- A link up that is there leads to a node. -/
private theorem exists_earlier? {i : Nat} {link : Option Nat} (hlink : link = some i)
    (hlt : i < r.index.val) : ∃ p, r.earlier? link = some p :=
  ⟨⟨r.model, i, by omega⟩, earlier?_eq_some_iff.2 ⟨rfl, hlink, hlt⟩⟩

/-- Exactly the modules are declared in no other node. -/
theorem parent?_eq_none_iff (h : r.model.Linked) : r.parent? = none ↔ r.kind = .module := by
  rw [← h.parentless (kindAt_index rfl), parentAt_index rfl]
  constructor
  · intro hn
    cases hp : r.node.parent with
    | none => rfl
    | some i =>
      obtain ⟨p, hp'⟩ := exists_earlier? hp (h.parent_lt ((parentAt_index rfl).trans hp))
      rw [parent?, hp'] at hn
      cases hn
  · intro hn
    rw [parent?, hn]
    rfl

/-- Exactly the augments have a target. -/
theorem target?_eq_none_iff (h : r.model.Linked) : r.target? = none ↔ r.kind ≠ .augment := by
  rw [← h.targetless (kindAt_index rfl), targetAt_index rfl]
  constructor
  · intro hn
    cases ht : r.node.target with
    | none => rfl
    | some i =>
      obtain ⟨t, ht'⟩ := exists_earlier? ht (h.target_lt ((targetAt_index rfl).trans ht))
      rw [target?, ht'] at hn
      cases hn
  · intro hn
    rw [target?, hn]
    rfl

/-- What is declared in a node has a place there. -/
theorem admits_of_parent? (h : r.model.Linked) (hp : r.parent? = some p) :
    Model.Admits p.kind r.kind := by
  obtain ⟨hm, hlink, -⟩ := earlier?_eq_some_iff.1 hp
  obtain ⟨q, hq, ha⟩ := h.admits ((parentAt_index rfl).trans hlink) (kindAt_index rfl)
  rw [kindAt_index hm] at hq
  cases hq
  exact ha

/-- An augment targets a node that may have children. -/
theorem isAugmentable_of_target? (h : r.model.Linked) (ht : r.target? = some t) :
    t.kind.isAugmentable = true := by
  obtain ⟨hm, hlink, -⟩ := earlier?_eq_some_iff.1 ht
  obtain ⟨q, hq, ha⟩ := h.augmentable ((targetAt_index rfl).trans hlink)
  rw [kindAt_index hm] at hq
  cases hq
  exact ha

theorem mem_moduleRefs_iff (h : m.Linked) : r ∈ m.moduleRefs ↔ r.model = m ∧ r.kind = .module := by
  simp only [Model.moduleRefs, List.mem_filterMap, Model.ref?]
  constructor
  · rintro ⟨i, hi, hr⟩
    split at hr
    · cases hr
      have := h.mem_modules.1 hi
      exact ⟨rfl, Option.some.inj ((kindAt_index rfl).symm.trans this)⟩
    · cases hr
  · rintro ⟨rfl, hk⟩
    exact ⟨r.index, h.mem_modules.2 (by rw [kindAt_index rfl, hk]), by simp⟩

/-- Every node of a built model has a namespace. -/
theorem exists_ns (h : r.model.Built) : ∃ n, r.ns = some n :=
  h.exists_ns (i := r.index) (by simp [node])

/-- The keys of the lists of a built model are leaves of them. -/
theorem exists_keyLeaf (h : r.model.Built) (hk : r.kind = .list) {key : String}
    (hkey : key ∈ r.keys) : ∃ c ∈ r.children, c.kind = .leaf ∧ c.name = key := by
  obtain ⟨id, commands, hf⟩ := h
  have := (Model.freeze_eq_ok hf).2 r r.mem_refs_self
  simp only [Draft.undeclaredKey?, hk, beq_self_eq_true, if_true, List.find?_eq_none] at this
  simpa using this key hkey

end Ref

end YangBinding.Schema
