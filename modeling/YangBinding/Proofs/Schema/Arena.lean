import YangBinding.Proofs.Schema.Unguarded

/-!
# Node tables of drafts and built models

Commands come with arbitrary numbers in place of nodes, in any order, and those that make no sense
are refused. What they leave behind is a table in good order all the same: links lead to earlier
nodes, lists of links are complete and increasing, and no node stands where its kind has no place.
That order is what makes every walk come to its end.

## Main definitions

* `Model.Ordered` — the lists of a model are increasing
* `Model.Arena` — the table of a model is in good order

## Main results

* `Draft.ordered_run` — nodes are numbered in the order in which they are added
* `Draft.arena_run` — so the table of a draft, and of the model it is frozen to, is in good order,
  and every walk over it ends
-/

namespace YangBinding.Schema

namespace Model

variable {m m' : Model} {i j p : Nat} {k q : Kind}

/-! ### Order -/

/-- Every list of links names its nodes once, in the order in which they were added. -/
structure Ordered (m : Model) : Prop where
  modules : m.modules.Pairwise (· < ·)
  children : ∀ i, (m.childrenAt i).Pairwise (· < ·)
  augments : ∀ i, (m.augmentsAt i).Pairwise (· < ·)

theorem Ordered.of_sameLinks (h : m.Ordered) (s : m.SameLinks m') : m'.Ordered where
  modules := s.modules ▸ h.modules
  children i := s.children i ▸ h.children i
  augments i := s.augments i ▸ h.augments i

/-- The newest node comes after all that are listed already. -/
private theorem increasing_append_newest {xs : List Nat} {n : Nat} {c : Prop} [Decidable c]
    (hxs : xs.Pairwise (· < ·)) (hlt : ∀ x ∈ xs, x < n) :
    (xs ++ if c then [n] else []).Pairwise (· < ·) := by
  split
  · rw [List.pairwise_append]
    exact ⟨hxs, List.pairwise_singleton _ _, by simpa using hlt⟩
  · simpa using hxs

theorem Ordered.grown {parent target : Option Nat} (h : m.Ordered) (hm : m.Linked)
    (g : Grown m m' k parent target) : m'.Ordered where
  modules := by
    rw [g.modules]
    exact increasing_append_newest h.modules fun _ => hm.lt_of_mem_modules
  children := by
    intro i
    rw [g.childrenAt]
    exact increasing_append_newest (h.children i) fun _ => hm.lt_of_mem_children
  augments := by
    intro i
    rw [g.augmentsAt]
    exact increasing_append_newest (h.augments i) fun _ => hm.lt_of_mem_augments

/-! ### Places -/

theorem canHoldChildren_of_admits (h : Admits q k) : q.canHoldChildren = true := by
  obtain h | ⟨rfl, -⟩ := h
  · cases q <;> cases k <;> first | rfl | cases h
  · rfl

theorem parent_of_admits_case (h : Admits q .case) : q = .choice ∨ q = .augment := by
  obtain h | ⟨-, h⟩ := h
  · simpa [Kind.admits] using h
  · cases h

theorem parent_of_admits_operand (hk : k = .input ∨ k = .output) (h : Admits q k) : q = .rpc := by
  obtain h | ⟨-, rfl⟩ := h
  · obtain rfl | rfl := hk <;> simpa [Kind.admits] using h
  · simp at hk

theorem parent_of_admits_top (hk : k = .rpc ∨ k = .augment) (h : Admits q k) : q = .module := by
  obtain h | ⟨hq, -⟩ := h
  · obtain rfl | rfl := hk
    · simpa [Kind.admits] using h
    · cases h
  · exact hq

/-- The node table of a model is in good order. -/
structure Arena (m : Model) : Prop where
  /-- Exactly the modules have no parent, and exactly they are listed as modules. -/
  parentless : ∀ i < m.nodes.size,
    (m.parentAt i = none ↔ m.kindAt i = some .module ∧ i ∈ m.modules)
  mem_modules : ∀ i, i ∈ m.modules ↔ m.kindAt i = some .module
  modules_increasing : m.modules.Pairwise (· < ·)
  parent_lt : ∀ i p, m.parentAt i = some p → p < i
  target_lt : ∀ i t, m.targetAt i = some t → t < i
  mem_children : ∀ i j, j ∈ m.childrenAt i ↔ m.parentAt j = some i
  children_increasing : ∀ i, (m.childrenAt i).Pairwise (· < ·)
  mem_augments : ∀ i j, j ∈ m.augmentsAt i ↔ m.targetAt j = some i
  augments_increasing : ∀ i, (m.augmentsAt i).Pairwise (· < ·)
  /-- Exactly the augments have a target. -/
  targeted : ∀ i, (∃ t, m.targetAt i = some t) ↔ m.kindAt i = some .augment
  /-- Nothing is declared in what ends a path, and nothing is contributed to it. -/
  barren : ∀ i k, m.kindAt i = some k → k = .leaf ∨ k = .leafList ∨ k = .anydata →
    m.childrenAt i = [] ∧ m.augmentsAt i = []
  case : ∀ i, m.kindAt i = some .case →
    ∃ p, m.parentAt i = some p ∧ (m.kindAt p = some .choice ∨ m.kindAt p = some .augment)
  operand : ∀ i, m.kindAt i = some .input ∨ m.kindAt i = some .output →
    ∃ p, m.parentAt i = some p ∧ m.kindAt p = some .rpc
  top : ∀ i, m.kindAt i = some .rpc ∨ m.kindAt i = some .augment →
    ∃ p, m.parentAt i = some p ∧ m.kindAt p = some .module

theorem exists_kindAt (hi : i < m.nodes.size) : ∃ k, m.kindAt i = some k :=
  ⟨m.nodes[i].kind, by simp [kindAt, hi]⟩

theorem lt_of_targetAt {t : Nat} (h : m.targetAt i = some t) : i < m.nodes.size := by
  by_contra hi
  rw [targetAt_eq_none (by omega)] at h
  cases h

theorem lt_of_parentAt (h : m.parentAt i = some p) : i < m.nodes.size := by
  by_contra hi
  rw [parentAt_eq_none (by omega)] at h
  cases h

/-- A node that is no module has a place in its parent. -/
theorem Linked.exists_parent (h : m.Linked) (hk : m.kindAt i = some k) (hne : k ≠ .module) :
    ∃ p q, m.parentAt i = some p ∧ m.kindAt p = some q ∧ Admits q k := by
  cases hp : m.parentAt i with
  | none => exact absurd ((h.parentless hk).1 hp) hne
  | some p =>
    obtain ⟨q, hq, hadmits⟩ := h.admits hp hk
    exact ⟨p, q, rfl, hq, hadmits⟩

/-- What has a child or an augment can hold children. -/
theorem Linked.canHoldChildren (h : m.Linked) (hk : m.kindAt i = some k)
    (hj : j ∈ m.childrenAt i ∨ j ∈ m.augmentsAt i) : k.canHoldChildren = true := by
  obtain hj | hj := hj
  · have hparent := h.mem_children.1 hj
    obtain ⟨k', hk'⟩ := exists_kindAt (lt_of_parentAt hparent)
    obtain ⟨q, hq, hadmits⟩ := h.admits hparent hk'
    obtain rfl : k = q := Option.some.inj (hk.symm.trans hq)
    exact canHoldChildren_of_admits hadmits
  · obtain ⟨q, hq, haugmentable⟩ := h.augmentable (h.mem_augments.1 hj)
    obtain rfl : k = q := Option.some.inj (hk.symm.trans hq)
    exact (Bool.and_eq_true_iff.1 haugmentable).1

theorem Linked.arena (h : m.Linked) (ho : m.Ordered) : m.Arena where
  parentless := by
    intro i hi
    obtain ⟨k, hk⟩ := exists_kindAt hi
    rw [h.parentless hk, h.mem_modules, hk]
    simp
  mem_modules _ := h.mem_modules
  modules_increasing := ho.modules
  parent_lt _ _ := h.parent_lt
  target_lt _ _ := h.target_lt
  mem_children _ _ := h.mem_children
  children_increasing := ho.children
  mem_augments _ _ := h.mem_augments
  augments_increasing := ho.augments
  -- A node has a target exactly if it is an augment; the links say when it has none.
  targeted := by
    intro i
    constructor
    · rintro ⟨t, ht⟩
      obtain ⟨k, hk⟩ := exists_kindAt (lt_of_targetAt ht)
      have := (not_congr (h.targetless hk)).1 (by simp [ht])
      rw [hk, not_not.1 this]
    · intro hk
      exact Option.ne_none_iff_exists'.1 fun hn => (h.targetless hk).1 hn rfl
  barren := by
    intro i k hk hbarren
    have hheld : k.canHoldChildren = false := by
      obtain rfl | rfl | rfl := hbarren <;> rfl
    -- Whoever is listed below a node makes it one of the kinds that hold nodes.
    constructor <;> refine List.eq_nil_iff_forall_not_mem.2 fun j hj => ?_
    · simpa [hheld] using h.canHoldChildren hk (.inl hj)
    · simpa [hheld] using h.canHoldChildren hk (.inr hj)
  case := by
    intro i hk
    obtain ⟨p, q, hp, hq, hadmits⟩ := h.exists_parent hk (by decide)
    exact ⟨p, hp, by simpa [hq] using parent_of_admits_case hadmits⟩
  operand := by
    intro i hk
    obtain ⟨k, hki, hk⟩ : ∃ k, m.kindAt i = some k ∧ (k = .input ∨ k = .output) := by
      obtain hk | hk := hk
      · exact ⟨_, hk, .inl rfl⟩
      · exact ⟨_, hk, .inr rfl⟩
    obtain ⟨p, q, hp, hq, hadmits⟩ := h.exists_parent hki (by rintro rfl; simp at hk)
    exact ⟨p, hp, by rw [hq, parent_of_admits_operand hk hadmits]⟩
  top := by
    intro i hk
    obtain ⟨k, hki, hk⟩ : ∃ k, m.kindAt i = some k ∧ (k = .rpc ∨ k = .augment) := by
      obtain hk | hk := hk
      · exact ⟨_, hk, .inl rfl⟩
      · exact ⟨_, hk, .inr rfl⟩
    obtain ⟨p, q, hp, hq, hadmits⟩ := h.exists_parent hki (by rintro rfl; simp at hk)
    exact ⟨p, hp, by rw [hq, parent_of_admits_top hk hadmits]⟩

end Model

namespace Draft

variable {d d' : Draft}

theorem ordered_perform {command : Command} (h : d.model.Ordered) (hm : d.model.Linked)
    (hd : d.perform command = .ok d') : d'.model.Ordered := by
  obtain hsame | ⟨_, _, _, hgrown, -⟩ := links_of_perform hd
  · exact h.of_sameLinks hsame
  · exact h.grown hm hgrown

/-- Whatever commands are given, nodes are listed in the order in which they were added. -/
theorem ordered_run (id : String) (commands : List Command) :
    ((empty id).run commands).model.Ordered := by
  have hempty : (empty id).model.Linked ∧ (empty id).model.Ordered :=
    ⟨linked_empty id, by constructor <;> simp [empty, Model.childrenAt, Model.augmentsAt]⟩
  refine (run_induction (P := fun d => d.model.Linked ∧ d.model.Ordered) ?_ commands hempty).2
  intro d d' command h hd
  exact ⟨linked_perform h.1 hd, ordered_perform h.2 h.1 hd⟩

/-- A command that is refused changes nothing. -/
theorem run_refused {command : Command} {e : ModelError} (commands : List Command)
    (h : (d.run commands).perform command = .error e) :
    d.run (commands ++ [command]) = d.run commands := by
  unfold run at h ⊢
  rw [List.foldl_append, List.foldl_cons, List.foldl_nil, h]
  rfl

/-- Whatever commands are given, with whatever numbers, those that are refused change nothing, and
the others leave a table in good order, on which every walk comes to its end. Freezing keeps it
so. -/
theorem arena_run (id : String) (commands : List Command) :
    let d := (empty id).run commands
    (∀ command e, d.perform command = .error e → (empty id).run (commands ++ [command]) = d) ∧
      d.model.Arena ∧ d.model.Walkable ∧ ∀ m, d.freeze = .ok m → m.Arena ∧ m.Walkable := by
  intro d
  have hlinked : d.model.Linked := linked_run commands (linked_empty id)
  have hordered : d.model.Ordered := ordered_run id commands
  refine ⟨fun _ _ => run_refused commands, hlinked.arena hordered, hlinked.walkable, ?_⟩
  intro m hm
  have hsame := Model.sameLinks_of_freeze hlinked hm
  have hm' := hlinked.of_sameLinks hsame
  exact ⟨hm'.arena (hordered.of_sameLinks hsame), hm'.walkable⟩

end Draft

/-! ### A bench

Two of the commands are refused: the first names a node that is not there, the other declares a
leaf where only cases have a place. -/

namespace Bench

def commands : List Draft.Command :=
  [.addModule "bench" "urn:bench" none, .addChild 0 .container "vice", .addChild 7 .leaf "jaw",
    .addChild 1 .choice "grip", .addChild 2 .leaf "force", .addAugment 0 2, .addChild 3 .case "soft"]

def model : Model where
  id := "bench"
  nodes := #[
    { id := ⟨"bench", some "urn:bench"⟩, kind := .module, children := [1, 3] },
    { id := ⟨"vice", some "urn:bench"⟩, kind := .container, parent := some 0, children := [2] },
    { id := ⟨"grip", some "urn:bench"⟩, kind := .choice, parent := some 1, augments := [3] },
    { id := ⟨"/vice/grip", some "urn:bench"⟩, kind := .augment, parent := some 0, target := some 2,
      children := [4] },
    { id := ⟨"soft", some "urn:bench"⟩, kind := .case, parent := some 3 }]
  modules := [0]

end Bench

/-- An augment of a container is refused where it is declared in the container itself, and the model
of the bench is in good order. -/
theorem arena_run_bench :
    (Draft.empty "bench").run (Bench.commands ++ [.addAugment 1 2]) =
        (Draft.empty "bench").run Bench.commands ∧
      Bench.model.Arena ∧ Bench.model.Walkable := by
  obtain ⟨hrefused, -, -, hfreeze⟩ := Draft.arena_run "bench" Bench.commands
  have hmodel : ((Draft.empty "bench").run Bench.commands).freeze = .ok Bench.model := by
    decide +kernel
  exact ⟨hrefused (.addAugment 1 2) .augmentOutsideModule (by decide +kernel), hfreeze _ hmodel⟩

end YangBinding.Schema
