import YangBinding.Proofs.Schema.Acceptance
import YangBinding.Proofs.Schema.Layout
import YangBinding.Proofs.Schema.Renumbering

/-!
# The order of augments

Compilation places an augment as soon as its target is there, so the order in which modules list
their augments decides about the order in which they are placed, and with it about the numbers of
their nodes. It decides about nothing else, as long as the names that are declared in a node and
contributed to it are distinct.

A draft under compilation is held against the complete draft of the same source in another order.
The nodes of the one are nodes of the other, and what is missing are the blocks of nodes that belong
to the augments that still wait. Among these the block that comes first has its target outside all
of them: its augment can be placed. So no order leads to a dead end, and all of them lead to the
same nodes.

## Main definitions

* `Source.Reordered` — the same source with the augments of its modules in another order
* `Draft.Matches` — a draft that is complete but for some blocks of nodes

## Main results

* `Draft.Matches.place` — an augment that is placed fills its block
* `Draft.Matches.not_stuck` — as long as blocks are missing, an augment can be placed
* `Source.compile_reordered` — the order of augments is a matter of numbers
-/

namespace YangBinding.Schema

/-- The same module with its augments in another order. -/
def ModuleSource.Reordered (source other : ModuleSource) : Prop :=
  ∃ augments, other = { source with augments } ∧ source.augments.Perm augments

/-- The same source with the augments of its modules in another order. -/
def Source.Reordered (source other : Source) : Prop :=
  other.id = source.id ∧ List.Forall₂ ModuleSource.Reordered source.modules other.modules

/-! ### Blocks of nodes -/

/-- An augment that has found its target, and the number that its nodes start at. -/
structure Block extends Placement where
  start : Nat

/-- The number is that of a node of the augment. -/
def Block.Covers (b : Block) (j : Nat) : Prop := b.start ≤ j ∧ j < b.start + b.count

/-- The second block comes behind the first. -/
def Block.Before (b c : Block) : Prop := b.start + b.count ≤ c.start

/-- The blocks of augments that follow one after the other from a number on. -/
def blocksFrom : Nat → List Placement → List Block
  | _, [] => []
  | i, p :: placed => { p with start := i } :: blocksFrom (i + p.count) placed

section Blocks

variable {b c : Block} {i j : Nat} {placed : List Placement}

theorem Block.Before.not_covers (h : b.Before c) (hj : b.Covers j) : ¬ c.Covers j := by
  intro hc
  have h₁ := hj.2
  have h₂ := hc.1
  rw [Before] at h
  omega

theorem map_origin_blocksFrom (i : Nat) (placed : List Placement) :
    (blocksFrom i placed).map (fun b => b.origin) = placed.map Placement.origin := by
  induction placed generalizing i with
  | nil => rfl
  | cons p placed ih => rw [blocksFrom, List.map_cons, ih, List.map_cons]

theorem le_start_of_mem_blocksFrom (h : b ∈ blocksFrom i placed) : i ≤ b.start := by
  induction placed generalizing i with
  | nil => cases h
  | cons p placed ih =>
    obtain rfl | h := List.mem_cons.1 h
    · exact Nat.le_refl _
    · exact (Nat.le_add_right _ _).trans (ih h)

theorem pairwise_blocksFrom (i : Nat) (placed : List Placement) :
    (blocksFrom i placed).Pairwise Block.Before := by
  induction placed generalizing i with
  | nil => exact .nil
  | cons p placed ih => exact .cons (fun b hb => le_start_of_mem_blocksFrom hb) (ih _)

theorem exists_covers_iff : (∃ b ∈ blocksFrom i placed, b.Covers j) ↔
    i ≤ j ∧ j < i + (placed.map Placement.count).sum := by
  induction placed generalizing i with
  | nil => simp [blocksFrom]
  | cons p placed ih =>
    rw [blocksFrom, List.exists_mem_cons_iff, ih, Block.Covers, List.map_cons, List.sum_cons]
    dsimp only
    omega

end Blocks

/-- The numbers of a draft, continued by those of a block. -/
def Block.fill (b : Block) (size : Nat) (f : Nat → Nat) (i : Nat) : Nat :=
  if i < size then f i else b.start + (i - size)

section Fill

variable {b : Block} {size i j : Nat} {f : Nat → Nat}

theorem Block.fill_of_lt (h : i < size) : b.fill size f i = f i := if_pos h

theorem Block.fill_add (k : Nat) : b.fill size f (size + k) = b.start + k := by
  rw [fill, if_neg (by omega), Nat.add_sub_cancel_left]

/-- A number is an old one or that of a node of the block. -/
theorem Block.lt_or_exists (b : Block) (hi : i < size + b.count) :
    i < size ∨ ∃ k < b.count, i = size + k := by
  by_cases h : i < size
  · exact .inl h
  · exact .inr ⟨i - size, by omega, by omega⟩

theorem Block.exists_fill_iff : (∃ i < size + b.count, b.fill size f i = j) ↔
    b.Covers j ∨ ∃ i < size, f i = j := by
  constructor
  · rintro ⟨i, hi, rfl⟩
    obtain hi | ⟨k, hk, rfl⟩ := b.lt_or_exists hi
    · exact .inr ⟨i, hi, (fill_of_lt hi).symm⟩
    · rw [fill_add]
      exact .inl ⟨by omega, by omega⟩
  · rintro (⟨hle, hlt⟩ | ⟨i, hi, rfl⟩)
    · exact ⟨size + (j - b.start), by omega, by rw [fill_add, Nat.add_sub_cancel' hle]⟩
    · exact ⟨i, Nat.lt_add_right _ hi, fill_of_lt hi⟩

/-- Different nodes have different numbers if the block is free. -/
theorem Block.fill_inj (hinj : ∀ {i j}, i < size → j < size → f i = f j → i = j)
    (hfree : ∀ {i}, i < size → ¬ b.Covers (f i)) (hi : i < size + b.count) (hj : j < size + b.count)
    (h : b.fill size f i = b.fill size f j) : i = j := by
  have hne {i k : Nat} (hi : i < size) (hk : k < b.count) : f i ≠ b.start + k :=
    fun heq => hfree hi (heq ▸ ⟨by omega, by omega⟩)
  obtain hi | ⟨k, hk, rfl⟩ := b.lt_or_exists hi <;> obtain hj | ⟨l, hl, rfl⟩ := b.lt_or_exists hj
  · rw [fill_of_lt hi, fill_of_lt hj] at h
    exact hinj hi hj h
  · rw [fill_of_lt hi, fill_add] at h
    exact absurd h (hne hi hl)
  · rw [fill_add, fill_of_lt hj] at h
    exact absurd h.symm (hne hj hk)
  · rw [fill_add, fill_add] at h
    omega

end Fill

/-! ### Links under other numbers -/

theorem Node.relabel_self (n : Node) : n.relabel (fun i => i) = n := by
  simp [relabel]

/-- Links lead to nodes of the model, so nothing else is translated. -/
theorem Model.Linked.relabel_congr {m : Model} {f g : Nat → Nat} (hm : m.Linked) {i : Nat}
    (h : ∀ j < m.nodes.size, f j = g j) :
    (m.nodes[i]?.map fun n => (m.core n).relabel f) =
      m.nodes[i]?.map fun n => (m.core n).relabel g := by
  refine Option.map_congr fun n hn => ?_
  have hi : i < m.nodes.size := (Array.getElem?_eq_some_iff.1 hn).1
  have hparent : n.parent.map f = n.parent.map g := Option.map_congr fun p hp =>
    h p ((hm.parent_lt (by simpa [parentAt, hn] using hp)).trans hi)
  have htarget : n.target.map f = n.target.map g := Option.map_congr fun t ht =>
    h t ((hm.target_lt (by simpa [targetAt, hn] using ht)).trans hi)
  have hchildren : (m.core n).children.map f = (m.core n).children.map g :=
    List.map_congr_left fun c hc => h c <|
      hm.lt_of_mem_children (i := i) (by simpa [childrenAt, hn] using List.mem_of_mem_filter hc)
  simp only [Node.relabel, hchildren]
  simp only [core, hparent, htarget, List.map_nil]

namespace Draft

variable {d d' d₁ D : Draft} {f : Nat → Nat} {b : Block} {missing : List Block}
  {placed new : List Placement} {waiting pending : List (Nat × AugmentSource)}

/-! ### What a complete draft holds -/

theorem accepts_of_upward {module target : Nat} {augment : AugmentSource}
    (h : d.model.Upward f D.model) (hmodule : module < d.size) (htarget : target < d.size) :
    D.Accepts (f module) (f target) augment ↔ d.Accepts module target augment := by
  rw [Accepts, Accepts, h.kindAt hmodule, h.kindAt htarget]

theorem size_of_graftAugment {module target : Nat} {p : Placement}
    (h : d.graftAugment module target p.source = .ok d') : d'.size = d.size + p.count := by
  obtain ⟨t, -, -, rfl⟩ := graftAugment_listing h
  rw [size_append, size_update, Placement.length_listing]
  rfl

/-- An augment of a draft has its nodes in a block. It was accepted at the node that its path
resolves to, which was there before. -/
structure Holds (d : Draft) (b : Block) : Prop where
  accepts : d.Accepts b.module b.target b.source
  resolves : ∃ t, d.resolve? b.source.target = some t ∧ t.index.val = b.target ∧
    t.targetPath = b.name
  target_lt : b.target < b.start
  node : ∀ k < b.count, d.model.nodes[b.start + k]?.map d.model.core = (b.listing b.start)[k]?

theorem Places.size (h : d.Places placed D) :
    D.size = d.size + (placed.map Placement.count).sum := by
  induction h with
  | nil => rfl
  | @cons d d₁ d' module augment t placed ht haugment _ ih =>
    have hsize : d₁.size = d.size + Placement.count ⟨module, t.index, t.targetPath, augment⟩ :=
      size_of_graftAugment haugment
    rw [ih, hsize, List.map_cons, List.sum_cons, Nat.add_assoc]

theorem Places.id (h : d.Places placed D) : D.model.id = d.model.id := by
  induction h with
  | nil => rfl
  | cons _ haugment _ ih =>
    obtain ⟨t, -, -, rfl⟩ := graftAugment_listing haugment
    exact ih

/-- Augments that are placed one after the other have their nodes in blocks that follow one after
the other. -/
theorem Places.holds (h : d.Places placed D) (hm : d.model.Linked) :
    ∀ b ∈ blocksFrom d.size placed, D.Holds b := by
  induction h with
  | nil => simp [blocksFrom]
  | @cons d d₁ D module augment t placed ht haugment hrest ih =>
    have hm₁ := linked_of_graftAugment hm haugment
    have hsize : d₁.size = d.size + Placement.count ⟨module, t.index, t.targetPath, augment⟩ :=
      size_of_graftAugment haugment
    intro b hb
    rw [blocksFrom, ← hsize] at hb
    obtain rfl | hb := List.mem_cons.1 hb
    · -- The augments that follow leave the block of the first one as it is.
      have hlater := (later_of_graftAugment haugment).trans hrest.later
      have htarget := lt_of_resolve? ht
      have haccepts := exists_graftAugment_iff.1 ⟨d₁, haugment⟩
      constructor
      case accepts =>
        exact (accepts_of_upward hlater.upward (Model.lt_of_kindAt haccepts.1) htarget).2 haccepts
      case resolves =>
        exact targets_of_upward hlater.upward hm (hrest.linked hm₁)
          (fun path i => hlater.resolveAt hm (hrest.linked hm₁)) ⟨t, ht, rfl, rfl⟩
      case target_lt => exact htarget
      case node =>
        intro k hk
        have hlt : d.size + k < d₁.size := by
          rw [hsize]
          exact Nat.add_lt_add_left hk _
        rw [hrest.later.core hm₁ hlt]
        exact core_of_graftAugment hm₁ (ref_of_resolve? ht) haugment k
    · exact ih hm₁ b hb

/-! ### A draft beside the complete one -/

/-- A draft is complete but for some blocks, which come one after the other. Modules have the same
numbers in both. -/
structure Matches (d D : Draft) (f : Nat → Nat) (missing : List Block) : Prop where
  embeds : d.model.Embeds f D.model
  fixed : ∀ i ∈ d.model.modules, f i = i
  holds : ∀ b ∈ missing, D.Holds b
  ordered : missing.Pairwise Block.Before
  covered : ∀ {j}, j < D.size → ((∃ i < d.size, f i = j) ↔ ∀ b ∈ missing, ¬ b.Covers j)

/-- At first all augments are missing. -/
theorem Places.matches (h : d.Places placed D) (hm : d.model.Linked) :
    d.Matches D (fun i => i) (blocksFrom d.size placed) := by
  constructor
  case embeds =>
    refine ⟨h.id, by rw [h.later.modules, List.map_id'], fun _ _ heq => heq, fun {i} hi => ?_⟩
    simp only [Node.relabel_self]
    exact h.later.core hm hi
  case fixed => exact fun i _ => rfl
  case holds => exact h.holds hm
  case ordered => exact pairwise_blocksFrom _ _
  -- The numbers behind those of the smaller draft are just those of the missing blocks.
  case covered =>
    intro j hj
    have hcovers : (∃ b ∈ blocksFrom d.size placed, b.Covers j) ↔ _ := exists_covers_iff
    rw [h.size] at hj
    simp only [exists_eq_right]
    constructor
    · intro hlt b hb hcov
      exact absurd (hcovers.1 ⟨b, hb, hcov⟩).1 (by omega)
    · intro hnone
      by_contra hge
      obtain ⟨b, hb, hcov⟩ := hcovers.2 ⟨by omega, hj⟩
      exact hnone b hb hcov

/-- In the end nothing is missing. -/
theorem Matches.renumbers (h : d.Matches D f []) : d.model.Renumbers f D.model :=
  { h.embeds with surj := fun hj => (h.covered hj).2 (by simp) }

/-- The module of a missing augment is there. -/
theorem Matches.mem_modules (h : d.Matches D f missing) (hm' : D.model.Linked)
    (hb : b ∈ missing) : b.module ∈ d.model.modules := by
  have hmodule := hm'.mem_modules.2 (h.holds b hb).accepts.1
  rw [h.embeds.modules, List.mem_map] at hmodule
  obtain ⟨i, hi, heq⟩ := hmodule
  rwa [← heq, h.fixed i hi]

/-- No node of the draft belongs to a missing augment. -/
theorem Matches.not_covers (h : d.Matches D f missing) (hb : b ∈ missing) {i : Nat}
    (hi : i < d.size) : ¬ b.Covers (f i) :=
  (h.covered (h.embeds.lt hi)).1 ⟨i, hi, rfl⟩ b hb

section Step

variable (hm : d.model.Linked) (hm' : D.model.Linked) (hd : D.model.Decided)
include hm hm' hd

/-- Where the path of a missing augment resolves, it leads to the target that the augment has in the
complete draft. -/
theorem Matches.target_eq {t : Ref} (h : d.Matches D f missing) (hb : b ∈ missing)
    (ht : d.resolve? b.source.target = some t) : f t.index = b.target ∧ t.targetPath = b.name := by
  obtain ⟨t', ht', hi, hname⟩ := (h.holds b hb).resolves
  have heq : t'.index.val = f t.index := Option.some.inj <|
    (resolveAt_of_resolve? hm' ht').symm.trans
      (h.embeds.resolveAt hm hm' hd (resolveAt_of_resolve? hm ht))
  refine ⟨heq.symm.trans hi, ?_⟩
  rw [← hname]
  exact (Ref.targetPath_of_upward h.embeds.upward hm hm' (model_of_resolve? ht)
    (model_of_resolve? ht') heq).symm

/-- The nodes of an augment that is placed are those of its block. -/
theorem Matches.embeds_place {t : Ref} (h : d.Matches D f missing) (hb : b ∈ missing)
    (ht : d.resolve? b.source.target = some t)
    (haugment : d.graftAugment b.module t.index b.source = .ok d₁) :
    d₁.model.Embeds (b.fill d.size f) D.model := by
  have hm₁ := linked_of_graftAugment hm haugment
  have hlater := later_of_graftAugment haugment
  have hsize : d₁.model.nodes.size = d.size + b.count := size_of_graftAugment haugment
  have hmodules : ∀ i ∈ d.model.modules, b.fill d.size f i = f i :=
    fun i hi => Block.fill_of_lt (hm.lt_of_mem_modules hi)
  constructor
  case id =>
    obtain ⟨_, -, -, rfl⟩ := graftAugment_listing haugment
    exact h.embeds.id
  case modules => rw [h.embeds.modules, hlater.modules, List.map_congr_left hmodules]
  case inj =>
    intro i j hi hj
    exact Block.fill_inj h.embeds.inj (h.not_covers hb) (hsize ▸ hi) (hsize ▸ hj)
  case node =>
    intro i hi
    obtain hi | ⟨k, hk, rfl⟩ := b.lt_or_exists (hsize ▸ hi)
    · -- An old node is declared as before, and its links lead to old nodes.
      have hcore := congrArg (Option.map (Node.relabel (b.fill d.size f))) (hlater.core hm hi)
      rw [Option.map_map, Option.map_map] at hcore
      rw [Block.fill_of_lt hi, h.embeds.node hi]
      exact (hm.relabel_congr fun j hj => (Block.fill_of_lt hj).symm).trans hcore.symm
    · -- The new ones have the same listing in both drafts, for the same module and target.
      obtain ⟨hi, hname⟩ := h.target_eq hm hm' hd hb ht
      have hfixed := h.fixed _ (h.mem_modules hm' hb)
      have hcore := congrArg (Option.map (Node.relabel (b.fill d.size f)))
        (core_of_graftAugment hm₁ (ref_of_resolve? ht) haugment k)
      rw [Option.map_map, ← List.getElem?_map, Placement.map_relabel_listing _ fun k _ =>
        Block.fill_add k] at hcore
      rw [Block.fill_add, (h.holds b hb).node k hk]
      refine Eq.trans ?_ hcore.symm
      simp only [hmodules _ (h.mem_modules hm' hb), hfixed,
        Block.fill_of_lt (lt_of_resolve? ht), hi, hname]

/-- An augment that is placed fills its block. -/
theorem Matches.place {pre post : List Block} {t : Ref}
    (h : d.Matches D f (pre ++ b :: post)) (ht : d.resolve? b.source.target = some t)
    (haugment : d.graftAugment b.module t.index b.source = .ok d₁) :
    d₁.Matches D (b.fill d.size f) (pre ++ post) := by
  have hb : b ∈ pre ++ b :: post := by simp
  have hsize : d₁.size = d.size + b.count := size_of_graftAugment haugment
  have hsub : (pre ++ post).Sublist (pre ++ b :: post) :=
    (List.Sublist.refl pre).append (List.sublist_cons_self b post)
  have hembeds := h.embeds_place hm hm' hd hb ht haugment
  -- Nothing else is missing at the numbers of the block.
  have hother : ∀ c ∈ pre ++ post, ∀ {j}, b.Covers j → ¬ c.Covers j := by
    obtain ⟨-, hpost, hpre⟩ := List.pairwise_append.1 h.ordered
    intro c hc j hj hcov
    obtain hc | hc := List.mem_append.1 hc
    · exact (hpre c hc b (by simp)).not_covers hcov hj
    · exact ((List.pairwise_cons.1 hpost).1 c hc).not_covers hj hcov
  constructor
  case embeds => exact hembeds
  case fixed =>
    intro i hi
    rw [(later_of_graftAugment haugment).modules] at hi
    have hlt : i < d.size := hm.lt_of_mem_modules hi
    rw [Block.fill_of_lt hlt, h.fixed i hi]
  case holds => exact fun c hc => h.holds c (hsub.subset hc)
  case ordered => exact h.ordered.sublist hsub
  case covered =>
    intro j hj
    rw [hsize, Block.exists_fill_iff, h.covered hj]
    constructor
    · rintro (hcov | hnone) c hc
      · exact hother c hc hcov
      · exact hnone c (hsub.subset hc)
    · intro hnone
      refine or_iff_not_imp_left.2 fun hcov c hc => ?_
      obtain hc | rfl | hc := by simpa using hc
      · exact hnone c (by simp [hc])
      · exact hcov
      · exact hnone c (by simp [hc])

/-- A missing augment is accepted where its path resolves. -/
theorem Matches.accepts {t : Ref} (h : d.Matches D f missing) (hb : b ∈ missing)
    (ht : d.resolve? b.source.target = some t) : d.Accepts b.module t.index b.source := by
  have hmodule := h.mem_modules hm' hb
  have haccepts := (h.holds b hb).accepts
  rwa [← (h.target_eq hm hm' hd hb ht).1, ← h.fixed _ hmodule, accepts_of_upward h.embeds.upward
    (hm.lt_of_mem_modules hmodule) (lt_of_resolve? ht)] at haccepts

/-- The path of the first missing augment resolves. -/
theorem Matches.exists_resolve? (h : d.Matches D f (b :: missing)) :
    ∃ t, d.resolve? b.source.target = some t := by
  have hb : b ∈ b :: missing := List.mem_cons_self
  obtain ⟨t, ht, hi, -⟩ := (h.holds b hb).resolves
  have hat := resolveAt_of_resolve? hm' ht
  rw [hi] at hat
  -- The target comes before the first block that is missing, and so does all that is on the way.
  have hthere : ∀ k ≤ b.target, k < D.size → ∃ i < d.size, f i = k := by
    intro k hk hlt
    refine (h.covered hlt).2 fun c hc hcov => ?_
    have hbk : k < b.start := hk.trans_lt (h.holds b hb).target_lt
    have hck := hcov.1
    obtain rfl | hc := List.mem_cons.1 hc
    · omega
    · have hbc := (List.pairwise_cons.1 h.ordered).1 c hc
      rw [Block.Before] at hbc
      omega
  obtain ⟨i, hi, -⟩ := h.embeds.exists_resolveAt hm hm' hd hat hthere
  obtain ⟨t', ht', -⟩ := Draft.exists_resolve? hm hi
  exact ⟨t', ht'⟩

/-- As long as blocks are missing, the first of them can be filled, and no augment is refused. -/
theorem Matches.not_stuck {e : ModelError} (h : d.Matches D f missing)
    (hperm : waiting.Perm (missing.map fun b => b.origin)) : ¬ d.Stuck waiting e := by
  rintro (⟨p, hp, t, ht, herror⟩ | ⟨-, hne, hnone⟩)
  · obtain ⟨b, hb, rfl⟩ := List.mem_map.1 (hperm.subset hp)
    obtain ⟨d', hok⟩ := exists_graftAugment_iff.2 (h.accepts hm hm' hd hb ht)
    cases herror.symm.trans hok
  · obtain _ | ⟨b, rest⟩ := missing
    · exact hne (List.perm_nil.1 hperm)
    · obtain ⟨t, ht⟩ := h.exists_resolve? hm hm' hd
      have hwaits : b.origin ∈ waiting := hperm.symm.subset List.mem_cons_self
      cases (hnone b.origin hwaits).symm.trans ht

end Step

/-- Augments that are placed one after the other fill their blocks; those that wait are missing. -/
theorem Matches.run (h : d.Matches D f missing) (hplaces : d.Places new d') (hm : d.model.Linked)
    (hm' : D.model.Linked) (hd : D.model.Decided)
    (hperm : (new.map Placement.origin ++ waiting).Perm (missing.map fun b => b.origin)) :
    ∃ f' missing', d'.Matches D f' missing' ∧ waiting.Perm (missing'.map fun b => b.origin) := by
  induction hplaces generalizing f missing with
  | nil => exact ⟨f, missing, h, hperm⟩
  | @cons d d₁ d' module augment t placed ht haugment _ ih =>
    -- The augment is one of those that are missing, wherever its block stands among the others.
    obtain ⟨b, hb, horigin⟩ := List.mem_map.1 (hperm.subset List.mem_cons_self)
    obtain ⟨rfl, rfl⟩ := Prod.mk.inj horigin
    obtain ⟨pre, post, rfl⟩ := List.append_of_mem hb
    have hrest : (placed.map Placement.origin ++ waiting).Perm
        ((pre ++ post).map fun b => b.origin) := by
      refine List.Perm.cons_inv (hperm.trans ?_)
      rw [List.map_append, List.map_cons, List.map_append]
      exact List.perm_middle
    exact ih (h.place hm hm' hd ht haugment) (linked_of_graftAugment hm haugment) hrest

/-- If all augments can be placed in one order, then in every order, and the nodes are the same. -/
theorem exists_settle (hplaces : d.Places placed D) (hm : d.model.Linked) (hd : D.model.Decided)
    (hperm : pending.Perm (placed.map Placement.origin)) :
    ∃ d' f, d.settle pending = .ok d' ∧ d'.model.Linked ∧ d'.model.Renumbers f D.model := by
  have hm' := hplaces.linked hm
  rw [← map_origin_blocksFrom d.size] at hperm
  obtain ⟨hok, herror⟩ := places_of_settle d pending
  cases hsettle : d.settle pending with
  | error e =>
    -- What waits is what is missing, so it cannot be stuck.
    obtain ⟨new, waiting, d', hnew, hpending, hstuck⟩ := herror e hsettle
    obtain ⟨f, missing, hmatch, hwaiting⟩ :=
      (hplaces.matches hm).run hnew hm hm' hd (hpending.trans hperm)
    exact absurd hstuck (hmatch.not_stuck (hnew.linked hm) hm' hd hwaiting)
  | ok d' =>
    -- Nothing waits, so nothing is missing.
    obtain ⟨new, hnew, hpending⟩ := hok d' hsettle
    have hall : (new.map Placement.origin ++ []).Perm
        ((blocksFrom d.size placed).map fun b : Block => b.origin) := by
      simpa using hpending.trans hperm
    obtain ⟨f, missing, hmatch, hwaiting⟩ := (hplaces.matches hm).run hnew hm hm' hd hall
    obtain rfl : missing = [] := by simpa using hwaiting
    exact ⟨d', f, rfl, hnew.linked hm, hmatch.renumbers⟩

/-- Augments are left aside when modules are drafted. -/
theorem graftModules_of_reordered {sources others : List ModuleSource}
    (h : List.Forall₂ ModuleSource.Reordered sources others)
    (hd : d.graftModules sources = .ok (d', pending)) :
    ∃ pending', d.graftModules others = .ok (d', pending') ∧ pending'.Perm pending := by
  induction h generalizing d pending with
  | nil => exact ⟨pending, hd, .refl _⟩
  | @cons source other sources others hsource _ ih =>
    obtain ⟨augments, rfl, hperm⟩ := hsource
    obtain ⟨d₁, hmodule, hd⟩ := Except.bind_eq_ok_iff.1 hd
    obtain ⟨⟨last, rest⟩, hmodules, hd⟩ := Except.bind_eq_ok_iff.1 hd
    cases hd
    obtain ⟨rest', hmodules', hrest⟩ := ih hmodules
    refine ⟨augments.map (fun a => (d.size, a)) ++ rest', ?_, (hperm.symm.map _).append hrest⟩
    exact Except.bind_eq_ok_iff.2 ⟨d₁, hmodule, Except.bind_eq_ok_iff.2 ⟨_, hmodules', rfl⟩⟩

end Draft

/-- The order in which modules list their augments is a matter of numbers. If a source compiles, and
what is declared in a node has other names than what augments contribute to it, then the source also
compiles with the augments in any other order. The model has the same nodes under other numbers:
they agree in everything that is declared of them, in their parents and targets, and in the order of
what they contain; only augments may be listed in another order. -/
theorem Source.compile_reordered {source other : Source} {m : Model} (h : source.Reordered other)
    (hm : source.compile = .ok m) (hnames : m.DistinctNames) :
    ∃ m' f, other.compile = .ok m' ∧ m'.Renumbers f m := by
  obtain ⟨hid, hsources⟩ := h
  obtain ⟨⟨d, augments⟩, hmodules, hm⟩ := Except.bind_eq_ok_iff.1 hm
  obtain ⟨D, hsettle, hfreeze⟩ := Except.bind_eq_ok_iff.1 hm
  -- Both compilations start from the same draft, to which only modules have been added.
  obtain ⟨augments', hmodules', hperm⟩ := Draft.graftModules_of_reordered hsources hmodules
  obtain ⟨commands, rfl⟩ := Draft.extends_of_graftModules hmodules
  have hlinked := Draft.linked_run commands (Draft.linked_empty source.id)
  obtain ⟨placed, hplaces, hplaced⟩ := (Draft.places_of_settle _ _).1 D hsettle
  have hlinkedD := hplaces.linked hlinked
  have hdecided : D.model.Decided := (hnames.of_freeze hlinkedD hfreeze).decided hlinkedD
  obtain ⟨d', f, hsettle', hlinked', hrenumbers⟩ :=
    Draft.exists_settle hplaces hlinked hdecided (hperm.trans hplaced.symm)
  obtain ⟨m', hfreeze', hsame⟩ := hrenumbers.freeze hlinked' hlinkedD hfreeze
  refine ⟨m', f, ?_, hsame⟩
  rw [compile, hid]
  exact Except.bind_eq_ok_iff.2
    ⟨_, hmodules', Except.bind_eq_ok_iff.2 ⟨d', hsettle', hfreeze'⟩⟩

/-! ### A rack with a lamp

The lamp and the tray are placed in the order in which they are listed, the labels of the slots in
any case after the tray. -/

namespace Rack

def lamp : AugmentSource where
  target := "/rack:shelf"
  children := [{ kind := .leaf, name := "lamp" }]

def litModel : Model where
  id := "rack"
  nodes := #[
    { id := ⟨"rack", some "urn:rack"⟩, kind := .module, children := [1, 2, 6, 8] },
    { id := ⟨"shelf", some "urn:rack"⟩, kind := .container, parent := some 0, augments := [2, 6],
      className := some "Shelf" },
    { id := ⟨"/shelf", some "urn:rack"⟩, kind := .augment, parent := some 0, target := some 1,
      children := [3], className := some "ShelfExtra" },
    { id := ⟨"tray", some "urn:rack"⟩, kind := .container, parent := some 2, children := [4] },
    { id := ⟨"slot", some "urn:rack"⟩, kind := .list, parent := some 3, children := [5],
      keys := ["number"], augments := [8], config := false },
    { id := ⟨"number", some "urn:rack"⟩, kind := .leaf, parent := some 4 },
    { id := ⟨"/shelf", some "urn:rack"⟩, kind := .augment, parent := some 0, target := some 1,
      children := [7] },
    { id := ⟨"lamp", some "urn:rack"⟩, kind := .leaf, parent := some 6 },
    { id := ⟨"/shelf/tray/slot", some "urn:rack"⟩, kind := .augment, parent := some 0,
      target := some 4, children := [9] },
    { id := ⟨"label", some "urn:rack"⟩, kind := .leaf, parent := some 8 }]
  modules := [0]

end Rack

theorem compile_reordered_rack :
    (Rack.source [Rack.label, Rack.tray, Rack.lamp]).Reordered
        (Rack.source [Rack.lamp, Rack.label, Rack.tray]) ∧
      (Rack.source [Rack.label, Rack.tray, Rack.lamp]).compile = .ok Rack.litModel ∧
      Rack.litModel.DistinctNames ∧
      ∃ m f, (Rack.source [Rack.lamp, Rack.label, Rack.tray]).compile = .ok m ∧
        m.Renumbers f Rack.litModel := by
  have hmodel : (Rack.source [Rack.label, Rack.tray, Rack.lamp]).compile = .ok Rack.litModel := by
    decide +kernel
  have hperm : ([Rack.label, Rack.tray] ++ [Rack.lamp]).Perm [Rack.lamp, Rack.label, Rack.tray] :=
    List.perm_append_comm
  have hreordered : (Rack.source [Rack.label, Rack.tray, Rack.lamp]).Reordered
      (Rack.source [Rack.lamp, Rack.label, Rack.tray]) :=
    ⟨rfl, .cons ⟨_, rfl, hperm⟩ .nil⟩
  have hnames : Rack.litModel.DistinctNames := by
    intro i
    by_cases hi : i < 10
    · decide +revert +kernel
    · have hsize : Rack.litModel.nodes.size ≤ i := Nat.le_of_not_lt hi
      simp [Model.declaredAt, Model.contributedAt, Model.childrenAt_eq_nil hsize,
        Model.augmentsAt_eq_nil hsize]
  exact ⟨hreordered, hmodel, hnames, Source.compile_reordered hreordered hmodel hnames⟩

end YangBinding.Schema
