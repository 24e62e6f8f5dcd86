import YangBinding.Proofs.Schema.Listing
import YangBinding.Proofs.Schema.Resolution

/-!
# Placing augments

Compilation places augments one after the other, each at the node that its path resolves to at the
time. The rounds decide about the order alone: however they end, what they have done is a sequence
of such steps, and either nothing is left, or nothing of what is left can be placed, or an augment
is refused at the node that its path leads to.

An augment that is placed adds nodes behind the others and links to two of them, its module and its
target. Everything else stays what it was, and so does the place of every path that resolves.

## Main definitions

* `Model.core` — what is declared of a node, without the links that augments have added
* `Draft.Places` — a sequence of augments that are placed, and the draft that they lead to
* `Draft.Stuck` — some augments wait, but none of them has a target, or one is refused there

## Main results

* `Draft.core_of_graftAugment` — an augment adds the nodes of its listing, all others stay
* `Draft.places_of_settle` — how rounds end
-/

namespace YangBinding.Schema

/-- What is declared of a node, without the links that augments have added to it. -/
def Model.core (m : Model) (n : Node) : Node :=
  { n with
    children := n.children.filter fun c => m.kindAt c != some .augment
    augments := [] }

/-- The module and the declaration of an augment that is placed. -/
def Placement.origin (p : Placement) : Nat × AugmentSource := (p.module, p.source)

namespace Model

variable {m m' m'' : Model} {i : Nat} {n : Node}

/-- A node that no augment touches is declared as it is. -/
theorem core_of_untouched (haugments : n.augments = [])
    (hchildren : ∀ c ∈ n.children, m.kindAt c ≠ some .augment) : m.core n = n := by
  have hfilter : (n.children.filter fun c => m.kindAt c != some .augment) = n.children := by
    simpa [List.filter_eq_self] using hchildren
  rw [core, hfilter, ← haugments]

/-- Augments that are added later change nothing about what is declared. -/
theorem Later.core (h : m.Later m') (hm : m.Linked) (hi : i < m.nodes.size) :
    m'.nodes[i]?.map m'.core = m.nodes[i]?.map m.core := by
  obtain ⟨children, augments, hn', haugment⟩ := h.node (Array.getElem?_eq_getElem hi)
  have hnew : (children.filter fun c => m'.kindAt c != some .augment) = [] := by
    simpa [List.filter_eq_nil_iff] using haugment
  have hold : (m.nodes[i].children.filter fun c => m'.kindAt c != some .augment) =
      m.nodes[i].children.filter fun c => m.kindAt c != some .augment := by
    refine List.filter_congr fun c hc => ?_
    have hmem : c ∈ m.childrenAt i := by simpa [Model.childrenAt, hi] using hc
    rw [h.kindAt (hm.lt_of_mem_children hmem)]
  rw [hn', Array.getElem?_eq_getElem hi, Option.map_some, Option.map_some, Model.core,
    List.filter_append, hnew, hold, List.append_nil]
  rfl

theorem Later.refl (m : Model) : m.Later m := by
  refine ⟨rfl, fun {i n} hn => ⟨[], [], ?_, by simp⟩⟩
  simp [hn]

theorem Later.trans (h : m.Later m') (h' : m'.Later m'') : m.Later m'' := by
  refine ⟨h'.modules.trans h.modules, fun {i n} hn => ?_⟩
  obtain ⟨children, augments, hn', haugment⟩ := h.node hn
  obtain ⟨children', augments', hn'', haugment'⟩ := h'.node hn'
  refine ⟨children ++ children', augments ++ augments', ?_, fun c hc => ?_⟩
  · simpa using hn''
  · obtain hc | hc := List.mem_append.1 hc
    · rw [h'.kindAt (lt_of_kindAt (haugment c hc)), haugment c hc]
    · exact haugment' c hc

end Model

/-! ### Listed nodes -/

mutual

/-- Listed nodes are declared in other nodes, and no augment touches them. -/
theorem NodeSource.of_mem_listing {n : Node} {i parent : Nat} : ∀ {source : NodeSource},
    n ∈ source.listing i parent → n.parent.isSome ∧ n.target = none ∧ n.augments = []
  | ⟨_, _, _, _, _, _, children⟩, h => by
    rw [listing, List.mem_cons] at h
    obtain rfl | h := h
    · exact ⟨rfl, rfl, rfl⟩
    · exact NodeSource.of_mem_listingAll h

theorem NodeSource.of_mem_listingAll {n : Node} {i parent : Nat} : ∀ {sources : List NodeSource},
    n ∈ NodeSource.listingAll i parent sources →
      n.parent.isSome ∧ n.target = none ∧ n.augments = []
  | [], h => by
    rw [listingAll] at h
    cases h
  | source :: sources, h => by
    rw [listingAll, List.mem_append] at h
    obtain h | h := h
    · exact NodeSource.of_mem_listing h
    · exact NodeSource.of_mem_listingAll h

end

theorem ModuleSource.of_mem_listing {n : Node} {i : Nat} {source : ModuleSource}
    (h : n ∈ source.listing i) : n.target = none ∧ n.augments = [] := by
  rw [listing, List.mem_cons] at h
  obtain rfl | h := h
  · exact ⟨rfl, rfl⟩
  · exact (NodeSource.of_mem_listingAll h).2

theorem Placement.of_mem_listing {n : Node} {i : Nat} {p : Placement} (h : n ∈ p.listing i) :
    n.parent.isSome ∧ n.augments = [] := by
  rw [listing, List.mem_cons] at h
  obtain rfl | h := h
  · exact ⟨rfl, rfl⟩
  · obtain ⟨hparent, -, haugments⟩ := NodeSource.of_mem_listingAll h
    exact ⟨hparent, haugments⟩

/-- What has a target in the listing of an augment is the augment. -/
theorem Placement.target_of_mem_listing {n : Node} {i t : Nat} {p : Placement} (h : n ∈ p.listing i)
    (ht : n.target = some t) : t = p.target := by
  rw [listing, List.mem_cons] at h
  obtain rfl | h := h
  · exact (Option.some.inj ht).symm
  · cases (NodeSource.of_mem_listingAll h).2.1.symm.trans ht

theorem exists_of_mem_listFrom {α : Type} {listing : Nat → α → List Node} {n : Node} {i : Nat}
    {as : List α} (h : n ∈ listFrom listing i as) : ∃ j, ∃ a ∈ as, n ∈ listing j a := by
  induction as generalizing i with
  | nil => cases h
  | cons a as ih =>
    rw [listFrom, List.mem_append] at h
    obtain h | h := h
    · exact ⟨i, a, by simp, h⟩
    · obtain ⟨j, b, hb, h⟩ := ih h
      exact ⟨j, b, by simp [hb], h⟩

namespace Draft

variable {d d' d₁ : Draft} {placed new : List Placement}

/-! ### One augment -/

/-- One more augment: it is the first new node, and otherwise nodes have at most become its parent
or its target. -/
theorem later_of_graftAugment {module target : Nat} {augment : AugmentSource}
    (h : d.graftAugment module target augment = .ok d') : d.model.Later d'.model := by
  obtain ⟨t, -, -, rfl⟩ := graftAugment_listing h
  have hsize := size_update d target fun n => { n with augments := n.augments ++ [d.size] }
  refine ⟨rfl, ?_⟩
  intro i n hn
  have hi : i < d.size := (Array.getElem?_eq_some_iff.1 hn).1
  refine ⟨if module = i then [d.size] else [], if target = i then [d.size] else [], ?_, ?_⟩
  · rw [getElem?_append, hsize, if_pos hi]
    simp only [update, Array.getElem?_modify, hn]
    split <;> split <;> simp [Node.addChildren]
  · intro c hc
    have hnew : c = d.size := by
      split at hc
      · simpa using hc
      · cases hc
    subst hnew
    rw [Model.kindAt, getElem?_append, hsize, if_neg (Nat.lt_irrefl _), Nat.sub_self]
    rfl

/-- Targets keep their places and their names. -/
theorem targets_of_upward {m m' : Model} (h : m.Upward (fun i => i) m') (hm : m.Linked)
    (hm' : m'.Linked) (hresolve : ∀ path i, m.resolveAt path = some i → m'.resolveAt path = some i)
    {path name : String} {i : Nat}
    (ht : ∃ t, (mk m).resolve? path = some t ∧ t.index.val = i ∧ t.targetPath = name) :
    ∃ t, (mk m').resolve? path = some t ∧ t.index.val = i ∧ t.targetPath = name := by
  obtain ⟨t, ht, hi, hname⟩ := ht
  obtain ⟨t', ht', hi'⟩ := exists_resolve? (d := mk m') hm'
    (hresolve path _ (resolveAt_of_resolve? hm ht))
  refine ⟨t', ht', hi'.trans hi, ?_⟩
  rw [← hname]
  exact Ref.targetPath_of_upward h hm hm' (model_of_resolve? ht) (model_of_resolve? ht') hi'

/-- The new nodes are those of the listing of the augment. -/
theorem core_of_graftAugment {module target : Nat} {augment : AugmentSource} {t : Ref}
    (hm' : d'.model.Linked) (ht : d.ref target = .ok t)
    (h : d.graftAugment module target augment = .ok d') (k : Nat) :
    d'.model.nodes[d.size + k]?.map d'.model.core =
      (Placement.listing d.size ⟨module, target, t.targetPath, augment⟩)[k]? := by
  obtain ⟨t', ht', -, hd'⟩ := graftAugment_listing h
  obtain rfl : t = t' := Except.ok.inj (ht.symm.trans ht')
  have hnew : d'.model.nodes[d.size + k]? =
      (Placement.listing d.size ⟨module, target, t.targetPath, augment⟩)[k]? := by
    rw [hd', getElem?_append, size_update, if_neg (by omega), Nat.add_sub_cancel_left]
  rw [hnew]
  cases hn : (Placement.listing d.size ⟨module, target, t.targetPath, augment⟩)[k]? with
  | none => rfl
  | some n =>
    obtain ⟨hparent, haugments⟩ := Placement.of_mem_listing (List.mem_of_getElem? hn)
    rw [Option.map_some, Model.core_of_untouched haugments fun c hc haugment => ?_]
    -- Only a module could hold an augment, and a module is declared in no other node.
    have hat : d'.model.nodes[d.size + k]? = some n := hnew.trans hn
    have hmodule := hm'.module_of_augment (i := d.size + k) (by simpa [Model.childrenAt, hat])
      haugment
    have := (hm'.parentless hmodule).2 rfl
    simp [Model.parentAt, hat] at this
    simp [this] at hparent

theorem linked_of_graftAugment {module target : Nat} {augment : AugmentSource}
    (hm : d.model.Linked) (h : d.graftAugment module target augment = .ok d') :
    d'.model.Linked := by
  obtain ⟨commands, rfl⟩ := extends_of_graftAugment h
  exact linked_run commands hm

/-! ### Augment after augment -/

/-- Augments are placed one after the other, each at the node that its path resolves to. -/
inductive Places : Draft → List Placement → Draft → Prop
  | nil (d : Draft) : Places d [] d
  | cons {d d₁ d' : Draft} {module : Nat} {augment : AugmentSource} {t : Ref}
      {placed : List Placement} : d.resolve? augment.target = some t →
      d.graftAugment module t.index augment = .ok d₁ → Places d₁ placed d' →
      Places d (⟨module, t.index, t.targetPath, augment⟩ :: placed) d'

theorem Places.append (h : d.Places placed d₁) (h' : d₁.Places new d') :
    d.Places (placed ++ new) d' := by
  induction h with
  | nil => exact h'
  | cons ht haugment _ ih => exact .cons ht haugment (ih h')

theorem Places.linked (h : d.Places placed d') (hm : d.model.Linked) : d'.model.Linked := by
  induction h with
  | nil => exact hm
  | cons _ haugment _ ih => exact ih (linked_of_graftAugment hm haugment)

theorem Places.later (h : d.Places placed d') : d.model.Later d'.model := by
  induction h with
  | nil => exact .refl _
  | cons _ haugment _ ih => exact (later_of_graftAugment haugment).trans ih

/-! ### Rounds -/

/-- Some augment is refused at the node that its path leads to. -/
def Refuses (d : Draft) (waiting : List (Nat × AugmentSource)) (e : ModelError) : Prop :=
  ∃ p ∈ waiting, ∃ t, d.resolve? p.2.target = some t ∧ d.graftAugment p.1 t.index p.2 = .error e

/-- Something waits, and none of it has a target, or some of it is refused there. -/
def Stuck (d : Draft) (waiting : List (Nat × AugmentSource)) (e : ModelError) : Prop :=
  d.Refuses waiting e ∨ e = .unresolvedAugments (waiting.map fun p => p.2.target) ∧
    waiting ≠ [] ∧ ∀ p ∈ waiting, d.resolve? p.2.target = none

variable {pending waiting : List (Nat × AugmentSource)} {e : ModelError}

/-- A round places some augments, and the rest waits. If it places none, then no path of those that
wait resolves. -/
theorem places_of_settleRound (h : d.settleRound pending = .ok (d', waiting)) :
    ∃ new, d.Places new d' ∧ (new.map Placement.origin ++ waiting).Perm pending ∧
      (new = [] → d' = d ∧ ∀ p ∈ waiting, d.resolve? p.2.target = none) := by
  induction pending generalizing d waiting with
  | nil =>
    cases h
    exact ⟨[], .nil _, .refl _, by simp⟩
  | cons first rest ih =>
    obtain ⟨module, augment⟩ := first
    rw [settleRound] at h
    -- An augment whose path resolves is placed at once, any other waits for the next round.
    split at h
    · next t ht =>
      obtain ⟨d₁, haugment, h⟩ := Except.bind_eq_ok_iff.1 h
      obtain ⟨new, hplaces, hperm, -⟩ := ih h
      exact ⟨_, .cons ht haugment hplaces, hperm.cons _, by simp⟩
    · next hnone =>
      obtain ⟨⟨d₁, later⟩, hrest, h⟩ := Except.bind_eq_ok_iff.1 h
      cases h
      obtain ⟨new, hplaces, hperm, hstuck⟩ := ih hrest
      refine ⟨new, hplaces, List.perm_middle.trans (hperm.cons _), fun hnew => ?_⟩
      obtain ⟨hd, hwaiting⟩ := hstuck hnew
      refine ⟨hd, fun p hp => ?_⟩
      obtain rfl | hp := List.mem_cons.1 hp
      · exact hnone
      · exact hwaiting p hp

/-- A round fails if it comes to an augment that is refused. -/
theorem refuses_of_settleRound (h : d.settleRound pending = .error e) :
    ∃ (new : List Placement) (waiting : List (Nat × AugmentSource)) (d' : Draft), d.Places new d' ∧
      (new.map Placement.origin ++ waiting).Perm pending ∧ d'.Refuses waiting e := by
  induction pending generalizing d with
  | nil => cases h
  | cons first rest ih =>
    obtain ⟨module, augment⟩ := first
    rw [settleRound] at h
    split at h
    · next t ht =>
      -- Either this augment is refused, or it is placed and the refusal comes later.
      cases haugment : d.graftAugment module t.index augment with
      | error cause =>
        rw [haugment] at h
        cases h
        exact ⟨[], _, d, .nil _, .refl _, _, List.mem_cons_self, t, ht, haugment⟩
      | ok d₁ =>
        rw [haugment] at h
        obtain ⟨new, waiting, d', hplaces, hperm, hrefuses⟩ := ih h
        exact ⟨_, waiting, d', .cons ht haugment hplaces, hperm.cons _, hrefuses⟩
    · next hnone =>
      cases hrest : d.settleRound rest with
      | ok round =>
        rw [hrest] at h
        cases h
      | error cause =>
        rw [hrest] at h
        cases h
        obtain ⟨new, waiting, d', hplaces, hperm, p, hp, hrefuses⟩ := ih hrest
        exact ⟨new, (module, augment) :: waiting, d', hplaces,
          List.perm_middle.trans (hperm.cons _), p, List.mem_cons_of_mem _ hp, hrefuses⟩

/-- The augments of one round come before those of the rounds that follow. -/
theorem perm_rounds {more : List Placement} {rest : List (Nat × AugmentSource)}
    (hperm : (new.map Placement.origin ++ waiting).Perm pending)
    (hmore : (more.map Placement.origin ++ rest).Perm waiting) :
    ((new ++ more).map Placement.origin ++ rest).Perm pending := by
  rw [List.map_append, List.append_assoc]
  exact (hmore.append_left _).trans hperm

/-- Rounds place all augments, or they end with a draft in which what waits is stuck. -/
theorem places_of_settle (d : Draft) (pending : List (Nat × AugmentSource)) :
    (∀ d', d.settle pending = .ok d' →
      ∃ new, d.Places new d' ∧ (new.map Placement.origin).Perm pending) ∧
    ∀ e, d.settle pending = .error e →
      ∃ (new : List Placement) (waiting : List (Nat × AugmentSource)) (d' : Draft),
        d.Places new d' ∧ (new.map Placement.origin ++ waiting).Perm pending ∧
        d'.Stuck waiting e := by
  induction d, pending using settle.induct with
  | case1 d pending hempty =>
    rw [settle, if_pos hempty]
    constructor
    · rintro d' ⟨⟩
      exact ⟨[], .nil d, by rw [List.isEmpty_iff.1 hempty]; exact .refl _⟩
    · rintro e ⟨⟩
  | case2 d pending hempty e hround =>
    rw [settle, if_neg hempty, hround]
    constructor
    · rintro d' ⟨⟩
    · rintro _ ⟨⟩
      obtain ⟨new, waiting, d', hplaces, hperm, hrefuses⟩ := refuses_of_settleRound hround
      exact ⟨new, waiting, d', hplaces, hperm, .inl hrefuses⟩
  | case3 d pending hempty d₁ waiting hround hless ih =>
    obtain ⟨new, hplaces, hperm, -⟩ := places_of_settleRound hround
    obtain ⟨hok, herror⟩ := ih
    have hsettle : d.settle pending = d₁.settle waiting := by
      rw [settle, if_neg hempty, hround]
      exact if_pos hless
    rw [hsettle]
    constructor
    · intro d' h
      obtain ⟨more, hplaces', hperm'⟩ := hok d' h
      have hall : ((new ++ more).map Placement.origin ++ []).Perm pending :=
        perm_rounds hperm (by simpa using hperm')
      exact ⟨new ++ more, hplaces.append hplaces', by simpa using hall⟩
    · intro e h
      obtain ⟨more, rest, d', hplaces', hperm', hstuck⟩ := herror e h
      exact ⟨new ++ more, rest, d', hplaces.append hplaces', perm_rounds hperm hperm', hstuck⟩
  | case4 d pending hempty d₁ waiting hround hless =>
    obtain ⟨new, hplaces, hperm, hstuck⟩ := places_of_settleRound hround
    -- As many wait as before, so none was placed.
    have hnew : new = [] := by
      have := hperm.length_eq
      rw [List.length_append, List.length_map] at this
      exact List.eq_nil_of_length_eq_zero (by omega)
    obtain ⟨rfl, hnone⟩ := hstuck hnew
    have hsettle : d₁.settle pending =
        .error (.unresolvedAugments (waiting.map fun p => p.2.target)) := by
      rw [settle, if_neg hempty, hround]
      exact if_neg hless
    rw [hsettle]
    constructor
    · rintro d' ⟨⟩
    · rintro e ⟨⟩
      refine ⟨new, waiting, d₁, hplaces, hperm, .inr ⟨rfl, ?_, hnone⟩⟩
      rintro rfl
      exact hempty (by simpa using hless)

end Draft

end YangBinding.Schema
