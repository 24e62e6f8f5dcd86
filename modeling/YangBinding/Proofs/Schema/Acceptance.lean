import YangBinding.Proofs.Schema.Listing
import YangBinding.Proofs.Schema.Resolution

/-!
# Which declarations are accepted

Whether a declaration is accepted is a matter of kinds: every node must be allowed in the one that
it is declared in, and only lists have keys. What else is in the draft does not count, so a
declaration that was accepted below a node is accepted below every other node of that kind.

## Main definitions

* `NodeSource.Fits` — a declaration may stand below a node of a kind
* `Draft.Accepts` — an augment may be placed at a node

## Main results

* `Draft.exists_graft_iff`, `Draft.exists_graftAugment_iff` — exactly these are accepted
-/

namespace YangBinding.Schema

mutual

/-- A declaration, with all that is in it, may stand below a node of the given kind. -/
def NodeSource.Fits (parent : Kind) : NodeSource → Prop
  | ⟨kind, _, _, _, keys, _, children⟩ =>
    parent.admits kind = true ∧ (keys = [] ∨ kind = .list) ∧ NodeSource.FitAll kind children

/-- Declarations may stand below a node of the given kind. -/
def NodeSource.FitAll (parent : Kind) : List NodeSource → Prop
  | [] => True
  | source :: sources => source.Fits parent ∧ NodeSource.FitAll parent sources

end

namespace Draft

variable {d d' : Draft} {i p module target : Nat} {k kind : Kind} {name : String}
  {augment : AugmentSource}

/-- An augment of the module may be placed at the target. -/
def Accepts (d : Draft) (module target : Nat) (augment : AugmentSource) : Prop :=
  d.model.kindAt module = some .module ∧
    (∃ k, d.model.kindAt target = some k ∧ k.isAugmentable = true) ∧
    NodeSource.FitAll .augment augment.children

/-! ### Commands -/

theorem kindAt_append {children : List Nat} {nodes : List Node} (hi : i < d.size) :
    (d.append p children nodes).model.kindAt i = d.model.kindAt i := by
  rw [Model.kindAt, getElem?_append, if_pos hi, Option.map_map, Model.kindAt]
  congr 1
  funext n
  rw [Function.comp_apply]
  split <;> rfl

theorem kindAt_newest {children : List Nat} {node : Node} (hi : i = d.size) :
    (d.append p children [node]).model.kindAt i = some node.kind := by
  simp [Model.kindAt, getElem?_append, hi]

theorem exists_addChild_iff : (∃ d', d.addChild p kind name = .ok d') ↔
    ∃ k, d.model.kindAt p = some k ∧ k.admits kind = true := by
  constructor
  · rintro ⟨d', h⟩
    have hd : d.perform (.addChild p kind name) = .ok d' := h
    cases perform_eq_ok_iff.1 hd with
    | addChild hparent hadmits => exact ⟨_, hparent, hadmits⟩
    | change hchange => cases hchange
  · rintro ⟨k, hk, hadmits⟩
    exact ⟨_, perform_eq_ok_iff.2 (.addChild hk hadmits)⟩

theorem kindAt_update {change : Node → Node} (hchange : ∀ n, (change n).kind = n.kind) :
    (d.update i change).model.kindAt p = d.model.kindAt p := by
  rw [Model.kindAt, update, Array.getElem?_modify, Model.kindAt]
  split
  · rw [Option.map_map]
    congr 1
    funext n
    exact hchange n
  · rfl

/-- A property of a node can be set. -/
theorem exists_set {change : Node → Node} (hi : d.model.kindAt i = some k)
    (hchange : ∀ n, (change n).kind = n.kind) :
    ∃ d', (do discard (d.ref i); pure (d.update i change)) = Except.ok d' ∧
      d'.model.kindAt i = some k := by
  obtain ⟨r, hr, -⟩ := exists_ref hi
  refine ⟨d.update i change, by rw [hr]; rfl, ?_⟩
  rw [kindAt_update hchange, hi]

theorem exists_setDeclaredClass (hi : d.model.kindAt i = some k) (className : Option String) :
    ∃ d', d.setDeclaredClass i className = .ok d' ∧ d'.model.kindAt i = some k := by
  cases className with
  | none => exact ⟨d, rfl, hi⟩
  | some className => exact exists_set hi fun n => rfl

/-- Keys can be declared for lists. -/
theorem exists_setKeys_iff (hi : d.model.kindAt i = some k) (keys : List String) :
    (∃ d', (if keys.isEmpty then .ok d else d.setKeys i keys) = Except.ok d') ↔
      keys = [] ∨ k = .list := by
  obtain ⟨r, hr, rfl⟩ := exists_ref hi
  cases keys with
  | nil => simp
  | cons key keys =>
    rw [setKeys, hr]
    by_cases hlist : r.kind = .list
    · simp [hlist, bind, Except.bind, pure, Except.pure]
    · simp [hlist, bind, Except.bind, throw, throwThe, MonadExceptOf.throw]

theorem kindAt_of_setKeys {keys : List String}
    (h : (if keys.isEmpty then .ok d else d.setKeys i keys) = Except.ok d') :
    d'.model.kindAt i = d.model.kindAt i := by
  split at h
  · cases h
    rfl
  · rw [update_of_perform (.setKeys i keys) h rfl]
    exact kindAt_update fun n => rfl

theorem exists_addAugment_iff : (∃ d', d.addAugment module target = .ok d') ↔
    d.model.kindAt module = some .module ∧
      ∃ k, d.model.kindAt target = some k ∧ k.isAugmentable = true := by
  constructor
  · rintro ⟨d', h⟩
    have hd : d.perform (.addAugment module target) = .ok d' := h
    cases perform_eq_ok_iff.1 hd with
    | addAugment hmodule htarget haugmentable =>
      exact ⟨hmodule, _, kindAt_of_ref htarget, haugmentable⟩
    | change hchange => cases hchange
  · rintro ⟨hmodule, k, hk, haugmentable⟩
    obtain ⟨t, ht, rfl⟩ := exists_ref hk
    exact ⟨_, perform_eq_ok_iff.2 (.addAugment hmodule ht haugmentable)⟩

/-! ### Declarations -/

mutual

/-- A declaration is accepted exactly if it may stand below the kind of its parent. -/
theorem exists_graft_iff : ∀ (source : NodeSource) (d : Draft) (parent : Nat),
    (∃ d', graft d parent source = .ok d') ↔
      ∃ k, d.model.kindAt parent = some k ∧ source.Fits k
  | ⟨kind, name, ns, className, keys, config, children⟩, d, parent => by
    rw [graft_eq]
    refine (Except.exists_bind_eq_ok_iff (Q := (keys = [] ∨ kind = .list) ∧
      NodeSource.FitAll kind children) exists_addChild_iff fun d₁ h₁ => ?_).trans ?_
    · -- Of the properties only keys can be refused, and none of them changes the kind.
      have hkind₁ : d₁.model.kindAt d.size = some kind := by
        rw [(addChild_eq h₁).2, kindAt_newest rfl]
      obtain ⟨d₂, h₂, hkind₂⟩ : ∃ d₂ : Draft, (match ns with
          | some ns => d₁.setNamespace d.size ns
          | none => .ok d₁) = Except.ok d₂ ∧ d₂.model.kindAt d.size = some kind := by
        cases ns with
        | none => exact ⟨d₁, rfl, hkind₁⟩
        | some ns => exact exists_set hkind₁ fun n => rfl
      obtain ⟨d₃, h₃, hkind₃⟩ := exists_setDeclaredClass hkind₂ className
      refine (Except.exists_bind_of_ok h₂).trans ((Except.exists_bind_of_ok h₃).trans ?_)
      refine Except.exists_bind_eq_ok_iff (exists_setKeys_iff hkind₃ keys) fun d₄ h₄ => ?_
      obtain ⟨d₅, h₅, hkind₅⟩ : ∃ d₅, (if config then .ok d₄ else d₄.setConfig d.size false) =
          .ok d₅ ∧ d₅.model.kindAt d.size = some kind := by
        have hkind₄ := (kindAt_of_setKeys h₄).trans hkind₃
        split
        · exact ⟨d₄, rfl, hkind₄⟩
        · exact exists_set hkind₄ fun n => rfl
      exact (Except.exists_bind_of_ok h₅).trans (exists_graftAll_iff children d₅ d.size hkind₅)
    · simp only [NodeSource.Fits, ← and_assoc, exists_and_right]

theorem exists_graftAll_iff {k : Kind} : ∀ (sources : List NodeSource) (d : Draft) (parent : Nat),
    d.model.kindAt parent = some k →
      ((∃ d', graftAll d parent sources = .ok d') ↔ NodeSource.FitAll k sources)
  | [], d, parent, _ => by simp [graftAll, NodeSource.FitAll]
  | source :: sources, d, parent, hk => by
    have hsource : (∃ d', graft d parent source = .ok d') ↔ source.Fits k := by
      rw [exists_graft_iff source d parent, hk]
      simp
    rw [graftAll, NodeSource.FitAll]
    refine Except.exists_bind_eq_ok_iff hsource fun d₁ h₁ => ?_
    refine exists_graftAll_iff sources d₁ parent ?_
    rw [graft_listing.1 _ _ _ _ h₁, kindAt_append (Model.lt_of_kindAt hk), hk]

end

/-- An augment is accepted exactly if a module declares it, its target can be augmented, and what it
contributes may stand in an augment. -/
theorem exists_graftAugment_iff :
    (∃ d', d.graftAugment module target augment = .ok d') ↔ d.Accepts module target augment := by
  refine (Except.exists_bind_eq_ok_iff (Q := NodeSource.FitAll .augment augment.children)
    exists_addAugment_iff fun d₁ h₁ => ?_).trans and_assoc
  have hkind₁ : d₁.model.kindAt d.size = some .augment := by
    obtain ⟨t, -, -, rfl⟩ := addAugment_eq h₁
    exact kindAt_newest (size_update _ _ _).symm
  obtain ⟨d₂, h₂, hkind₂⟩ := exists_setDeclaredClass hkind₁ augment.className
  exact (Except.exists_bind_of_ok h₂).trans (exists_graftAll_iff _ d₂ d.size hkind₂)

end Draft

end YangBinding.Schema
