import YangBinding.Proofs.Schema.Links
import YangBinding.Schema.Compile

/-!
# Compiled models are built

Compilation drafts a model by the same commands as anyone else: whatever a source declares, some
sequence of commands leads to the draft that is frozen in the end. What holds of all built models
therefore holds of all compiled ones.

## Main results

* `Draft.graft_commands`, `Draft.settle_commands` — what compilation adds, commands add
* `Source.built_of_compile` — compiled models are built
-/

namespace YangBinding.Schema

namespace Draft

variable {d d' d'' : Draft} {i : Nat}

/-- Some sequence of commands leads from one draft to the other. -/
def Extends (d d' : Draft) : Prop := ∃ commands, d.run commands = d'

theorem Extends.refl (d : Draft) : d.Extends d := ⟨[], rfl⟩

theorem Extends.trans (h : d.Extends d') (h' : d'.Extends d'') : d.Extends d'' := by
  obtain ⟨commands, rfl⟩ := h
  obtain ⟨commands', rfl⟩ := h'
  exact ⟨commands ++ commands', List.foldl_append⟩

/-- A command that is not refused. -/
theorem extends_of_perform (command : Command) (h : d.perform command = .ok d') : d.Extends d' :=
  ⟨[command], by simp [run, h, Except.toOption]⟩

theorem extends_of_setDeclaredClass {className : Option String}
    (h : d.setDeclaredClass i className = .ok d') : d.Extends d' := by
  cases className with
  | none =>
    cases h
    exact .refl d
  | some className => exact extends_of_perform (.setClass i className) h

/-- The declaration of a node is a sequence of steps, of which some may have nothing to do. -/
theorem graft_eq (d : Draft) (parent : Nat) (kind : Kind) (name : String)
    (ns className : Option String) (keys : List String) (config : Bool)
    (children : List NodeSource) :
    graft d parent ⟨kind, name, ns, className, keys, config, children⟩ =
      (d.addChild parent kind name >>= fun d₁ =>
        (match ns with | some ns => d₁.setNamespace d.size ns | none => .ok d₁) >>= fun d₂ =>
        d₂.setDeclaredClass d.size className >>= fun d₃ =>
        (if keys.isEmpty then .ok d₃ else d₃.setKeys d.size keys) >>= fun d₄ =>
        (if config then .ok d₄ else d₄.setConfig d.size false) >>= fun d₅ =>
        d₅.graftAll d.size children) := by
  rw [graft]
  cases ns <;> cases hk : keys.isEmpty <;> cases config <;> rfl

/-- The nodes below a node are declared one by one, each with its properties. -/
theorem graft_commands :
    (∀ d parent (source : NodeSource) d', graft d parent source = .ok d' → d.Extends d') ∧
      ∀ d parent (sources : List NodeSource) d', graftAll d parent sources = .ok d' →
        d.Extends d' := by
  apply graft.mutual_induct
    (fun d parent source => ∀ d', graft d parent source = .ok d' → d.Extends d')
    (fun d parent sources => ∀ d', graftAll d parent sources = .ok d' → d.Extends d')
  case case1 =>
    intro d parent kind name ns className keys config children i ih d' h
    -- Each property of the node is one command, or none where it is the default.
    rw [graft_eq] at h
    obtain ⟨d₁, hchild, h⟩ := Except.bind_eq_ok_iff.1 h
    obtain ⟨d₂, hns, h⟩ := Except.bind_eq_ok_iff.1 h
    obtain ⟨d₃, hclass, h⟩ := Except.bind_eq_ok_iff.1 h
    obtain ⟨d₄, hkeys, h⟩ := Except.bind_eq_ok_iff.1 h
    obtain ⟨d₅, hconfig, h⟩ := Except.bind_eq_ok_iff.1 h
    have h₁ : d.Extends d₁ := extends_of_perform (.addChild parent kind name) hchild
    have h₂ : d₁.Extends d₂ := by
      cases ns with
      | none =>
        cases hns
        exact .refl d₁
      | some ns => exact extends_of_perform (.setNamespace i ns) hns
    have h₃ : d₂.Extends d₃ := extends_of_setDeclaredClass hclass
    have h₄ : d₃.Extends d₄ := by
      split at hkeys
      · cases hkeys
        exact .refl d₃
      · exact extends_of_perform (.setKeys i keys) hkeys
    have h₅ : d₄.Extends d₅ := by
      split at hconfig
      · cases hconfig
        exact .refl d₄
      · exact extends_of_perform (.setConfig i false) hconfig
    exact (((h₁.trans h₂).trans h₃).trans (h₄.trans h₅)).trans (ih d₅ d' h)
  case case2 =>
    intro d parent d' h
    cases h
    exact .refl d
  case case3 =>
    intro d parent source sources hsource hsources d' h
    rw [graftAll] at h
    obtain ⟨d₁, h₁, h⟩ := Except.bind_eq_ok_iff.1 h
    exact (hsource d₁ h₁).trans (hsources d₁ d' h)

theorem extends_of_graftModule {source : ModuleSource} (h : d.graftModule source = .ok d') :
    d.Extends d' := by
  obtain ⟨d₁, hclass, h⟩ := Except.bind_eq_ok_iff.1 h
  have hmodule : d.Extends (d.addModule source.name source.ns source.revision) :=
    extends_of_perform (.addModule source.name source.ns source.revision) rfl
  exact (hmodule.trans (extends_of_setDeclaredClass hclass)).trans (graft_commands.2 _ _ _ _ h)

theorem extends_of_graftAugment {module target : Nat} {source : AugmentSource}
    (h : d.graftAugment module target source = .ok d') : d.Extends d' := by
  obtain ⟨d₁, haugment, h⟩ := Except.bind_eq_ok_iff.1 h
  obtain ⟨d₂, hclass, h⟩ := Except.bind_eq_ok_iff.1 h
  have h₁ : d.Extends d₁ := extends_of_perform (.addAugment module target) haugment
  exact (h₁.trans (extends_of_setDeclaredClass hclass)).trans (graft_commands.2 _ _ _ _ h)

theorem extends_of_graftModules {sources : List ModuleSource} {augments : List (Nat × AugmentSource)}
    (h : d.graftModules sources = .ok (d', augments)) : d.Extends d' := by
  induction sources generalizing d augments with
  | nil =>
    cases h
    exact .refl _
  | cons source sources ih =>
    obtain ⟨d₁, hsource, h⟩ := Except.bind_eq_ok_iff.1 h
    obtain ⟨⟨d₂, rest⟩, hsources, h⟩ := Except.bind_eq_ok_iff.1 h
    cases h
    exact (extends_of_graftModule hsource).trans (ih hsources)

theorem extends_of_settleRound {pending waiting : List (Nat × AugmentSource)}
    (h : d.settleRound pending = .ok (d', waiting)) : d.Extends d' := by
  induction pending generalizing d waiting with
  | nil =>
    cases h
    exact .refl _
  | cons first rest ih =>
    obtain ⟨module, source⟩ := first
    rw [settleRound] at h
    split at h
    · obtain ⟨d₁, haugment, h⟩ := Except.bind_eq_ok_iff.1 h
      exact (extends_of_graftAugment haugment).trans (ih h)
    · obtain ⟨⟨d₁, later⟩, hrest, h⟩ := Except.bind_eq_ok_iff.1 h
      cases h
      exact ih hrest

/-- Augments are declared round by round. -/
theorem settle_commands {pending : List (Nat × AugmentSource)} (h : d.settle pending = .ok d') :
    d.Extends d' := by
  induction d, pending using settle.induct with
  | case1 d pending hempty =>
    rw [settle, if_pos hempty] at h
    cases h
    exact .refl _
  | case2 d pending hempty e hround =>
    rw [settle, if_neg hempty, hround] at h
    cases h
  | case3 d pending hempty d₁ waiting hround hless ih =>
    -- Some augment has found its target, and the others try again.
    rw [settle, if_neg hempty, hround] at h
    exact (extends_of_settleRound hround).trans (ih (by simpa [hless] using h))
  | case4 d pending hempty d₁ waiting hround hless =>
    rw [settle, if_neg hempty, hround] at h
    simp [hless] at h

end Draft

/-- Compiled models are built. -/
theorem Source.built_of_compile {source : Source} {m : Model} (h : source.compile = .ok m) :
    m.Built := by
  obtain ⟨⟨d₁, augments⟩, hmodules, h⟩ := Except.bind_eq_ok_iff.1 h
  obtain ⟨d₂, hsettle, h⟩ := Except.bind_eq_ok_iff.1 h
  obtain ⟨commands, rfl⟩ := (Draft.extends_of_graftModules hmodules).trans
    (Draft.settle_commands hsettle)
  exact ⟨source.id, commands, h⟩

end YangBinding.Schema
