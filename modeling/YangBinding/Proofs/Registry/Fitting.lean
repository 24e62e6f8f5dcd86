import YangBinding.Proofs.Registry.Payloads
import YangBinding.Proofs.Registry.Sole

/-!
# Payloads that have ceased to fit

Whether a payload fits its holder is asked once, when it is registered, of the nodes that the two
classes lead to at that time. A model that comes later may bind the classes to other nodes, and one
that goes may uncover what it hid; the table of payloads is not looked through again. So a payload
in the table either fits, or there was a command that put another node in the place of one that did,
and the registration has outlived it.

## Main definitions

* `Registry.IsHolder`, `Registry.IsContent` — what is asked of the two classes
* `Registry.Rebinds` — a command that may change the node a class leads to
* `Registry.Displaces` — a command after which a payload does not fit its holder any more

## Main results

* `Registry.Follows.nodeOfClass?_step` — other commands leave a class with its node
* `Registry.fits_or_displaced_run` — what is known of the payloads in the table after any run
-/

namespace YangBinding.Registry

open Schema (Model Ref)

/-- The class leads to an anydata node. -/
def IsHolder (reg : Registry) (c : String) : Prop :=
  ∃ node, reg.nodeOfClass? c = some node ∧ node.kind = .anydata

/-- The class leads to a node that is neither a leaf nor a leaf-list. -/
def IsContent (reg : Registry) (c : String) : Prop :=
  ∃ node, reg.nodeOfClass? c = some node ∧ node.kind.isLeafLike = false

/-- The command brings a model that binds the class, or takes back the one whose node the class
leads to. -/
def Rebinds (reg : Registry) (c : String) : Command → Prop
  | .register m bindings => reg.obstacle? m bindings = none ∧ ∃ r ∈ m.refs, r.className = some c
  | .unregister id => ∃ node, reg.nodeOfClass? c = some node ∧ node.model.id = id
  | .registerAnydata .. | .unregisterAnydata .. => False

/-- The command gives one of the two classes another node, which does not fit. -/
def Displaces (reg : Registry) (holder payload : String) (command : Command) : Prop :=
  reg.IsHolder holder ∧ ¬ (reg.step command).IsHolder holder ∧ reg.Rebinds holder command ∨
    reg.IsContent payload ∧ ¬ (reg.step command).IsContent payload ∧ reg.Rebinds payload command

variable {reg : Registry} {ledger : Ledger} {commands : List Command} {command : Command}
  {holder payload c : String}

/-! ### What a command does to a class -/

/-- The latest binding of a class is the last one that the ledger has of it. -/
theorem Follows.binding?_eq_getLast? (h : reg.Follows ledger) (c : String) :
    reg.binding? c = (under c (ledger.flatMap boundOf)).getLast? :=
  h.classes.head?_eq c

/-- A model that has no node of a class adds no binding of it. -/
theorem under_boundOf_eq_nil {m : Model} {bindings : List Class}
    (hm : ∀ r ∈ m.refs, r.className ≠ some c) : under c (boundOf ⟨m, bindings⟩) = [] := by
  refine List.eq_nil_iff_forall_not_mem.2 fun b hb => ?_
  obtain ⟨⟨_, node⟩, hnode, ⟨⟩⟩ := List.mem_map.1 (mem_under_iff.1 hb)
  obtain ⟨r, hr, hnode⟩ := List.mem_filterMap.1 hnode
  obtain ⟨_, hc, ⟨⟩⟩ := Option.map_eq_some_iff.1 hnode
  exact hm node hr hc

/-- Taking a model back leaves a class with its binding if that is of another model. -/
theorem Follows.binding?_unregister (h : reg.Follows ledger) {id : String}
    (hother : ∀ b, reg.binding? c = some b → b.node.model.id ≠ id) :
    (reg.unregister id).2.binding? c = reg.binding? c := by
  have hleft : (reg.unregister id).2.binding? c =
      ((under c (ledger.flatMap boundOf)).filter fun b => b.node.model.id != id).getLast? := by
    rw [← under_filter]
    exact (h.classes.keep fun b => b.node.model.id != id).head?_eq c
  rw [hleft]
  rw [h.binding?_eq_getLast?] at hother ⊢
  obtain hnil | ⟨earlier, b, hlast⟩ := List.eq_nil_or_concat' (under c (ledger.flatMap boundOf))
  · rw [hnil]
    rfl
  · have hb : b.node.model.id ≠ id := hother b (by rw [hlast, List.getLast?_concat])
    rw [hlast, List.filter_append, List.filter_cons_of_pos (by simpa using hb), List.filter_nil,
      List.getLast?_concat, List.getLast?_concat]

/-- A class leads to the node that it has led to, unless the command rebinds it. -/
theorem Follows.nodeOfClass?_step (h : reg.Follows ledger) (hc : ¬ reg.Rebinds c command) :
    (reg.step command).nodeOfClass? c = reg.nodeOfClass? c := by
  suffices hb : (reg.step command).binding? c = reg.binding? c by
    rw [nodeOfClass?, nodeOfClass?, hb]
  cases command with
  | register m bindings =>
    rw [(h.step _).1.binding?_eq_getLast?, h.binding?_eq_getLast?, Ledger.after]
    split
    · rfl
    · next haccepted =>
      have hm : ∀ r ∈ m.refs, r.className ≠ some c := fun r hr hrc =>
        hc ⟨(h.obstacle?_eq_none_iff m bindings).2 haccepted, r, hr, hrc⟩
      rw [List.flatMap_append, under_append, List.flatMap_singleton, under_boundOf_eq_nil hm,
        List.append_nil]
  | unregister id =>
    refine h.binding?_unregister fun b hb hid => hc ⟨b.node, ?_, hid⟩
    rw [nodeOfClass?, hb, Option.map_some]
  | registerAnydata h' p =>
    obtain ⟨hstep, -⟩ | ⟨hstep, -⟩ := step_registerAnydata reg h' p
    · rw [hstep]
    · rw [hstep]
      rfl
  | unregisterAnydata h' p => rfl

/-! ### What a command does to a payload that fits -/

/-- A payload that fits does so after a command too, or the command displaces it. -/
theorem Follows.fits_or_displaces (h : reg.Follows ledger) (hholder : reg.IsHolder holder)
    (hcontent : reg.IsContent payload) (command : Command) :
    (reg.step command).IsHolder holder ∧ (reg.step command).IsContent payload ∨
      reg.Displaces holder payload command := by
  by_cases hholder' : (reg.step command).IsHolder holder
  · by_cases hcontent' : (reg.step command).IsContent payload
    · exact .inl ⟨hholder', hcontent'⟩
    · refine .inr (.inr ⟨hcontent, hcontent', ?_⟩)
      by_contra hsame
      rw [IsContent, h.nodeOfClass?_step hsame] at hcontent'
      exact hcontent' hcontent
  · refine .inr (.inl ⟨hholder, hholder', ?_⟩)
    by_contra hsame
    rw [IsHolder, h.nodeOfClass?_step hsame] at hholder'
    exact hholder' hholder

/-- A payload that a command registers fits its holder afterwards. -/
theorem Registers.fits_step (h : reg.Registers holder payload command) :
    (reg.step command).IsHolder holder ∧ (reg.step command).IsContent payload := by
  obtain ⟨rfl, haccepts⟩ := h
  obtain ⟨-, hrefused⟩ | ⟨hstep, -⟩ := step_registerAnydata reg holder payload
  · exact absurd haccepts hrefused
  · have hfits := accepts_iff.1 haccepts
    rw [hstep]
    exact hfits

/-! ### Runs -/

/-- After any sequence of commands, the two classes of a payload in the table each lead to a node.
Those are an anydata node and one that is no leaf, unless some command has displaced one that was,
with the payload in the table ever since. -/
theorem fits_or_displaced_run (strict : Bool) (commands : List Command) (holder payload : String)
    (h : (run { strictBindings := strict } commands).hasPayload holder payload = true) :
    let new : Registry := { strictBindings := strict }
    let reg := new.run commands
    ((reg.nodeOfClass? holder).isSome = true ∧ (reg.nodeOfClass? payload).isSome = true) ∧
      (reg.IsHolder holder ∧ reg.IsContent payload ∨
        ∃ before command after, commands = before ++ command :: after ∧
          (new.run before).Displaces holder payload command ∧
          ∀ stage, before <+: stage → stage <+: commands →
            (new.run stage).hasPayload holder payload = true) := by
  intro new reg
  constructor
  · have hfollows : reg.Follows _ := (follows_run strict commands).1
    obtain ⟨hholder, hpayload⟩ := (tidy_run strict commands).binds (hasPayload_iff.1 h)
    exact ⟨(hfollows.isSome_nodeOfClass?_iff holder).2 hholder,
      (hfollows.isSome_nodeOfClass?_iff payload).2 hpayload⟩
  · -- Induction on the commands from the last one: it has registered the payload, or the payload
    -- was in the table before.
    subst reg
    induction commands using List.reverseRecOn with
    | nil => simp [run, hasPayload] at h
    | append_singleton commands command ih =>
      have hfollows := (follows_run strict commands).1
      have hstep : new.run (commands ++ [command]) = (new.run commands).step command :=
        run_concat new commands command
      rw [run_concat, hasPayload_iff, hfollows.mem_payloadClasses_step (tidy_run strict commands),
        ← hasPayload_iff] at h
      obtain ⟨hbefore, hends⟩ | ⟨-, hregisters⟩ := h
      · have hafter : (new.run (commands ++ [command])).hasPayload holder payload = true := by
          rw [hstep, hasPayload_iff, hfollows.mem_payloadClasses_step (tidy_run strict commands)]
          exact .inl ⟨hasPayload_iff.1 hbefore, hends⟩
        obtain ⟨hholder, hcontent⟩ | ⟨before, first, after, hcommands, hdisplaces, hstands⟩ :=
          ih hbefore
        · obtain hfits | hdisplaces := hfollows.fits_or_displaces hholder hcontent command
          · exact .inl (hstep ▸ hfits)
          · refine .inr ⟨commands, command, [], rfl, hdisplaces, fun stage hlow hhigh => ?_⟩
            obtain rfl | hhigh := List.prefix_concat_iff.1 hhigh
            · exact hafter
            · rwa [← hlow.eq_of_length (Nat.le_antisymm hlow.length_le hhigh.length_le)]
        · refine .inr ⟨before, first, after ++ [command], by simp [hcommands], hdisplaces,
            fun stage hlow hhigh => ?_⟩
          obtain rfl | hhigh := List.prefix_concat_iff.1 hhigh
          · exact hafter
          · exact hstands stage hlow hhigh
      · exact .inl (hstep ▸ hregisters.fits_step)

/-! ### A yard that comes after the depot

In the yard a tank is a container, and water is a mere reading. As long as the yard is registered it
hides the depot's nodes of the same classes, but the depot's water stays in the table. -/

namespace Depots

def yard : Model where
  id := "yard"
  nodes := #[
    { id := ⟨"yard", some "urn:yard"⟩, kind := .module, children := [1, 2] },
    { id := ⟨"tank", some "urn:yard"⟩, kind := .container, parent := some 0,
      className := some "Tank" },
    { id := ⟨"water", some "urn:yard"⟩, kind := .leaf, parent := some 0,
      className := some "Water" }]
  modules := [0]

theorem built_new : new.Built :=
  ⟨"new", [.addModule "depot" "urn:depot" none, .addChild 0 .anydata "tank", .setClass 1 "Tank",
    .addChild 0 .container "water", .setClass 2 "Water"], by rfl⟩

theorem built_yard : yard.Built :=
  ⟨"yard", [.addModule "yard" "urn:yard" none, .addChild 0 .container "tank", .setClass 1 "Tank",
    .addChild 0 .leaf "water", .setClass 2 "Water"], by rfl⟩

def growth : List Command :=
  [.register new [], .registerAnydata "Tank" "Water", .register yard []]

theorem reachable_growth : (run {} growth).Reachable :=
  ⟨true, growth, by simp [growth, Command.Proper, built_new, built_yard], rfl⟩

theorem nodeOfClass?_growth :
    (run {} growth).nodeOfClass? "Tank" = some ⟨yard, 1, by decide⟩ ∧
      (run {} growth).nodeOfClass? "Water" = some ⟨yard, 2, by decide⟩ :=
  ⟨rfl, rfl⟩

theorem not_isHolder_growth : ¬ (run {} growth).IsHolder "Tank" := by
  rintro ⟨node, hnode, hkind⟩
  cases hnode.symm.trans nodeOfClass?_growth.1
  exact absurd hkind (by decide)

theorem not_isContent_growth : ¬ (run {} growth).IsContent "Water" := by
  rintro ⟨node, hnode, hkind⟩
  cases hnode.symm.trans nodeOfClass?_growth.2
  exact absurd hkind (by decide)

end Depots

theorem fits_or_displaced_run_growth :
    (run {} Depots.growth).hasPayload "Tank" "Water" = true ∧
      ∃ before command after, Depots.growth = before ++ command :: after ∧
        (run {} before).Displaces "Tank" "Water" command := by
  have hhas : (run {} Depots.growth).hasPayload "Tank" "Water" = true := by decide +kernel
  obtain ⟨-, ⟨hholder, -⟩ | ⟨before, command, after, hgrowth, hdisplaces, -⟩⟩ :=
    fits_or_displaced_run true Depots.growth "Tank" "Water" hhas
  · exact absurd hholder Depots.not_isHolder_growth
  · exact ⟨hhas, before, command, after, hgrowth, hdisplaces⟩

/-- A payload stays in the table although neither class leads to a node that fits. -/
theorem hasPayload_growth_unfit :
    (run {} Depots.growth).Reachable ∧ (run {} Depots.growth).hasPayload "Tank" "Water" = true ∧
      ¬ (run {} Depots.growth).IsHolder "Tank" ∧ ¬ (run {} Depots.growth).IsContent "Water" :=
  ⟨Depots.reachable_growth, by decide +kernel, Depots.not_isHolder_growth,
    Depots.not_isContent_growth⟩

end YangBinding.Registry
