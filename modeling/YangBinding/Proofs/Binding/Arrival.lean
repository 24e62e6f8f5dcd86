import YangBinding.Proofs.Binding.Unrelated

/-!
# Registries that do not tell in which order models arrived

Models that have no revision of a module and no class in common do not hide anything of each other.
What a registry finds is then a matter of the models alone: under each name and revision, and under
each class, at most one of them has put something. The indexes are kept in the order of names and
revisions, so that a search through them does not tell the order of the registrations either. Only
the list of models does.

## Main definitions

* `Ledger.Unshadowed` — no model of a ledger hides anything of another
* `Registry.Alike` — registries that find and convert the same

## Main results

* `Registry.Follows.select?_modules_eq`, `Registry.Follows.select?_namespaces_eq` — the same modules
  are selected
* `Registry.Follows.binding?_eq_of_perm` — the same nodes are bound
* `Registry.alike_of_perm` — models that were registered in another order are found and used alike
-/

namespace YangBinding

open Schema (DataChild Model Ref)
open YangBinding.Tree (ResourceData ResourceId)

/-- No model hides anything of another: identifiers differ, and so do the revisions of modules with
the same name or the same namespace, and the classes. -/
structure Ledger.Unshadowed (ledger : Ledger) : Prop where
  ids : ledger.Pairwise fun e f => e.model.id ≠ f.model.id
  names : ledger.Pairwise fun e f => ∀ r ∈ e.model.moduleRefs, ∀ s ∈ f.model.moduleRefs,
    r.name = s.name → r.revision ≠ s.revision
  namespaces : ledger.Pairwise fun e f => ∀ r ∈ e.model.moduleRefs, ∀ s ∈ f.model.moduleRefs,
    ∀ n, r.ns = some n → s.ns = some n → r.revision ≠ s.revision
  classes : ledger.Pairwise fun e f => ∀ r ∈ e.model.refs, ∀ s ∈ f.model.refs,
    ∀ c, r.className = some c → s.className ≠ some c

namespace Registry

/-- Registries find the same, and convert in the same way or refuse for the same reason. -/
structure Alike (reg other : Registry) : Prop where
  module? : reg.module? = other.module?
  moduleOfNamespace? : reg.moduleOfNamespace? = other.moduleOfNamespace?
  nodeOfClass? : reg.nodeOfClass? = other.nodeOfClass?
  class? : reg.class? = other.class?
  all : reg.modules.all = other.modules.all
  anydata : reg.anydata = other.anydata
  topLevel? : reg.topLevel? = other.topLevel?
  resolve : reg.resolve = other.resolve
  toResourceId : reg.toResourceId = other.toResourceId
  toObjectId : reg.toObjectId = other.toObjectId
  write : reg.write = other.write
  read : reg.read = other.read

variable {reg reg' : Registry} {ledger ledger' : Ledger} {strict : Bool} {r : Ref} {c name : String}
  {ns : Option String}

/-! ### The same ledger in another order -/

/-- Of each name and revision, the same modules come in the same order. -/
theorem filter_names_eq (hperm : ledger.Perm ledger') (hun : ledger.Unshadowed) (name : String)
    (revision : Option Calendar.Date) :
    (ledger.modules.filter fun r => r.name = name).filter (fun r => r.revision = revision) =
      (ledger'.modules.filter fun r => r.name = name).filter fun r => r.revision = revision := by
  simp only [List.filter_filter]
  refine hperm.filter_flatMap_eq (hun.names.imp fun hef r hr s hs hrs => ?_)
  simp only [Bool.and_eq_true, decide_eq_true_eq, Bool.and_eq_false_iff, decide_eq_false_iff_not]
    at hrs ⊢
  by_cases hname : s.name = name
  · exact .inl fun heq => hef r hr s hs (hrs.2.trans hname.symm) (hrs.1.trans heq.symm)
  · exact .inr hname

/-- Of each namespace and revision, the same modules come in the same order. -/
theorem filter_namespaces_eq (hperm : ledger.Perm ledger') (hun : ledger.Unshadowed) (n : String)
    (revision : Option Calendar.Date) :
    (ledger.modules.filter fun r => r.ns = some n).filter (fun r => r.revision = revision) =
      (ledger'.modules.filter fun r => r.ns = some n).filter fun r => r.revision = revision := by
  simp only [List.filter_filter]
  refine hperm.filter_flatMap_eq (hun.namespaces.imp fun hef r hr s hs hrs => ?_)
  simp only [Bool.and_eq_true, decide_eq_true_eq, Bool.and_eq_false_iff, decide_eq_false_iff_not]
    at hrs ⊢
  by_cases hname : s.ns = some n
  · exact .inl fun heq => hef r hr s hs n hrs.2 hname (hrs.1.trans heq.symm)
  · exact .inr hname

theorem perm_modules (hperm : ledger.Perm ledger') : ledger.modules.Perm ledger'.modules :=
  hperm.flatMap_right _

theorem binder?_eq (hperm : ledger.Perm ledger') (hun : ledger.Unshadowed) (c : String) :
    ledger.binder? c = ledger'.binder? c := by
  rw [Ledger.binder?, Ledger.binder?, hperm.filter_eq (hun.classes.imp fun hef he => ?_)]
  obtain ⟨r, hr, hc⟩ := List.any_eq_true.1 he
  exact List.any_eq_false.2 fun s hs => by simpa using hef r hr s hs c (by simpa using hc)

/-- Whatever the order, each registration leaves room for the others. -/
theorem sound_of_unshadowed (hun : ledger.Unshadowed)
    (hown : ∀ e ∈ ledger, ∃ reg,
      Registry.register { strictBindings := strict } e.model e.bindings = .ok reg) :
    Sound strict ledger := by
  refine ⟨hun.ids, fun e he hrefuses => ?_⟩
  obtain ⟨reg, hreg⟩ := hown e he
  obtain ⟨e', he'⟩ := (Follows.empty strict).register_fails_iff.2 hrefuses
  cases hreg.symm.trans he'

theorem Sound.perm (h : Sound strict ledger) (hperm : ledger.Perm ledger') : Sound strict ledger' :=
  ⟨h.1.perm hperm fun hne heq => hne heq.symm, fun e he => h.2 e (hperm.mem_iff.2 he)⟩

/-! ### The same answers -/

section Answers

variable (h : reg.Follows ledger) (h' : reg'.Follows ledger') (hperm : ledger.Perm ledger')
  (hun : ledger.Unshadowed)
include h h' hperm hun

theorem Follows.select?_modules_eq (name : String) :
    reg.modules.select? name = reg'.modules.select? name := by
  rw [h.modules.select?_eq, h'.modules.select?_eq, under_names, under_names]
  exact Index.scan?_congr ((perm_modules hperm).filter _) (filter_names_eq hperm hun name)

theorem Follows.select?_namespaces_eq (n : String) :
    reg.namespaces.select? n = reg'.namespaces.select? n := by
  rw [h.namespaces.select?_eq, h'.namespaces.select?_eq, under_namespaces, under_namespaces]
  exact Index.scan?_congr ((perm_modules hperm).filter _) (filter_namespaces_eq hperm hun n)

theorem Follows.binding?_eq_of_perm (hs : Sound strict ledger) (c : String) :
    reg.binding? c = reg'.binding? c := by
  rw [h.binding?_eq hs, h'.binding?_eq (hs.perm hperm), binder?_eq hperm hun]

theorem Follows.topLevel?_eq : reg.topLevel? = reg'.topLevel? := by
  funext name ns
  have hselected : reg.modules.selected.findSome? (fun module => module.findDataChild? name ns) =
      reg'.modules.selected.findSome? fun module => module.findDataChild? name ns :=
    Index.findSome?_selected_congr fun other => by rw [h.select?_modules_eq h' hperm hun]
  rw [topLevel?, topLevel?, hselected]
  simp only [h.select?_namespaces_eq h' hperm hun]

/-- Registries that follow the same ledger but for the order, with the same payloads, are alike. -/
theorem Follows.alike (hs : Sound strict ledger) (hstrict : reg.strictBindings = strict)
    (hstrict' : reg'.strictBindings = strict) (hanydata : reg.anydata = reg'.anydata) :
    reg.Alike reg' := by
  have hbinding := h.binding?_eq_of_perm h' hperm hun hs
  have htop := h.topLevel?_eq h' hperm hun
  have hnode (c : String) : reg.nodeOfClass? c = reg'.nodeOfClass? c := by
    rw [nodeOfClass?, nodeOfClass?, hbinding]
  have hclass (c : String) : reg.class? c = reg'.class? c := by rw [class?, class?, hbinding]
  -- All that the conversions ask a registry is the same, so they have the same outcomes.
  have hkeeps : Keeps False (fun _ => True) reg reg' := by
    refine ⟨fun c => .inl (hnode c), fun c => .inl (hclass c), fun holder payload => ?_,
      fun holder name ns => ?_, fun name ns _ => by rw [htop]⟩
    · rw [hasPayload, hasPayload, hanydata]
    · rw [payloadNamed?, payloadNamed?, hanydata, funext hnode]
  have hmirrors := h.mirrors (by rw [hstrict]; exact hs)
  have hmirrors' := h'.mirrors (by rw [hstrict']; exact hs.perm hperm)
  refine ⟨?_, ?_, funext hnode, funext hclass, ?_, hanydata, htop,
    funext fun id => hkeeps.resolve fun _ _ => trivial,
    funext fun id => (hkeeps.toResourceId id).eq,
    funext fun id => (hkeeps.toObjectId fun _ _ => trivial).eq,
    funext fun objects => (hkeeps.write objects).eq,
    funext fun data => (hkeeps.read (fun _ _ => trivial) fun _ _ => trivial).eq⟩
  case refine_1 =>
    funext name
    rw [module?, module?]
    split
    · simp only [h.modules.ofRevision?_eq, h'.modules.ofRevision?_eq, under_names, Index.latestOf?,
        filter_names_eq hperm hun]
    · exact h.select?_modules_eq h' hperm hun name
  case refine_2 =>
    funext n operations
    rw [moduleOfNamespace?, moduleOfNamespace?, h.select?_namespaces_eq h' hperm hun]
  case refine_3 =>
    refine hmirrors.all_eq hmirrors' fun r => ?_
    rw [Index.latestOf?, Index.latestOf?, filter_names_eq hperm hun]

end Answers

/-! ### The same payloads -/

theorem anydata_run_replay (reg : Registry) (ledger : Ledger) :
    (reg.run ledger.replay).anydata = reg.anydata := by
  induction ledger generalizing reg with
  | nil => rfl
  | cons e ledger ih => exact (ih _).trans (step_register reg e.model e.bindings).1

/-- Registering what a ledger holds, and then payloads, makes that ledger. -/
theorem Sound.ofCommands_payloads (h : Sound strict ledger) (payloads : List (String × String)) :
    Ledger.ofCommands strict (ledger.replay ++ payloads.map fun p => .registerAnydata p.1 p.2) =
      ledger := by
  have hreplay := h.ofCommands_replay
  rw [Ledger.ofCommands] at hreplay ⊢
  rw [List.foldl_append, hreplay]
  clear h hreplay
  induction payloads with
  | nil => rfl
  | cons p payloads ih => exact ih

/-- The same payloads are registered where the same nodes are bound. -/
theorem anydata_run_payloads (payloads : List (String × String))
    (hnode : reg.nodeOfClass? = reg'.nodeOfClass?) (hanydata : reg.anydata = reg'.anydata) :
    (reg.run (payloads.map fun p => .registerAnydata p.1 p.2)).anydata =
      (reg'.run (payloads.map fun p => .registerAnydata p.1 p.2)).anydata := by
  induction payloads generalizing reg reg' with
  | nil => exact hanydata
  | cons p payloads ih =>
    have haccepts : reg.Accepts p.1 p.2 ↔ reg'.Accepts p.1 p.2 := by
      rw [accepts_iff, accepts_iff, hnode]
    change ((reg.step _).run _).anydata = ((reg'.step _).run _).anydata
    obtain ⟨hstep, ha⟩ | ⟨hstep, ha⟩ := step_registerAnydata reg p.1 p.2 <;>
      obtain ⟨hstep', ha'⟩ | ⟨hstep', ha'⟩ := step_registerAnydata reg' p.1 p.2
    · rw [hstep, hstep']
      exact ih hnode hanydata
    · exact absurd (haccepts.2 ha') ha
    · exact absurd (haccepts.1 ha) ha'
    · rw [hstep, hstep']
      exact ih hnode (by rw [hanydata])

/-! ### Runs -/

/-- Models that hide nothing of each other, and that a new registry would accept one by one, are all
accepted in whatever order they are registered. Followed by the same registrations of payloads, any
two orders make registries that find the same nodes and modules for all questions, and convert every
id, every object and all data with the same result or the same error. -/
theorem alike_of_perm (payloads : List (String × String)) (hperm : ledger.Perm ledger')
    (hun : ledger.Unshadowed)
    (hown : ∀ e ∈ ledger, ∃ reg,
      Registry.register { strictBindings := strict } e.model e.bindings = .ok reg) :
    let commands := payloads.map fun p => Command.registerAnydata p.1 p.2
    let reg := run { strictBindings := strict } (ledger.replay ++ commands)
    let reg' := run { strictBindings := strict } (ledger'.replay ++ commands)
    reg.models = ledger.map Registration.model ∧ reg'.models = ledger'.map Registration.model ∧
      reg.Alike reg' := by
  intro commands reg reg'
  have hs : Sound strict ledger := sound_of_unshadowed hun hown
  have hs' : Sound strict ledger' := hs.perm hperm
  have hmodels := follows_run strict ledger.replay
  have hmodels' := follows_run strict ledger'.replay
  have hreg := follows_run strict (ledger.replay ++ commands)
  have hreg' := follows_run strict (ledger'.replay ++ commands)
  rw [hs.ofCommands_replay] at hmodels
  rw [hs'.ofCommands_replay] at hmodels'
  rw [hs.ofCommands_payloads] at hreg
  rw [hs'.ofCommands_payloads] at hreg'
  -- The payloads are registered when all models are there, so the same classes are bound by then.
  have hanydata : reg.anydata = reg'.anydata := by
    have hrun (ledger : Ledger) : run { strictBindings := strict } (ledger.replay ++ commands) =
        (run { strictBindings := strict } ledger.replay).run commands := List.foldl_append
    rw [show reg = _ from hrun ledger, show reg' = _ from hrun ledger']
    refine anydata_run_payloads payloads (funext fun c => ?_) ?_
    · rw [nodeOfClass?, nodeOfClass?, hmodels.1.binding?_eq_of_perm hmodels'.1 hperm hun hs]
    · rw [anydata_run_replay, anydata_run_replay]
  exact ⟨hreg.1.models, hreg'.1.models,
    hreg.1.alike hreg'.1 hperm hun hs hreg.2 hreg'.2 hanydata⟩

/-! ### A yard with tanks and goods

One model has a tank, the other what can be put into it. -/

namespace Yard

def tanks : Model where
  id := "tanks"
  nodes := #[
    { id := ⟨"yard", some "urn:yard"⟩, kind := .module, children := [1] },
    { id := ⟨"tank", some "urn:yard"⟩, kind := .anydata, parent := some 0,
      className := some "Tank" }]
  modules := [0]

def goods : Model where
  id := "goods"
  nodes := #[
    { id := ⟨"goods", some "urn:goods"⟩, kind := .module, children := [1] },
    { id := ⟨"water", some "urn:goods"⟩, kind := .container, parent := some 0,
      className := some "Water" }]
  modules := [0]

def tanksFirst : Ledger := [⟨tanks, []⟩, ⟨goods, []⟩]

def goodsFirst : Ledger := [⟨goods, []⟩, ⟨tanks, []⟩]

theorem unshadowed : tanksFirst.Unshadowed where
  ids := List.pairwise_pair.2 (by decide)
  names := List.pairwise_pair.2 (by decide)
  namespaces := List.pairwise_pair.2 (by
    have hns : ∀ r ∈ tanks.moduleRefs, ∀ s ∈ goods.moduleRefs, r.ns ≠ s.ns := by decide
    intro r hr s hs n hrn hsn
    exact absurd (hrn.trans hsn.symm) (hns r hr s hs))
  classes := List.pairwise_pair.2 (by
    have hclass : ∀ r ∈ tanks.refs, ∀ s ∈ goods.refs, r.className.isSome →
        r.className ≠ s.className := by decide
    intro r hr s hs c hrc hsc
    exact hclass r hr s hs (by rw [hrc]; rfl) (hrc.trans hsc.symm))

end Yard

theorem alike_of_perm_yard :
    let commands := [Command.registerAnydata "Tank" "Water"]
    let reg := run {} (Yard.tanksFirst.replay ++ commands)
    let reg' := run {} (Yard.goodsFirst.replay ++ commands)
    reg.models.map Model.id = ["tanks", "goods"] ∧ reg'.models.map Model.id = ["goods", "tanks"] ∧
      reg.Alike reg' ∧ reg.hasPayload "Tank" "Water" = true := by
  intro commands reg reg'
  have hown : ∀ e ∈ Yard.tanksFirst, ∃ reg,
      Registry.register { strictBindings := true } e.model e.bindings = .ok reg := by
    simp only [Yard.tanksFirst, List.mem_cons, List.not_mem_nil, or_false, forall_eq_or_imp,
      forall_eq]
    exact ⟨⟨_, rfl⟩, _, rfl⟩
  have hperm : Yard.tanksFirst.Perm Yard.goodsFirst := .swap _ _ _
  obtain ⟨hmodels, hmodels', halike⟩ :=
    alike_of_perm [("Tank", "Water")] hperm Yard.unshadowed hown
  exact ⟨congrArg (List.map Model.id) hmodels, congrArg (List.map Model.id) hmodels', halike,
    by decide +kernel⟩

end Registry

end YangBinding
