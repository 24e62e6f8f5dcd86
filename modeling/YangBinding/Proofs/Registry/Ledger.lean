import Mathlib.Data.List.Induction
import Mathlib.Tactic.Convert
import YangBinding.Proofs.Registry.Stacks
import YangBinding.Proofs.Schema.Links
import YangBinding.Registry.Basic

/-!
# The ledger of a registry

A registry spreads what it knows over four indexes. What it answers is however decided by a plain
list alone: the registrations that were accepted and not taken back, in the order in which they
were made. Whatever commands a registry has seen, refused ones among them, it accepts and finds
exactly what a scan of that ledger says.

## Main definitions

* `Registry.Command`, `Registry.run` — the commands that change a registry
* `Ledger`, `Ledger.ofCommands` — the registrations that stand after a run
* `Ledger.Refuses` — a registration that a ledger leaves no room for
* `Ledger.module?`, `Ledger.moduleOfNamespace?`, `Ledger.nodeOfClass?`, `Ledger.class?` — scans of
  a ledger
* `Registry.Mirrors` — a registry answers like a ledger

## Main results

* `Registry.follows_run` — the indexes of a registry hold what its ledger holds
* `Registry.mirrors_run` — after any run a registry mirrors its ledger, and so does a new registry
  on which nothing but the ledger has been registered
-/

namespace YangBinding

open Calendar (Date)
open Schema (Model Ref)
open Std (TreeMap)

/-! ### Commands -/

namespace Registry

/-- A command that changes a registry. -/
inductive Command where
  | register (m : Model) (bindings : List Class)
  | unregister (id : String)
  | registerAnydata (holder payload : String)
  | unregisterAnydata (holder payload : String)

/-- The registry after a command, or why the command is refused. -/
def perform (reg : Registry) : Command → Result Registry
  | .register m bindings => reg.register m bindings
  | .unregister id => .ok (reg.unregister id).2
  | .registerAnydata holder payload => reg.registerAnydata holder payload
  | .unregisterAnydata holder payload => .ok (reg.unregisterAnydata holder payload).2

/-- The registry after a command; one that is refused changes nothing. -/
def step (reg : Registry) (command : Command) : Registry :=
  match reg.perform command with
  | .ok next => next
  | .error _ => reg

/-- The registry after a sequence of commands. -/
def run (reg : Registry) (commands : List Command) : Registry :=
  commands.foldl step reg

end Registry

/-! ### Ledgers -/

/-- A model with what was made known of its classes. -/
structure Registration where
  model : Model
  bindings : List Class

/-- The registrations that stand, in the order in which they were made. -/
abbrev Ledger := List Registration

namespace Ledger

/-- A model leaves a registration no room if its identifier is taken, if one of its classes is bound
to two of its nodes, or if bindings are strict and one of them is of no node. -/
def Refuses (strict : Bool) (ledger : Ledger) (m : Model) (bindings : List Class) : Prop :=
  (∃ e ∈ ledger, e.model.id = m.id) ∨ ¬ (m.refs.filterMap Ref.className).Nodup ∨
    strict = true ∧ ∃ c ∈ bindings, ∀ r ∈ m.refs, r.className ≠ some c.className

instance (strict : Bool) (ledger : Ledger) (m : Model) (bindings : List Class) :
    Decidable (Refuses strict ledger m bindings) :=
  inferInstanceAs (Decidable (_ ∨ _ ∨ _))

/-- The registrations that stand after a command. -/
def after (strict : Bool) (ledger : Ledger) : Registry.Command → Ledger
  | .register m bindings =>
    if Refuses strict ledger m bindings then ledger else ledger ++ [⟨m, bindings⟩]
  | .unregister id => ledger.filter fun e => e.model.id != id
  | .registerAnydata .. | .unregisterAnydata .. => ledger

/-- The registrations that stand after a sequence of commands. -/
def ofCommands (strict : Bool) (commands : List Registry.Command) : Ledger :=
  commands.foldl (after strict) []

/-- The commands that make the registrations of a ledger and nothing else. -/
def replay (ledger : Ledger) : List Registry.Command :=
  ledger.map fun e => .register e.model e.bindings

/-- All modules, in the order of their registration. -/
def modules (ledger : Ledger) : List Ref :=
  ledger.flatMap fun e => e.model.moduleRefs

/-- The last module of a name and a revision, or the one that a scan finds without a revision. -/
def module? (ledger : Ledger) (name : String) : Option Ref :=
  match Text.halves? '@' name with
  | some (name, revision) =>
    (Date.read? revision).toOption.bind fun date =>
      Index.latestOf? (some date) (ledger.modules.filter fun r => r.name = name)
  | none => Index.scan? (ledger.modules.filter fun r => r.name = name)

/-- The module that a scan finds for a namespace. -/
def moduleOfNamespace? (ledger : Ledger) (ns : String) : Option Ref :=
  Index.scan? (ledger.modules.filter fun r => r.ns = some ns)

/-- The last registration of a model that binds a class. -/
def binder? (ledger : Ledger) (className : String) : Option Registration :=
  (ledger.filter fun e => e.model.refs.any fun r => r.className = some className).getLast?

/-- The node that the last model binding a class binds it to. -/
def nodeOfClass? (ledger : Ledger) (className : String) : Option Ref :=
  (ledger.binder? className).bind fun e => e.model.refs.find? fun r => r.className = some className

/-- What is known of a class with the last model that binds it; of several bindings the last
counts. -/
def class? (ledger : Ledger) (className : String) : Option Class :=
  (ledger.binder? className).bind fun e =>
    (e.bindings.filter fun c => c.className = className).getLast?

end Ledger

namespace Registry

/-- A registry answers like a scan of a ledger. -/
structure Mirrors (reg : Registry) (ledger : Ledger) : Prop where
  models_eq : reg.models = ledger.map Registration.model
  register_fails_iff : ∀ m bindings,
    (∃ e, reg.register m bindings = .error e) ↔ ledger.Refuses reg.strictBindings m bindings
  module?_eq : ∀ name, reg.module? name = ledger.module? name
  moduleOfNamespace?_eq : ∀ ns, reg.moduleOfNamespace? ns true = ledger.moduleOfNamespace? ns
  nodeOfClass?_eq : ∀ className, reg.nodeOfClass? className = ledger.nodeOfClass? className
  class?_eq : ∀ className, reg.class? className = ledger.class? className
  mem_all_iff : ∀ r, r ∈ reg.modules.all ↔
    Index.latestOf? r.revision (ledger.modules.filter fun s => s.name = r.name) = some r
  pairwise_all : reg.modules.all.Pairwise fun r s => compare r.name s.name = .lt ∨
    r.name = s.name ∧ compare r.revision s.revision = .lt

/-- What a ledger says of the nodes that are bound to classes. -/
def boundOf (e : Registration) : List (String × Binding) :=
  (boundNodes e.model).map fun bound =>
    (bound.1, { node := bound.2, class? := lastBinding? e.bindings bound.1 })

/-- The indexes of a registry hold what a ledger holds. -/
structure Follows (reg : Registry) (ledger : Ledger) : Prop where
  models : reg.models = ledger.map Registration.model
  modules : reg.modules.Logs (ledger.modules.map fun r => (r.name, r))
  namespaces : reg.namespaces.Logs (ledger.modules.filterMap fun r => r.ns.map fun ns => (ns, r))
  classes : Stacks reg.classes (ledger.flatMap boundOf)

/-- No registration of a ledger was refused: identifiers differ, and each leaves room for itself. -/
def Sound (strict : Bool) (ledger : Ledger) : Prop :=
  ledger.Pairwise (fun e f => e.model.id ≠ f.model.id) ∧
    ∀ e ∈ ledger, ¬ Ledger.Refuses strict [] e.model e.bindings

variable {reg reg' : Registry} {ledger : Ledger} {m : Model} {bindings : List Class}
  {strict : Bool} {command : Command} {r : Ref} {className : String}

/-! ### Outcomes of commands -/

/-- A command is carried out, or it is refused and changes nothing. -/
theorem step_cases (reg : Registry) (command : Command) :
    (∃ next, reg.perform command = .ok next ∧ reg.step command = next) ∨
      ∃ e, reg.perform command = .error e ∧ reg.step command = reg := by
  rw [step]
  cases reg.perform command with
  | ok next => exact .inl ⟨next, rfl, rfl⟩
  | error e => exact .inr ⟨e, rfl, rfl⟩

/-- A model is registered if nothing stands in the way, and then every index has what it brings. -/
theorem register_eq_ok_iff : reg.register m bindings = .ok reg' ↔
    reg.obstacle? m bindings = none ∧
      { reg with
        models := reg.models ++ [m]
        modules := addModules (fun module => some module.name) m reg.modules
        namespaces := addModules Ref.ns m reg.namespaces
        classes := addClasses m bindings reg.classes } = reg' := by
  rw [Registry.register]
  cases reg.obstacle? m bindings <;> simp

/-- A registration of a payload touches nothing but the table of payloads. -/
theorem eq_of_registerAnydata {holder payload : String}
    (hr : reg.registerAnydata holder payload = .ok reg') :
    reg' = { reg with anydata := reg.anydata.alter holder (withPayload payload) } := by
  obtain ⟨node, -, hr⟩ := Except.bind_eq_ok_iff.1 hr
  split at hr
  · cases hr
  obtain ⟨content, -, hr⟩ := Except.bind_eq_ok_iff.1 hr
  split at hr <;> cases hr
  rfl

/-! ### Outcomes of look-ups -/

theorem found_eq_ok_iff {α : Type} {cause : ResolutionError} {x : Option α} {a : α} :
    Result.found cause x = .ok a ↔ x = some a := by
  cases x <;> simp [Result.found]

theorem found_eq_error_iff {α : Type} {cause : ResolutionError} {x : Option α} {e : Error} :
    (Result.found cause x : Result α) = .error e ↔ x = none ∧ e = .resolution cause := by
  cases x <;> simp [Result.found, eq_comm]

theorem nodeOfClass_eq_ok_iff {c : String} :
    reg.nodeOfClass c = .ok r ↔ reg.nodeOfClass? c = some r :=
  found_eq_ok_iff

/-! ### Refusals -/

/-- No class is repeated exactly if the classes differ from each other and from those seen. -/
theorem repeatedClass?_eq_none_iff {seen : List String} {nodes : List Ref} :
    repeatedClass? seen nodes = none ↔
      (nodes.filterMap Ref.className).Nodup ∧ ∀ c ∈ nodes.filterMap Ref.className, c ∉ seen := by
  induction nodes generalizing seen with
  | nil => simp [repeatedClass?]
  | cons node nodes ih =>
    cases hc : node.className with
    | none => simp [repeatedClass?, hc, ih]
    | some c =>
      by_cases hs : c ∈ seen
      · simp [repeatedClass?, hc, hs]
      · simp only [repeatedClass?, hc, List.contains_iff_mem, hs, if_false, ih, List.mem_cons,
          not_or, List.filterMap_cons, List.nodup_cons, forall_eq_or_imp, not_false_eq_true,
          true_and]
        constructor
        · rintro ⟨hn, h⟩
          exact ⟨⟨fun hmem => (h c hmem).1 rfl, hn⟩, fun d hd => (h d hd).2⟩
        · rintro ⟨⟨hmem, hn⟩, h⟩
          exact ⟨hn, fun d hd => ⟨fun e => hmem (e ▸ hd), h d hd⟩⟩

theorem strayClass?_isSome_iff (m : Model) (bindings : List Class) :
    (strayClass? m bindings).isSome ↔
      ∃ c ∈ bindings, ∀ r ∈ m.refs, r.className ≠ some c.className := by
  simp only [strayClass?, List.find?_isSome, boundNodes, Bool.not_eq_true', List.any_eq_false,
    List.mem_filterMap, Option.map_eq_some_iff]
  refine exists_congr fun c => and_congr_right fun _ => ?_
  constructor
  · intro h r hr hc
    exact h (c.className, r) ⟨r, hr, _, hc, rfl⟩ (by simp)
  · rintro h _ ⟨r, hr, d, hd, rfl⟩ heq
    exact h r hr (hd.trans (congrArg some (by simpa using heq)))

/-- A registry refuses what its ledger refuses. -/
theorem Follows.obstacle?_eq_none_iff (h : reg.Follows ledger) (m : Model) (bindings : List Class) :
    reg.obstacle? m bindings = none ↔ ¬ ledger.Refuses reg.strictBindings m bindings := by
  have taken : (reg.model? m.id).isSome ↔ ∃ e ∈ ledger, e.model.id = m.id := by
    simp [model?, h.models]
  unfold obstacle? Ledger.Refuses
  by_cases ht : (reg.model? m.id).isSome = true
  · have := taken.1 ht
    simp [ht, this]
  rw [if_neg ht]
  cases hr : repeatedClass? [] m.refs with
  | some c =>
    have : ¬ (m.refs.filterMap Ref.className).Nodup := by
      intro hn
      rw [repeatedClass?_eq_none_iff.2 ⟨hn, by simp⟩] at hr
      cases hr
    simp [this]
  | none =>
    have hn := (repeatedClass?_eq_none_iff.1 hr).1
    rw [taken] at ht
    have hstray := strayClass?_isSome_iff m bindings
    simp only [hn, not_true_eq_false, false_or, ht]
    cases reg.strictBindings with
    | false => simp
    | true => simp [← hstray]

/-! ### What a command does to the indexes -/

theorem Follows.empty (strict : Bool) : Follows { strictBindings := strict } [] where
  models := rfl
  modules := Index.Logs.empty
  namespaces := Index.Logs.empty
  classes := Stacks.empty

theorem logs_addModules {index : Index} {log : List (String × Ref)} (name? : Ref → Option String)
    (m : Model) (h : index.Logs log) :
    (addModules name? m index).Logs
      (log ++ m.moduleRefs.filterMap fun r => (name? r).map fun name => (name, r)) := by
  unfold addModules
  generalize m.moduleRefs = refs
  induction refs generalizing index log with
  | nil => simpa using h
  | cons r refs ih =>
    rw [List.foldl_cons]
    cases hn : name? r with
    | none => simpa [hn] using ih h
    | some name => simpa [hn] using ih (h.add name r)

theorem stacks_addClasses {classes : TreeMap String (List Binding)}
    {log : List (String × Binding)} (m : Model) (bindings : List Class)
    (h : Stacks classes log) :
    Stacks (addClasses m bindings classes) (log ++ boundOf ⟨m, bindings⟩) := by
  unfold addClasses boundOf
  simp only
  generalize boundNodes m = bound
  induction bound generalizing classes log with
  | nil => simpa using h
  | cons b bound ih =>
    rw [List.foldl_cons, List.map_cons]
    have := ih (h.push b.1 { node := b.2, class? := lastBinding? bindings b.1 })
    simpa using this

theorem Follows.register_fails_iff (h : reg.Follows ledger) :
    (∃ e, reg.register m bindings = .error e) ↔ ledger.Refuses reg.strictBindings m bindings := by
  rw [← not_iff_not, ← h.obstacle?_eq_none_iff, Registry.register]
  cases reg.obstacle? m bindings <;> simp

/-- An accepted registration goes to the end of the ledger. -/
theorem Follows.register (h : reg.Follows ledger) (hr : reg.register m bindings = .ok reg') :
    reg'.Follows (ledger ++ [⟨m, bindings⟩]) := by
  obtain ⟨-, rfl⟩ := register_eq_ok_iff.1 hr
  constructor
  case models => simp [h.models]
  case modules =>
    have := logs_addModules (fun r => some r.name) m h.modules
    simpa [Ledger.modules] using this
  case namespaces =>
    have := logs_addModules Ref.ns m h.namespaces
    simpa [Ledger.modules] using this
  case classes =>
    have := stacks_addClasses m bindings h.classes
    simpa using this

/-- A test that looks at nothing but which element something comes from. -/
private theorem filter_flatMap_of_const {α β : Type} {l : List α} {f : α → List β}
    {test : β → Bool} (keep : α → Bool) (h : ∀ a ∈ l, ∀ b ∈ f a, test b = keep a) :
    (l.flatMap f).filter test = (l.filter keep).flatMap f := by
  induction l with
  | nil => rfl
  | cons a l ih =>
    have ha := h a List.mem_cons_self
    rw [List.flatMap_cons, List.filter_append, ih fun b hb => h b (List.mem_cons_of_mem _ hb)]
    cases hk : keep a with
    | true =>
      rw [List.filter_cons_of_pos hk, List.flatMap_cons,
        List.filter_eq_self.2 fun b hb => (ha b hb).trans hk]
    | false =>
      rw [List.filter_cons_of_neg (by simp [hk]), List.filter_eq_nil_iff.2 fun b hb => by
        simp [ha b hb, hk], List.nil_append]

theorem modules_filter (id : String) (ledger : Ledger) :
    ledger.modules.filter (fun r => r.model.id != id) =
      Ledger.modules (ledger.filter fun e => e.model.id != id) :=
  filter_flatMap_of_const _ fun e _ r hr => by rw [Ref.model_of_mem_moduleRefs hr]

/-- Taking a model back takes its registration out of the ledger. -/
theorem Follows.unregister (h : reg.Follows ledger) (id : String) :
    (reg.unregister id).2.Follows (ledger.filter fun e => e.model.id != id) := by
  constructor
  case models => simp [Registry.unregister, h.models, List.filter_map, Function.comp_def]
  case modules =>
    have := h.modules.drop id
    rw [List.filter_map] at this
    rw [← modules_filter]
    exact this
  case namespaces =>
    have := h.namespaces.drop id
    rw [← modules_filter]
    change (reg.namespaces.drop id).Logs _
    convert this using 1
    -- Whether a module stays is decided by its model, whatever its namespace.
    rw [List.filter_filterMap, List.filterMap_filter]
    refine List.filterMap_congr fun r _ => ?_
    cases r.ns <;> simp [Option.filter]
  case classes =>
    have := h.classes.keep fun b => b.node.model.id != id
    rw [filter_flatMap_of_const fun e => e.model.id != id] at this
    · exact this
    · rintro e - ⟨c, b⟩ hb
      obtain ⟨⟨c, node⟩, hbound, ⟨⟩⟩ := List.mem_map.1 hb
      obtain ⟨r, hr, hc⟩ := List.mem_filterMap.1 hbound
      obtain ⟨c, -, ⟨⟩⟩ := Option.map_eq_some_iff.1 hc
      rw [Ref.model_of_mem_refs hr]

/-- The model that is handed out is that of the registration that goes. -/
theorem Follows.fst_unregister (h : reg.Follows ledger) (id : String) :
    (reg.unregister id).1 =
      (ledger.find? fun e => e.model.id == id).map Registration.model := by
  have hfst : (reg.unregister id).1 = reg.model? id := rfl
  rw [hfst, model?, h.models, List.find?_map]
  rfl

/-- Every command changes a registry as it changes the ledger. -/
theorem Follows.step (h : reg.Follows ledger) (command : Command) :
    (reg.step command).Follows (ledger.after reg.strictBindings command) ∧
      (reg.step command).strictBindings = reg.strictBindings := by
  obtain ⟨next, hr, hs⟩ | ⟨e, he, hs⟩ := step_cases reg command <;> rw [hs]
  · cases command with
    | register m bindings =>
      have hfollows := h.register hr
      obtain ⟨hroom, rfl⟩ := register_eq_ok_iff.1 hr
      rw [Ledger.after, if_neg ((h.obstacle?_eq_none_iff m bindings).1 hroom)]
      exact ⟨hfollows, rfl⟩
    | unregister id =>
      cases hr
      exact ⟨h.unregister id, rfl⟩
    | registerAnydata holder payload =>
      -- Payloads are of no concern to a ledger.
      obtain rfl := eq_of_registerAnydata hr
      exact ⟨⟨h.models, h.modules, h.namespaces, h.classes⟩, rfl⟩
    | unregisterAnydata holder payload =>
      cases hr
      exact ⟨⟨h.models, h.modules, h.namespaces, h.classes⟩, rfl⟩
  · cases command with
    | register m bindings =>
      rw [Ledger.after, if_pos (h.register_fails_iff.1 ⟨e, he⟩)]
      exact ⟨h, rfl⟩
    | registerAnydata holder payload => exact ⟨h, rfl⟩
    | unregister id => cases he
    | unregisterAnydata holder payload => cases he

/-- After any sequence of commands the indexes hold what the ledger holds. -/
theorem Follows.foldl (h : reg.Follows ledger) (commands : List Command) :
    (reg.run commands).Follows (commands.foldl (Ledger.after reg.strictBindings) ledger) ∧
      (reg.run commands).strictBindings = reg.strictBindings := by
  induction commands generalizing reg ledger with
  | nil => exact ⟨h, rfl⟩
  | cons command commands ih =>
    obtain ⟨hstep, hstrict⟩ := h.step command
    have := ih hstep
    rw [hstrict] at this
    exact this

/-- What a new registry knows after a run is what its ledger holds. -/
theorem follows_run (strict : Bool) (commands : List Command) :
    (run { strictBindings := strict } commands).Follows (Ledger.ofCommands strict commands) ∧
      (run { strictBindings := strict } commands).strictBindings = strict :=
  (Follows.empty strict).foldl commands

/-! ### What a ledger with no refused registration says -/

theorem Sound.after (h : Sound strict ledger) (command : Command) :
    Sound strict (ledger.after strict command) := by
  cases command with
  | register m bindings =>
    rw [Ledger.after]
    split
    · exact h
    · next hr =>
      refine ⟨List.pairwise_append.2 ⟨h.1, List.pairwise_singleton .., ?_⟩, ?_⟩
      · rintro e he f hf heq
        obtain rfl := List.mem_singleton.1 hf
        exact hr (.inl ⟨e, he, heq⟩)
      · intro e he hrefuses
        rcases List.mem_append.1 he with he | he
        · exact h.2 e he hrefuses
        · obtain rfl := List.mem_singleton.1 he
          obtain ⟨e, he, -⟩ | hrefuses := hrefuses
          · cases he
          · exact hr (.inr hrefuses)
  | unregister id =>
    exact ⟨h.1.filter _, fun e he => h.2 e (List.mem_filter.1 he).1⟩
  | registerAnydata holder payload => exact h
  | unregisterAnydata holder payload => exact h

theorem sound_ofCommands (strict : Bool) (commands : List Command) :
    Sound strict (Ledger.ofCommands strict commands) := by
  have foldl_sound : ∀ ledger : Ledger, Sound strict ledger →
      Sound strict (commands.foldl (Ledger.after strict) ledger) := by
    induction commands with
    | nil => exact fun _ => id
    | cons command commands ih => exact fun ledger h => ih _ (h.after command)
  exact foldl_sound [] ⟨.nil, by simp⟩

/-- Registering what a ledger holds, and nothing else, makes that ledger. -/
theorem Sound.ofCommands_replay (h : Sound strict ledger) :
    Ledger.ofCommands strict ledger.replay = ledger := by
  have foldl_replay : ∀ before rest : Ledger, Sound strict (before ++ rest) →
      rest.replay.foldl (Ledger.after strict) before = before ++ rest := by
    intro before rest
    induction rest generalizing before with
    | nil => simp [Ledger.replay]
    | cons e rest ih =>
      intro hs
      have hroom : ¬ Ledger.Refuses strict before e.model e.bindings := by
        rintro (⟨f, hf, heq⟩ | hrefuses)
        · exact (List.pairwise_append.1 hs.1).2.2 f hf e List.mem_cons_self heq
        · exact hs.2 e (by simp) (.inr hrefuses)
      have := ih (before ++ [e]) (by simpa using hs)
      simp only [Ledger.replay, List.map_cons, List.foldl_cons, Ledger.after, if_neg hroom]
      rw [List.append_assoc] at this
      exact this
  exact foldl_replay [] ledger h

/-! ### Answers -/

/-- Every class of a sound ledger is bound to one node of its model. -/
theorem under_boundOf (e : Registration) (hn : (e.model.refs.filterMap Ref.className).Nodup)
    (className : String) :
    under className (boundOf e) =
      ((e.model.refs.find? fun r => r.className = some className).map fun r =>
        { node := r, class? := lastBinding? e.bindings className : Binding }).toList := by
  unfold under boundOf boundNodes
  generalize e.model.refs = refs at hn
  -- A class is bound to one node, so behind the first one no other counts.
  induction refs with
  | nil => rfl
  | cons r refs ih =>
    cases hc : r.className with
    | none =>
      rw [List.filterMap_cons_none (by simp [hc])] at hn ⊢
      rw [ih hn, List.find?_cons_of_neg (by simp [hc])]
    | some c =>
      rw [List.filterMap_cons_some hc, List.nodup_cons] at hn
      have := ih hn.2
      rw [List.filterMap_cons_some (b := (c, r)) (by simp [hc])]
      by_cases heq : c = className
      · subst heq
        have hnone : refs.find? (fun r => r.className = some c) = none := by
          rw [List.find?_eq_none]
          intro s hs hsc
          exact hn.1 (List.mem_filterMap.2 ⟨s, hs, by simpa using hsc⟩)
        rw [hnone] at this
        simpa [hc] using this
      · simpa [hc, heq] using this

/-- On top of the stack of a class is the binding of the last model that binds it. -/
theorem Follows.binding?_eq (h : reg.Follows ledger) (hs : Sound strict ledger)
    (className : String) :
    reg.binding? className = (ledger.binder? className).bind fun e =>
      (e.model.refs.find? fun r => r.className = some className).map fun r =>
        { node := r, class? := lastBinding? e.bindings className } := by
  rw [binding?, h.classes.head?_eq, Ledger.binder?]
  have hn : ∀ e ∈ ledger, (e.model.refs.filterMap Ref.className).Nodup := by
    intro e he
    by_contra hn
    exact hs.2 e he (.inr (.inl hn))
  clear h hs
  -- The last registration is on top of every stack, so the induction takes it off first.
  induction ledger using List.reverseRecOn with
  | nil => rfl
  | append_singleton ledger e ih =>
    have ih := ih fun e he => hn e (List.mem_append_left _ he)
    rw [List.flatMap_append, under_append, List.flatMap_singleton, under_boundOf e (hn e (by simp)),
      List.getLast?_append, ih, List.filter_append]
    cases hf : e.model.refs.find? fun r => r.className = some className with
    | none =>
      have hany : (e.model.refs.any fun r => r.className = some className) = false := by
        simpa [List.find?_eq_none] using hf
      simp [hany]
    | some r =>
      have hany : (e.model.refs.any fun r => r.className = some className) = true :=
        List.any_eq_true.2 ⟨r, List.mem_of_find?_eq_some hf,
          List.find?_some (p := fun r : Ref => decide (r.className = some className)) hf⟩
      simp [hany, hf]

theorem Follows.nodeOfClass?_eq (h : reg.Follows ledger) (hs : Sound strict ledger)
    (className : String) : reg.nodeOfClass? className = ledger.nodeOfClass? className := by
  rw [nodeOfClass?, h.binding?_eq hs, Ledger.nodeOfClass?, Option.map_bind]
  simp [Function.comp_def]

theorem Follows.class?_eq (h : reg.Follows ledger) (hs : Sound strict ledger)
    (className : String) : reg.class? className = ledger.class? className := by
  rw [class?, h.binding?_eq hs, Ledger.class?]
  cases hb : ledger.binder? className with
  | none => rfl
  | some e =>
    -- The model binds the class, so the node is there and only the bindings decide.
    have hany := (List.mem_filter.1 (List.mem_of_getLast? hb)).2
    obtain ⟨r, hr⟩ := Option.isSome_iff_exists.1
      ((List.find?_isSome (p := fun r : Ref => decide (r.className = some className))).2
        (List.any_eq_true.1 hany))
    simp only [Option.bind_some, hr, Option.map_some, lastBinding?]
    rw [← List.head?_reverse, ← List.filter_reverse, List.head?_filter]
    simp [BEq.beq]

theorem under_names (modules : List Ref) (name : String) :
    under name (modules.map fun r => (r.name, r)) = modules.filter fun r => r.name = name := by
  rw [under, List.filter_map, List.map_map]
  simp [Function.comp_def]

theorem under_namespaces (modules : List Ref) (ns : String) :
    under ns (modules.filterMap fun r => r.ns.map fun ns => (ns, r)) =
      modules.filter fun r => r.ns = some ns := by
  induction modules with
  | nil => rfl
  | cons r modules ih =>
    cases hr : r.ns with
    | none => simpa [hr] using ih
    | some other =>
      by_cases heq : other = ns
      · simpa [hr, heq, under] using ih
      · simpa [hr, heq, under] using ih

/-- With operations, every module counts. -/
theorem moduleOfNamespace?_true (reg : Registry) (ns : String) :
    reg.moduleOfNamespace? ns true = reg.namespaces.select? ns := by
  rw [moduleOfNamespace?]
  cases reg.namespaces.select? ns <;> simp [Option.filter]

/-- A registry whose indexes hold what a sound ledger holds answers like the ledger. -/
theorem Follows.mirrors (h : reg.Follows ledger) (hs : Sound reg.strictBindings ledger) :
    reg.Mirrors ledger where
  models_eq := h.models
  register_fails_iff _ _ := h.register_fails_iff
  module?_eq := by
    intro name
    unfold Registry.module? Ledger.module?
    cases Text.halves? '@' name with
    | none => rw [h.modules.select?_eq, under_names]
    | some parts => simp only [h.modules.ofRevision?_eq, under_names]
  moduleOfNamespace?_eq := by
    intro ns
    rw [moduleOfNamespace?_true, h.namespaces.select?_eq, under_namespaces,
      Ledger.moduleOfNamespace?]
  nodeOfClass?_eq := h.nodeOfClass?_eq hs
  class?_eq := h.class?_eq hs
  mem_all_iff := by
    intro r
    simp only [h.modules.mem_all_iff, under_names]
    constructor
    · rintro ⟨name, revision, hr⟩
      have hmem := List.mem_of_getLast? hr
      simp only [List.mem_filter, decide_eq_true_eq] at hmem
      obtain ⟨⟨-, rfl⟩, rfl⟩ := hmem
      exact hr
    · intro hr
      exact ⟨_, _, hr⟩
  pairwise_all := h.modules.pairwise_all Ref.name (by simp)

/-! ### Runs -/

/-- Two registries that accept the same and find the same. -/
structure Agrees (reg other : Registry) : Prop where
  models : reg.models = other.models
  register_fails_iff : ∀ m bindings, (∃ e, reg.register m bindings = .error e) ↔
    ∃ e, other.register m bindings = .error e
  module? : reg.module? = other.module?
  moduleOfNamespace? : reg.moduleOfNamespace? = other.moduleOfNamespace?
  nodeOfClass? : reg.nodeOfClass? = other.nodeOfClass?
  class? : reg.class? = other.class?
  all : reg.modules.all = other.modules.all

/-- Whether operations count is decided on the module that a ledger selects. -/
theorem Mirrors.select?_eq (h : reg.Mirrors ledger) (ns : String) :
    reg.namespaces.select? ns = ledger.moduleOfNamespace? ns := by
  rw [← h.moduleOfNamespace?_eq, moduleOfNamespace?_true]

/-- Registries list the same modules if these come last in the same way in their ledgers. -/
theorem Mirrors.all_eq {ledger' : Ledger} (h : reg.Mirrors ledger) (h' : reg'.Mirrors ledger')
    (hlatest : ∀ r : Ref,
      Index.latestOf? r.revision (ledger.modules.filter fun s => s.name = r.name) =
        Index.latestOf? r.revision (ledger'.modules.filter fun s => s.name = r.name)) :
    reg.modules.all = reg'.modules.all := by
  have irrefl (r : Ref) : ¬ (compare r.name r.name = .lt ∨
      r.name = r.name ∧ compare r.revision r.revision = .lt) := by
    simp [Std.ReflCmp.compare_self]
  -- Both listings are strictly increasing and have the same members.
  have nodup {refs : List Ref} (hp : refs.Pairwise fun r s => compare r.name s.name = .lt ∨
      r.name = s.name ∧ compare r.revision s.revision = .lt) : refs.Nodup := by
    refine hp.imp ?_
    rintro r _ hlt rfl
    exact irrefl r hlt
  refine List.Perm.eq_of_pairwise ?_ h.pairwise_all h'.pairwise_all
    ((List.perm_ext_iff_of_nodup (nodup h.pairwise_all) (nodup h'.pairwise_all)).2 fun r => ?_)
  · rintro r s - - (hlt | ⟨heq, hlt⟩) (hgt | ⟨heq', hgt⟩)
    · exact absurd hlt (Std.OrientedCmp.not_lt_of_lt hgt)
    · simp [heq', Std.ReflCmp.compare_self] at hlt
    · simp [heq, Std.ReflCmp.compare_self] at hgt
    · exact absurd hlt (Std.OrientedCmp.not_lt_of_lt hgt)
  · rw [h.mem_all_iff, h'.mem_all_iff, hlatest]

theorem Mirrors.agrees (h : reg.Mirrors ledger) (h' : reg'.Mirrors ledger)
    (hstrict : reg.strictBindings = reg'.strictBindings) : reg.Agrees reg' where
  models := h.models_eq.trans h'.models_eq.symm
  register_fails_iff := by
    intro m bindings
    rw [h.register_fails_iff, h'.register_fails_iff, hstrict]
  module? := funext fun name => (h.module?_eq name).trans (h'.module?_eq name).symm
  moduleOfNamespace? := by
    funext ns operations
    rw [Registry.moduleOfNamespace?, Registry.moduleOfNamespace?, h.select?_eq, h'.select?_eq]
  nodeOfClass? := funext fun c => (h.nodeOfClass?_eq c).trans (h'.nodeOfClass?_eq c).symm
  class? := funext fun c => (h.class?_eq c).trans (h'.class?_eq c).symm
  all := h.all_eq h' fun _ => rfl

/-- After any sequence of commands, refused ones among them, a new registry answers like its ledger,
and just like a new registry that has seen the registrations of the ledger alone. -/
theorem mirrors_run (strict : Bool) (commands : List Command) :
    let ledger := Ledger.ofCommands strict commands
    let reg := run { strictBindings := strict } commands
    let fresh := run { strictBindings := strict } ledger.replay
    reg.strictBindings = strict ∧ reg.Mirrors ledger ∧
      Ledger.ofCommands strict ledger.replay = ledger ∧ fresh.Agrees reg := by
  intro ledger reg fresh
  have hsound : Sound strict ledger := sound_ofCommands strict commands
  have hreplay : Ledger.ofCommands strict ledger.replay = ledger := hsound.ofCommands_replay
  obtain ⟨hreg, hstrict⟩ := follows_run strict commands
  obtain ⟨hfresh, hstrict'⟩ := follows_run strict ledger.replay
  have hmirrors : reg.Mirrors ledger := hreg.mirrors (by rw [hstrict]; exact hsound)
  rw [hreplay] at hfresh
  have hmirrors' : fresh.Mirrors ledger := hfresh.mirrors (by rw [hstrict']; exact hsound)
  exact ⟨hstrict, hmirrors, hreplay, hmirrors'.agrees hmirrors (hstrict'.trans hstrict.symm)⟩

end Registry

end YangBinding
