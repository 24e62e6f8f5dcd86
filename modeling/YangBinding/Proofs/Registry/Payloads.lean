import YangBinding.Proofs.Registry.Ledger
import YangBinding.Proofs.Sequence

/-!
# The life of a payload

A payload that has been registered for an anydata node may be put into it until the registration is
taken back, or until one of the two classes loses the last model that binds it; another model that
binds the class is enough to keep the registration alive, whatever hides what. The table of payloads
says just that of the commands that a registry has seen, refused ones among them.

## Main definitions

* `Registry.Ends` — a command that ends the registration of a payload
* `Registry.RegisteredAfter`, `Registry.Live` — a registration that has not ended
* `Registry.AddedAt` — the place of the command that made a registration live

## Main results

* `Registry.Follows.payloadClasses_step` — what a command does to the table
* `Registry.unregisterAnydata_fst_iff` — taking a registration back says whether it was in the table
* `Registry.payloads_run` — after any run the table holds the live registrations, in their order
-/

namespace YangBinding.Registry

open Schema (Model Ref)

/-- Some model in use binds a node to the class. -/
def Binds (reg : Registry) (c : String) : Prop :=
  ∃ m ∈ reg.models, ∃ r ∈ m.refs, r.className = some c

/-- The command takes the registration of a payload back, or it takes away the last model that binds
one of the two classes. -/
def Ends (reg : Registry) (holder payload : String) : Command → Prop
  | .unregisterAnydata h p => h = holder ∧ p = payload
  | .unregister id => ¬ ((reg.unregister id).2.Binds holder ∧ (reg.unregister id).2.Binds payload)
  | .register .. | .registerAnydata .. => False

/-- The registry accepts the payload. -/
def Accepts (reg : Registry) (holder payload : String) : Prop :=
  ∃ next, reg.registerAnydata holder payload = .ok next

/-- The command registers a payload, and the registry accepts it. -/
def Registers (reg : Registry) (holder payload : String) (command : Command) : Prop :=
  command = .registerAnydata holder payload ∧ reg.Accepts holder payload

/-- Of the commands, the one after the given ones has registered the payload, and none since has
ended that. -/
def RegisteredAfter (reg : Registry) (before commands : List Command) (holder payload : String) :
    Prop :=
  (reg.run before).Accepts holder payload ∧
    ∃ after, commands = before ++ .registerAnydata holder payload :: after ∧
      ∀ earlier command later, after = earlier ++ command :: later →
        ¬ Ends (reg.run (before ++ .registerAnydata holder payload :: earlier)) holder payload
          command

/-- The payload has been registered, and no command since has ended that. -/
def Live (reg : Registry) (commands : List Command) (holder payload : String) : Prop :=
  ∃ before, reg.RegisteredAfter before commands holder payload

/-- The command at a place has registered the payload when it was not registered, and none since has
ended that. -/
def AddedAt (reg : Registry) (commands : List Command) (holder payload : String) (place : Nat) :
    Prop :=
  ∃ before, before.length = place ∧ reg.RegisteredAfter before commands holder payload ∧
    ¬ reg.Live before holder payload

/-- The classes of the payloads that are registered for a holder. -/
def payloadClasses (reg : Registry) (holder : String) : List String :=
  reg.anydata[holder]?.getD []

variable {reg : Registry} {ledger : Ledger} {commands before : List Command} {command : Command}
  {holder payload c id : String}

/-! ### Histories -/

theorem run_concat (reg : Registry) (commands : List Command) (command : Command) :
    reg.run (commands ++ [command]) = (reg.run commands).step command := by
  simp [run]

/-- One more command: it is the one that registers the payload, or the payload has been registered
before and the command does not end that. -/
theorem registeredAfter_concat_iff :
    reg.RegisteredAfter before (commands ++ [command]) holder payload ↔
      before = commands ∧ (reg.run commands).Registers holder payload command ∨
        reg.RegisteredAfter before commands holder payload ∧
          ¬ Ends (reg.run commands) holder payload command := by
  constructor
  · rintro ⟨haccepts, after, hcommands, hends⟩
    -- Either the last command is the one that registers, or it is one of those that follow.
    obtain rfl | ⟨after, last, rfl⟩ := List.eq_nil_or_concat' after
    · obtain ⟨rfl, hlast⟩ := List.append_inj' hcommands rfl
      exact .inl ⟨rfl, List.singleton_inj.1 hlast, haccepts⟩
    · rw [← List.cons_append, ← List.append_assoc] at hcommands
      obtain ⟨rfl, hlast⟩ := List.append_inj' hcommands rfl
      obtain rfl := List.singleton_inj.1 hlast
      refine .inr ⟨⟨haccepts, after, rfl, fun earlier c later hafter => ?_⟩,
        hends after command [] rfl⟩
      exact hends earlier c (later ++ [command]) (by simp [hafter])
  · rintro (⟨rfl, rfl, haccepts⟩ | ⟨⟨haccepts, after, rfl, hends⟩, hlast⟩)
    · exact ⟨haccepts, [], rfl, by simp⟩
    · refine ⟨haccepts, after ++ [command], by simp, fun earlier c later hafter => ?_⟩
      obtain rfl | ⟨later, last, rfl⟩ := List.eq_nil_or_concat' later
      · obtain ⟨rfl, hc⟩ := List.append_inj' hafter rfl
        obtain rfl := List.singleton_inj.1 hc
        exact hlast
      · rw [← List.cons_append, ← List.append_assoc] at hafter
        exact hends earlier c later (List.append_inj' hafter rfl).1

theorem live_concat_iff : reg.Live (commands ++ [command]) holder payload ↔
    (reg.run commands).Registers holder payload command ∨
      reg.Live commands holder payload ∧ ¬ Ends (reg.run commands) holder payload command := by
  simp only [Live, registeredAfter_concat_iff, exists_or, exists_eq_left, exists_and_right]

theorem not_live_nil : ¬ reg.Live [] holder payload := by
  rintro ⟨before, -, after, hcommands, -⟩
  simp at hcommands

/-- One more command: a payload that is not live is added by it, one that was added before stays
where it is. -/
theorem addedAt_concat_iff {place : Nat} :
    reg.AddedAt (commands ++ [command]) holder payload place ↔
      (place = commands.length ∧ (reg.run commands).Registers holder payload command ∧
        ¬ reg.Live commands holder payload) ∨
      reg.AddedAt commands holder payload place ∧
        ¬ Ends (reg.run commands) holder payload command := by
  simp only [AddedAt, registeredAfter_concat_iff]
  constructor
  · rintro ⟨before, rfl, ⟨rfl, hregisters⟩ | ⟨hbefore, hends⟩, hlive⟩
    · exact .inl ⟨rfl, hregisters, hlive⟩
    · exact .inr ⟨⟨before, rfl, hbefore, hlive⟩, hends⟩
  · rintro (⟨rfl, hregisters, hlive⟩ | ⟨⟨before, rfl, hbefore, hlive⟩, hends⟩)
    · exact ⟨commands, rfl, .inl ⟨rfl, hregisters⟩, hlive⟩
    · exact ⟨before, rfl, .inr ⟨hbefore, hends⟩, hlive⟩

theorem AddedAt.live {place : Nat} (h : reg.AddedAt commands holder payload place) :
    reg.Live commands holder payload := by
  obtain ⟨before, -, hbefore, -⟩ := h
  exact ⟨before, hbefore⟩

theorem AddedAt.lt {place : Nat} (h : reg.AddedAt commands holder payload place) :
    place < commands.length := by
  obtain ⟨before, rfl, ⟨-, after, rfl, -⟩, -⟩ := h
  simp

/-- What is live was added at some place. -/
theorem Live.exists_addedAt (h : reg.Live commands holder payload) :
    ∃ place, reg.AddedAt commands holder payload place := by
  induction commands using List.reverseRecOn with
  | nil => exact absurd h not_live_nil
  | append_singleton commands command ih =>
    by_cases hlive : reg.Live commands holder payload
    · obtain ⟨place, hplace⟩ := ih hlive
      -- A command that registers a live payload once more does not end its registration.
      have hends : ¬ Ends (reg.run commands) holder payload command := by
        obtain ⟨rfl, -⟩ | ⟨-, hends⟩ := live_concat_iff.1 h
        · exact id
        · exact hends
      exact ⟨place, addedAt_concat_iff.2 (.inr ⟨hplace, hends⟩)⟩
    · obtain hregisters | ⟨hlive', -⟩ := live_concat_iff.1 h
      · exact ⟨_, addedAt_concat_iff.2 (.inl ⟨rfl, hregisters, hlive⟩)⟩
      · exact absurd hlive' hlive

/-! ### What a command does to the table -/

/-- Registering a model says nothing about payloads, and takes no model away. -/
theorem step_register (reg : Registry) (m : Model) (bindings : List Class) :
    (reg.step (.register m bindings)).anydata = reg.anydata ∧
      ∀ m' ∈ reg.models, m' ∈ (reg.step (.register m bindings)).models := by
  obtain ⟨next, hr, hs⟩ | ⟨-, -, hs⟩ := step_cases reg (.register m bindings) <;> rw [hs]
  · obtain ⟨-, rfl⟩ := register_eq_ok_iff.1 hr
    exact ⟨rfl, fun _ => List.mem_append_left _⟩
  · exact ⟨rfl, fun _ => id⟩

/-- Registering a payload adds it to its holder, or it is refused. -/
theorem step_registerAnydata (reg : Registry) (holder payload : String) :
    reg.step (.registerAnydata holder payload) = reg ∧ ¬ reg.Accepts holder payload ∨
      reg.step (.registerAnydata holder payload) =
          { reg with anydata := reg.anydata.alter holder (withPayload payload) } ∧
        reg.Accepts holder payload := by
  obtain ⟨next, hr, hs⟩ | ⟨e, he, hs⟩ := step_cases reg (.registerAnydata holder payload)
  · exact .inr ⟨hs.trans (eq_of_registerAnydata hr), next, hr⟩
  · refine .inl ⟨hs, ?_⟩
    rintro ⟨next, hnext⟩
    cases he.symm.trans hnext

theorem hasPayload_iff : reg.hasPayload holder payload = true ↔
    payload ∈ reg.payloadClasses holder := by
  simp [hasPayload, payloadClasses]

/-- A class has a stack exactly if some model in use binds it. -/
theorem Follows.contains_classes_iff (h : reg.Follows ledger) (c : String) :
    reg.classes.contains c = true ↔ reg.Binds c := by
  rw [← Std.TreeMap.mem_iff_contains, h.classes.mem_iff, Binds, h.models]
  simp only [List.mem_flatMap, boundOf, boundNodes, List.mem_map, List.mem_filterMap,
    Option.map_eq_some_iff]
  constructor
  · rintro ⟨_, e, he, _, ⟨r, hr, _, hc, ⟨⟩⟩, ⟨⟩⟩
    exact ⟨_, ⟨e, he, rfl⟩, r, hr, hc⟩
  · rintro ⟨_, ⟨e, he, rfl⟩, r, hr, hc⟩
    exact ⟨_, e, he, _, ⟨r, hr, c, hc, rfl⟩, rfl⟩

/-- Exactly the classes that are bound lead to a node. -/
theorem Follows.isSome_nodeOfClass?_iff (h : reg.Follows ledger) (c : String) :
    (reg.nodeOfClass? c).isSome = true ↔ reg.Binds c := by
  rw [← h.contains_classes_iff, ← Std.TreeMap.mem_iff_contains, h.classes.mem_iff, nodeOfClass?,
    Option.isSome_map, binding?, h.classes.head?_eq, List.getLast?_isSome]
  simp only [ne_eq, List.eq_nil_iff_forall_not_mem, mem_under_iff, not_forall, not_not]

/-- Whether a payload is accepted is a matter of the nodes that are bound to the two classes. -/
theorem accepts_iff : reg.Accepts holder payload ↔
    (∃ node, reg.nodeOfClass? holder = some node ∧ node.kind = .anydata) ∧
      ∃ content, reg.nodeOfClass? payload = some content ∧ content.kind.isLeafLike = false := by
  simp only [Accepts, registerAnydata, Except.bind_eq_ok_iff, nodeOfClass_eq_ok_iff]
  constructor
  · rintro ⟨next, node, hnode, h⟩
    split at h
    · cases h
    next hkind =>
      obtain ⟨content, hcontent, h⟩ := Except.bind_eq_ok_iff.1 h
      split at h
      · cases h
      next hleaf =>
        exact ⟨⟨node, hnode, by simpa using hkind⟩, content, nodeOfClass_eq_ok_iff.1 hcontent,
          by simpa using hleaf⟩
  · rintro ⟨⟨node, hnode, hkind⟩, content, hcontent, hleaf⟩
    refine ⟨{ reg with anydata := reg.anydata.alter holder (withPayload payload) }, node, hnode, ?_⟩
    rw [if_neg (by simp [hkind])]
    refine Except.bind_eq_ok_iff.2 ⟨content, nodeOfClass_eq_ok_iff.2 hcontent, ?_⟩
    rw [if_neg (by simp [hleaf])]
    rfl

/-- Who is accepted is bound on either side. -/
theorem Follows.binds_of_accepts (h : reg.Follows ledger) (ha : reg.Accepts holder payload) :
    reg.Binds holder ∧ reg.Binds payload := by
  obtain ⟨⟨node, hnode, -⟩, content, hcontent, -⟩ := accepts_iff.1 ha
  exact ⟨(h.isSome_nodeOfClass?_iff holder).1 (by rw [hnode]; rfl),
    (h.isSome_nodeOfClass?_iff payload).1 (by rw [hcontent]; rfl)⟩

/-- The table has no empty lists and names nothing twice, and whatever it names is bound. -/
structure Tidy (reg : Registry) : Prop where
  ne_nil : ∀ holder : String, reg.anydata[holder]? ≠ some []
  nodup : ∀ holder, (reg.payloadClasses holder).Nodup
  binds : ∀ {holder payload}, payload ∈ reg.payloadClasses holder →
    reg.Binds holder ∧ reg.Binds payload

theorem kept_ne_nil {test : String → Bool} {items : List String} :
    Index.kept test items ≠ some [] := by
  unfold Index.kept
  split
  · next hany =>
    obtain ⟨a, ha, htest⟩ := List.any_eq_true.1 hany
    exact fun h => List.filter_eq_nil_iff.1 (Option.some.inj h) a ha htest
  · exact nofun

theorem kept_getD {test : String → Bool} {items : List String} :
    (Index.kept test items).getD [] = items.filter test := by
  unfold Index.kept
  split
  · rfl
  · next hany =>
    exact (List.filter_eq_nil_iff.2 fun a ha htest => hany (List.any_eq_true.2 ⟨a, ha, htest⟩)).symm

/-- A payload that a holder has already is not added once more. -/
theorem payloadClasses_alter (reg : Registry) (h p holder : String) :
    payloadClasses { reg with anydata := reg.anydata.alter h (withPayload p) } holder =
      reg.payloadClasses holder ++
        if h = holder ∧ p ∉ reg.payloadClasses holder then [p] else [] := by
  simp only [payloadClasses, Std.TreeMap.getElem?_alter, Std.LawfulEqOrd.compare_eq_iff_eq]
  by_cases heq : h = holder
  · subst heq
    simp only [if_true, true_and]
    cases reg.anydata[h]? with
    | none => simp [withPayload]
    | some payloads => by_cases hp : p ∈ payloads <;> simp [withPayload, hp]
  · simp [heq]

theorem payloadClasses_unregisterAnydata (h p holder : String) :
    (reg.unregisterAnydata h p).2.payloadClasses holder =
      (reg.payloadClasses holder).filter fun q => ¬ (h = holder ∧ p = q) := by
  simp only [unregisterAnydata, payloadClasses, Std.TreeMap.getElem?_alter,
    Std.LawfulEqOrd.compare_eq_iff_eq]
  by_cases heq : h = holder
  · subst heq
    simp only [if_true, true_and]
    cases reg.anydata[h]? with
    | none => rfl
    | some payloads =>
      rw [Option.bind_some, kept_getD, Option.getD_some]
      refine List.filter_congr fun q _ => ?_
      rw [Bool.eq_iff_iff]
      simp [@eq_comm _ q p]
  · simp [heq]

/-- Taking a registration back says whether there was one. -/
theorem unregisterAnydata_fst_iff :
    (reg.unregisterAnydata holder payload).1 = true ↔ payload ∈ reg.payloadClasses holder := by
  have hfst : (reg.unregisterAnydata holder payload).1 =
      (((reg.payloadClasses holder).filter fun q => q != payload).length !=
        (reg.payloadClasses holder).length) := rfl
  rw [hfst, bne_iff_ne, ne_eq, List.length_filter_eq_length_iff]
  simp

theorem anydata_unregister (reg : Registry) (id holder : String) :
    (reg.unregister id).2.anydata[holder]? = reg.anydata[holder]?.bind fun payloads =>
      if reg.classes.contains holder && !(reg.unregister id).2.classes.contains holder then none
      else Index.kept
        (fun p => !(reg.classes.contains p && !(reg.unregister id).2.classes.contains p)) payloads :=
  Std.TreeMap.getElem?_filterMap'

open Classical in
/-- Taking a model back ends the registrations of the classes that lose their last model. -/
theorem Follows.payloadClasses_unregister (h : reg.Follows ledger) (ht : reg.Tidy)
    (id holder : String) :
    (reg.unregister id).2.payloadClasses holder = (reg.payloadClasses holder).filter fun p =>
      (reg.unregister id).2.Binds holder ∧ (reg.unregister id).2.Binds p := by
  have hgone {c : String} (hc : reg.Binds c) :
      (reg.classes.contains c && !(reg.unregister id).2.classes.contains c) =
        !decide ((reg.unregister id).2.Binds c) := by
    rw [(h.contains_classes_iff c).2 hc, Bool.true_and, Bool.not_inj_iff, Bool.eq_iff_iff,
      (h.unregister id).contains_classes_iff, decide_eq_true_iff]
  have hlist : (reg.unregister id).2.payloadClasses holder =
      if reg.classes.contains holder && !(reg.unregister id).2.classes.contains holder then []
      else (reg.payloadClasses holder).filter fun p =>
        !(reg.classes.contains p && !(reg.unregister id).2.classes.contains p) := by
    rw [payloadClasses, anydata_unregister, payloadClasses]
    cases reg.anydata[holder]? with
    | none => simp
    | some payloads =>
      rw [Option.bind_some]
      split
      · rfl
      · rw [kept_getD, Option.getD_some]
  -- Every class that is listed has been bound so far, so it goes just if it is bound no more.
  rw [hlist]
  cases hpayloads : reg.payloadClasses holder with
  | nil => simp
  | cons q qs =>
    have hq : q ∈ reg.payloadClasses holder := by simp [hpayloads]
    rw [← hpayloads, hgone (ht.binds hq).1]
    by_cases hholder : (reg.unregister id).2.Binds holder
    · simp only [hholder, decide_true, Bool.not_true, Bool.false_eq_true, if_false, true_and]
      refine List.filter_congr fun p hp => ?_
      rw [hgone (ht.binds hp).2, Bool.not_not]
    · simp [hholder]

open Classical in
/-- What a command does to the payloads of a holder: those stay whose registration it does not end,
and one that it registers anew comes behind them. -/
theorem Follows.payloadClasses_step (h : reg.Follows ledger) (ht : reg.Tidy) (command : Command)
    (holder : String) : ∃ new, (reg.step command).payloadClasses holder =
        ((reg.payloadClasses holder).filter fun p => ¬ reg.Ends holder p command) ++ new ∧
      new.length ≤ 1 ∧
      ∀ p, p ∈ new ↔ p ∉ reg.payloadClasses holder ∧ reg.Registers holder p command := by
  -- What neither ends nor registers anything leaves the payloads as they are.
  have hkeep (hends : ∀ p, ¬ reg.Ends holder p command)
      (hregisters : ∀ p, ¬ reg.Registers holder p command)
      (hsame : (reg.step command).payloadClasses holder = reg.payloadClasses holder) :
      ∃ new, (reg.step command).payloadClasses holder =
        ((reg.payloadClasses holder).filter fun p => ¬ reg.Ends holder p command) ++ new ∧
      new.length ≤ 1 ∧
      ∀ p, p ∈ new ↔ p ∉ reg.payloadClasses holder ∧ reg.Registers holder p command :=
    ⟨[], by simp [hsame, hends], by simp, by simp [hregisters]⟩
  cases command with
  | register m bindings =>
    refine hkeep (fun _ => id) (fun p hp => nomatch hp.1) ?_
    rw [payloadClasses, (step_register reg m bindings).1, payloadClasses]
  | unregister id =>
    refine ⟨[], ?_, by simp, by simp [Registers]⟩
    rw [List.append_nil]
    exact h.payloadClasses_unregister ht id holder |>.trans (by simp [Ends])
  | registerAnydata h' p =>
    obtain ⟨hstep, haccepts⟩ | ⟨hstep, haccepts⟩ := step_registerAnydata reg h' p
    · refine hkeep (fun _ => id) ?_ (by rw [hstep])
      rintro q ⟨⟨⟩, hq⟩
      exact haccepts hq
    · refine ⟨if h' = holder ∧ p ∉ reg.payloadClasses holder then [p] else [], ?_,
        by split <;> simp, fun q => ?_⟩
      · rw [hstep, payloadClasses_alter]
        simp [Ends]
      · constructor
        · intro hq
          split at hq
          · next hnew =>
            obtain rfl := List.mem_singleton.1 hq
            obtain ⟨rfl, hnew⟩ := hnew
            exact ⟨hnew, rfl, haccepts⟩
          · cases hq
        · rintro ⟨hnew, ⟨⟩, -⟩
          simp [hnew]
  | unregisterAnydata h' p =>
    refine ⟨[], ?_, by simp, by simp [Registers]⟩
    rw [List.append_nil]
    exact (payloadClasses_unregisterAnydata h' p holder).trans (by simp [Ends])

theorem Follows.mem_payloadClasses_step (h : reg.Follows ledger) (ht : reg.Tidy) (command : Command) :
    payload ∈ (reg.step command).payloadClasses holder ↔
      payload ∈ reg.payloadClasses holder ∧ ¬ reg.Ends holder payload command ∨
        payload ∉ reg.payloadClasses holder ∧ reg.Registers holder payload command := by
  obtain ⟨new, hstep, -, hnew⟩ := h.payloadClasses_step ht command holder
  simp only [hstep, List.mem_append, hnew, List.mem_filter, decide_eq_true_eq]

/-- A class stays bound unless the command takes its last model away. -/
theorem Binds.step (h : reg.Binds c)
    (hkeep : ∀ id, command = .unregister id → (reg.unregister id).2.Binds c) :
    (reg.step command).Binds c := by
  cases command with
  | register m bindings =>
    obtain ⟨m', hm', hbound⟩ := h
    exact ⟨m', (step_register reg m bindings).2 m' hm', hbound⟩
  | unregister id => exact hkeep id rfl
  | registerAnydata h' p =>
    obtain ⟨hstep, -⟩ | ⟨hstep, -⟩ := step_registerAnydata reg h' p <;> rw [hstep] <;> exact h
  | unregisterAnydata h' p => exact h

theorem ne_nil_step (h : ∀ holder : String, reg.anydata[holder]? ≠ some []) (command : Command)
    (holder : String) : (reg.step command).anydata[holder]? ≠ some [] := by
  cases command with
  | register m bindings =>
    rw [(step_register reg m bindings).1]
    exact h holder
  | unregister id =>
    change (reg.unregister id).2.anydata[holder]? ≠ some []
    rw [anydata_unregister]
    cases reg.anydata[holder]? with
    | none => exact nofun
    | some payloads =>
      rw [Option.bind_some]
      split
      · exact nofun
      · exact kept_ne_nil
  | registerAnydata h' p =>
    obtain ⟨hstep, -⟩ | ⟨hstep, -⟩ := step_registerAnydata reg h' p <;> rw [hstep]
    · exact h holder
    · rw [Std.TreeMap.getElem?_alter]
      split
      · have hh := h h'
        cases hpayloads : reg.anydata[h']? with
        | none => simp [withPayload]
        | some payloads =>
          rw [hpayloads] at hh
          by_cases hp : p ∈ payloads
          · simpa [withPayload, hp] using hh
          · simp [withPayload, hp]
      · exact h holder
  | unregisterAnydata h' p =>
    change (reg.anydata.alter h' _)[holder]? ≠ some []
    rw [Std.TreeMap.getElem?_alter]
    split
    · cases reg.anydata[h']? with
      | none => exact nofun
      | some payloads => exact kept_ne_nil
    · exact h holder

theorem Tidy.step (ht : reg.Tidy) (h : reg.Follows ledger) (command : Command) :
    (reg.step command).Tidy where
  ne_nil := ne_nil_step ht.ne_nil command
  nodup holder := by
    obtain ⟨new, hstep, hone, hnew⟩ := h.payloadClasses_step ht command holder
    rw [hstep]
    refine List.Nodup.append ((ht.nodup holder).filter _)
      (List.pairwise_of_length_le_one hone) fun p hp hp' => ?_
    exact ((hnew p).1 hp').1 (List.mem_of_mem_filter hp)
  binds := by
    intro holder payload hp
    obtain ⟨hp, hends⟩ | ⟨-, rfl, haccepts⟩ := (h.mem_payloadClasses_step ht command).1 hp
    · obtain ⟨hholder, hpayload⟩ := ht.binds hp
      constructor
      · refine hholder.step ?_
        rintro id rfl
        exact (not_not.1 hends).1
      · refine hpayload.step ?_
        rintro id rfl
        exact (not_not.1 hends).2
    · obtain ⟨hholder, hpayload⟩ := h.binds_of_accepts haccepts
      exact ⟨hholder.step nofun, hpayload.step nofun⟩

/-! ### Runs -/

section Run

variable {strict : Bool}

theorem tidy_run (strict : Bool) (commands : List Command) :
    (run { strictBindings := strict } commands).Tidy := by
  induction commands using List.reverseRecOn with
  | nil => constructor <;> simp [run, payloadClasses]
  | append_singleton commands command ih =>
    rw [run_concat]
    exact ih.step (follows_run strict commands).1 command

theorem Registers.not_ends (h : reg.Registers holder payload command) :
    ¬ reg.Ends holder payload command := by
  obtain ⟨rfl, -⟩ := h
  exact id

/-- The table holds what is live. -/
theorem mem_payloadClasses_run_iff :
    payload ∈ (run { strictBindings := strict } commands).payloadClasses holder ↔
      Live { strictBindings := strict } commands holder payload := by
  induction commands using List.reverseRecOn with
  | nil => simp [run, payloadClasses, not_live_nil]
  | append_singleton commands command ih =>
    rw [run_concat, (follows_run strict commands).1.mem_payloadClasses_step
      (tidy_run strict commands), live_concat_iff, ih]
    constructor
    · rintro (h | ⟨-, h⟩)
      · exact .inr h
      · exact .inl h
    · rintro (h | h)
      · by_cases hlive : Live { strictBindings := strict } commands holder payload
        · exact .inl ⟨hlive, h.not_ends⟩
        · exact .inr ⟨hlive, h⟩
      · exact .inl h

/-- Payloads that were added earlier stand further ahead. -/
theorem pairwise_payloadClasses_run (strict : Bool) (commands : List Command) (holder : String) :
    ((run { strictBindings := strict } commands).payloadClasses holder).Pairwise fun p q =>
      ∀ i j, AddedAt { strictBindings := strict } commands holder p i →
        AddedAt { strictBindings := strict } commands holder q j → i < j := by
  induction commands using List.reverseRecOn with
  | nil => simp [run, payloadClasses]
  | append_singleton commands command ih =>
    obtain ⟨new, hstep, hone, hnew⟩ := (follows_run strict commands).1.payloadClasses_step
      (tidy_run strict commands) command holder
    -- What was live before the command has been added before it.
    have hold {p : String} {i : Nat}
        (hp : p ∈ (run { strictBindings := strict } commands).payloadClasses holder)
        (hi : AddedAt { strictBindings := strict } (commands ++ [command]) holder p i) :
        AddedAt { strictBindings := strict } commands holder p i := by
      obtain ⟨-, -, hlive⟩ | ⟨hi, -⟩ := addedAt_concat_iff.1 hi
      · exact absurd (mem_payloadClasses_run_iff.1 hp) hlive
      · exact hi
    rw [run_concat, hstep, List.pairwise_append]
    refine ⟨(ih.filter _).imp_of_mem ?_, List.pairwise_of_length_le_one hone, ?_⟩
    · intro p q hp hq hlt i j hi hj
      exact hlt i j (hold (List.mem_of_mem_filter hp) hi) (hold (List.mem_of_mem_filter hq) hj)
    · intro p hp q hq i j hi hj
      have hi := (hold (List.mem_of_mem_filter hp) hi).lt
      obtain ⟨rfl, -⟩ | ⟨hj, -⟩ := addedAt_concat_iff.1 hj
      · exact hi
      · exact absurd (mem_payloadClasses_run_iff.2 hj.live) ((hnew q).1 hq).1

/-- After any sequence of commands, refused ones among them, a payload is in the table exactly if
its registration is live, and exactly then taking the registration back finds one. A live payload
leads to the node that the last model binding its class binds it to. The payloads of a holder are listed once each, in the order in which they were added, and a
holder without payloads is not in the table. -/
theorem payloads_run (strict : Bool) (commands : List Command) (holder : String) :
    let new : Registry := { strictBindings := strict }
    let reg := new.run commands
    (∀ payload, reg.hasPayload holder payload = true ↔ new.Live commands holder payload) ∧
      (∀ payload,
        (reg.unregisterAnydata holder payload).1 = true ↔ new.Live commands holder payload) ∧
      (∀ payload, (reg.payload? holder payload).isSome = true ↔ new.Live commands holder payload) ∧
      (∀ payload r, reg.payload? holder payload = some r ↔ new.Live commands holder payload ∧
        (Ledger.ofCommands strict commands).nodeOfClass? payload = some r) ∧
      ∀ payloads, reg.anydata[holder]? = some payloads →
        payloads ≠ [] ∧ payloads.Nodup ∧
        (∀ p, p ∈ payloads ↔ ∃ place, new.AddedAt commands holder p place) ∧
        payloads.Pairwise fun p q =>
          ∀ i j, new.AddedAt commands holder p i → new.AddedAt commands holder q j → i < j := by
  intro new reg
  obtain ⟨hfollows, hstrict⟩ := follows_run strict commands
  have htidy : reg.Tidy := tidy_run strict commands
  have hmirrors : reg.Mirrors (Ledger.ofCommands strict commands) :=
    hfollows.mirrors (by rw [hstrict]; exact sound_ofCommands strict commands)
  have hlive (payload : String) : reg.hasPayload holder payload = true ↔
      new.Live commands holder payload := hasPayload_iff.trans mem_payloadClasses_run_iff
  have hpayload (payload : String) : reg.payload? holder payload =
      if reg.hasPayload holder payload then reg.nodeOfClass? payload else none := rfl
  -- Whatever is in the table is bound, so that asking for its node finds one.
  refine ⟨hlive, fun payload => ?_, fun payload => ?_, fun payload r => ?_, fun payloads h => ?_⟩
  · exact unregisterAnydata_fst_iff.trans mem_payloadClasses_run_iff
  · rw [hpayload, ← hlive]
    split
    · next hhas =>
      have hbinds := (htidy.binds (hasPayload_iff.1 hhas)).2
      simpa [hhas] using (hfollows.isSome_nodeOfClass?_iff payload).2 hbinds
    · next hhas => simp [hhas]
  · rw [hpayload, ← hlive, ← hmirrors.nodeOfClass?_eq]
    split
    · next hhas => simp [hhas]
    · next hhas => simp [hhas]
  · have hclasses : reg.payloadClasses holder = payloads := by rw [payloadClasses, h]; rfl
    subst hclasses
    refine ⟨fun hnil => htidy.ne_nil holder (by rw [h, hnil]), htidy.nodup holder, fun p => ?_,
      pairwise_payloadClasses_run strict commands holder⟩
    exact mem_payloadClasses_run_iff.trans ⟨Live.exists_addedAt, fun ⟨_, hp⟩ => hp.live⟩

end Run

/-! ### Two depots

Either depot has a tank for water, the old one for sand as well. When the old one goes, the new one
keeps the water in the tank, but nothing binds sand any more. -/

namespace Depots

def old : Model where
  id := "old"
  nodes := #[
    { id := ⟨"depot", some "urn:depot"⟩, kind := .module, children := [1, 2, 3] },
    { id := ⟨"tank", some "urn:depot"⟩, kind := .anydata, parent := some 0,
      className := some "Tank" },
    { id := ⟨"water", some "urn:depot"⟩, kind := .container, parent := some 0,
      className := some "Water" },
    { id := ⟨"sand", some "urn:depot"⟩, kind := .container, parent := some 0,
      className := some "Sand" }]
  modules := [0]

def new : Model where
  id := "new"
  nodes := #[
    { id := ⟨"depot", some "urn:depot"⟩, kind := .module, children := [1, 2] },
    { id := ⟨"tank", some "urn:depot"⟩, kind := .anydata, parent := some 0,
      className := some "Tank" },
    { id := ⟨"water", some "urn:depot"⟩, kind := .container, parent := some 0,
      className := some "Water" }]
  modules := [0]

def history : List Command :=
  [.register new [], .register old [], .registerAnydata "Tank" "Sand",
    .registerAnydata "Tank" "Water", .registerAnydata "Water" "Tank", .unregister "old"]

end Depots

theorem payloads_run_depots :
    Live {} Depots.history "Tank" "Water" ∧ ¬ Live {} Depots.history "Tank" "Sand" ∧
      (run {} Depots.history).payload? "Tank" "Water" = some ⟨Depots.new, 2, by decide⟩ ∧
      ((run {} Depots.history).unregisterAnydata "Tank" "Water").1 = true ∧
      ∃ place, AddedAt {} Depots.history "Tank" "Water" place := by
  obtain ⟨hhas, hfound, -, hpayload, hlisted⟩ := payloads_run true Depots.history "Tank"
  have hwater : Live {} Depots.history "Tank" "Water" := (hhas "Water").1 (by decide +kernel)
  have hsand : (run {} Depots.history).hasPayload "Tank" "Sand" = false := by decide +kernel
  have hlist : (run {} Depots.history).anydata["Tank"]? = some ["Water"] := by decide +kernel
  obtain ⟨-, -, hplaces, -⟩ := hlisted ["Water"] hlist
  refine ⟨hwater, fun hlive => ?_, (hpayload "Water" _).2 ⟨hwater, rfl⟩,
    (hfound "Water").2 hwater, (hplaces "Water").1 (by simp)⟩
  have := (hhas "Sand").2 hlive
  rw [hsand] at this
  cases this

end YangBinding.Registry
