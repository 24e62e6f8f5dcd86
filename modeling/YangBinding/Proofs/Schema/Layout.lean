import Mathlib
import YangBinding.Proofs.Schema.Offers
import YangBinding.Proofs.Schema.Placing

/-!
# The layout of compiled models

A compiled model is its source, written out: first the modules in their order, each with its nodes
behind it, then the augments in the order in which they found their targets, each with its nodes
behind it. Nothing is left out, nothing is there twice, and every augment stands at the node that
its path still resolves to when all augments are there. If compilation gives up on some augments,
all the others are in the draft, and the paths of those that are left lead nowhere in it.

## Main definitions

* `Source.listing` — the nodes of a source, given the order in which its augments are placed
* `Source.LaidOut` — a model whose nodes are those of the listing
* `Draft.settleIn`, `Source.compileIn` — compilation in at most a given number of rounds

## Main results

* `Draft.laidOut_of_graftAugment` — one more augment is listed behind the others
* `Source.compile_lays_out` — compilation ends, and what it leaves is laid out
* `Source.choiceAugmentsFinal_of_compile` — a compiled model adds nothing to augments of choices
-/

namespace YangBinding.Schema

/-- A node with its name only. -/
def Node.unqualified (n : Node) : Node := { n with id := ⟨n.id.name, none⟩ }

/-- What is declared of a node: neither the namespace, which may be inherited, nor the links that
augments have added to it. -/
def Model.declared (m : Model) (n : Node) : Node :=
  { n.unqualified with
    children := n.children.filter fun c => m.kindAt c != some .augment
    augments := [] }

/-- The nodes of the modules of a source, then those of its augments in the order in which they are
placed. -/
def Source.listing (source : Source) (placed : List Placement) : List Node :=
  listFrom ModuleSource.listing 0 source.modules ++
    listFrom Placement.listing (source.modules.map ModuleSource.count).sum placed

/-- The model is the listing of a source whose augments are placed in the given order, each at the
node that its path resolves to. -/
structure Source.LaidOut (source : Source) (placed : List Placement) (m : Model) : Prop where
  id : m.id = source.id
  modules : m.modules = startsFrom 0 (source.modules.map ModuleSource.count)
  nodes : m.nodes.toList.map m.declared = (source.listing placed).map Node.unqualified
  targets : ∀ p ∈ placed, ∃ t, (Draft.mk m).resolve? p.source.target = some t ∧
    t.index.val = p.target ∧ t.targetPath = p.name

/-- The augments of a source, each with the number of its module. -/
def Source.augments (source : Source) : List (Nat × AugmentSource) :=
  declaredAugments 0 source.modules

theorem Model.declared_eq (m : Model) (n : Node) : m.declared n = (m.core n).unqualified := rfl

theorem length_listFrom_modules (i : Nat) (sources : List ModuleSource) :
    (listFrom ModuleSource.listing i sources).length = (sources.map ModuleSource.count).sum := by
  induction sources generalizing i with
  | nil => rfl
  | cons source sources ih => simp [listFrom, ih, ModuleSource.length_listing]

namespace Draft

variable {d d' : Draft} {source : Source} {placed : List Placement}

/-- The nodes that an augment adds come behind the others, which are declared as before. -/
theorem declared_of_graftAugment {module target : Nat} {augment : AugmentSource} {t : Ref}
    (hm : d.model.Linked) (hm' : d'.model.Linked) (ht : d.ref target = .ok t)
    (h : d.graftAugment module target augment = .ok d') :
    d'.model.nodes.toList.map d'.model.declared =
      d.model.nodes.toList.map d.model.declared ++
        (Placement.listing d.size ⟨module, target, t.targetPath, augment⟩).map
          Node.unqualified := by
  have hlater := later_of_graftAugment h
  have hcore := core_of_graftAugment hm' ht h
  -- A node is declared as it is but for the namespace.
  have hdeclared (m : Model) (i : Nat) :
      m.nodes[i]?.map m.declared = (m.nodes[i]?.map m.core).map Node.unqualified := by
    rw [Option.map_map]
    rfl
  refine List.ext_getElem? fun i => ?_
  rw [List.getElem?_map, Array.getElem?_toList, List.getElem?_append, hdeclared]
  split
  · next hi =>
    have hi : i < d.model.nodes.size := by simpa using hi
    rw [hlater.core hm hi, ← hdeclared, List.getElem?_map, Array.getElem?_toList]
  · next hi =>
    obtain ⟨k, rfl⟩ : ∃ k, i = d.size + k := by
      refine ⟨i - d.size, ?_⟩
      have : d.size ≤ i := by simpa [size] using hi
      omega
    have hlength : (d.model.nodes.toList.map d.model.declared).length = d.size := by simp [size]
    rw [hlength, Nat.add_sub_cancel_left, hcore, List.getElem?_map]

/-- One more augment is listed behind the others. -/
theorem laidOut_of_graftAugment {module : Nat} {augment : AugmentSource} {t : Ref}
    (h : source.LaidOut placed d.model) (hm : d.model.Linked) (hm' : d'.model.Linked)
    (ht : d.resolve? augment.target = some t)
    (hd : d.graftAugment module t.index augment = .ok d') :
    source.LaidOut (placed ++ [⟨module, t.index, t.targetPath, augment⟩]) d'.model := by
  have href := ref_of_resolve? ht
  have hlater := later_of_graftAugment hd
  have hsize : d.size = (source.listing placed).length := by
    have := congrArg List.length h.nodes
    simpa [size] using this
  obtain ⟨_, -, -, hd'⟩ := graftAugment_listing hd
  -- The new block is at the end, so that every number given so far stands.
  constructor
  case id =>
    rw [← h.id, hd']
    rfl
  case modules => rw [hlater.modules, h.modules]
  case nodes =>
    rw [declared_of_graftAugment hm hm' href hd, h.nodes, ← List.map_append, hsize,
      Source.listing, Source.listing, listFrom_concat, List.append_assoc, List.length_append,
      length_listFrom_modules]
  case targets =>
    intro p hp
    refine targets_of_upward hlater.upward hm hm' (fun path i => hlater.resolveAt hm hm') ?_
    obtain hp | hp := List.mem_append.1 hp
    · exact h.targets p hp
    · obtain rfl := List.mem_singleton.1 hp
      exact ⟨t, ht, rfl, rfl⟩

/-- Before any augment is placed, the modules are laid out. -/
theorem laidOut_of_graftModules {augments : List (Nat × AugmentSource)}
    (h : (empty source.id).graftModules source.modules = .ok (d, augments)) :
    augments = source.augments ∧ source.LaidOut [] d.model := by
  obtain ⟨commands, hrun⟩ := extends_of_graftModules h
  have hm : d.model.Linked := hrun ▸ linked_run commands (linked_empty source.id)
  obtain ⟨rfl, hd⟩ := graftModules_listing h
  have hnodes : d.model.nodes.toList = listFrom ModuleSource.listing 0 source.modules := by
    rw [hd]
    simp [empty, size]
  have huntouched {n : Node} (hn : n ∈ d.model.nodes.toList) :
      n.target = none ∧ n.augments = [] := by
    rw [hnodes] at hn
    obtain ⟨i, s, -, hn⟩ := exists_of_mem_listFrom hn
    exact ModuleSource.of_mem_listing hn
  refine ⟨rfl, ?_⟩
  constructor
  case id =>
    rw [hd]
    rfl
  case modules =>
    rw [hd]
    rfl
  case nodes =>
    rw [Source.listing, listFrom, List.append_nil, ← hnodes]
    refine List.map_congr_left fun n hn => ?_
    rw [Model.declared_eq, Model.core_of_untouched (huntouched hn).2 fun c _ haugment => ?_]
    -- An augment would have a target.
    obtain ⟨t, ht⟩ := Option.ne_none_iff_exists'.1 fun htarget =>
      (hm.targetless haugment).1 htarget rfl
    obtain ⟨n', hn', htarget⟩ := Option.bind_eq_some_iff.1 ht
    have hmem : n' ∈ d.model.nodes.toList := by
      rw [Array.mem_toList_iff]
      exact Array.mem_of_getElem? hn'
    rw [(huntouched hmem).1] at htarget
    cases htarget
  case targets =>
    intro p hp
    cases hp

end Draft

/-! ### What is wrong with a source -/

/-- Whatever is wrong, it is not that augments lack their targets. -/
def NeverLacking {α : Type} (x : Except ModelError α) : Prop :=
  ∀ targets, x ≠ .error (.unresolvedAugments targets)

theorem NeverLacking.bind {α β : Type} {x : Except ModelError α}
    {f : α → Except ModelError β} (hx : NeverLacking x) (hf : ∀ a, NeverLacking (f a)) :
    NeverLacking (x >>= f) := by
  cases x with
  | error e =>
    intro targets h
    cases h
    exact hx targets rfl
  | ok a => exact hf a

namespace Draft

variable {d d' : Draft} {source : Source} {placed : List Placement}

theorem neverLacking_ref (i : Nat) : NeverLacking (d.ref i) := by
  intro targets h
  unfold ref at h
  split at h <;> cases h

theorem neverLacking_ok {α : Type} (a : α) : NeverLacking (.ok a) := by
  rintro targets ⟨⟩

/-- A property of a node is set, or the node is not there. -/
theorem neverLacking_set {α : Type} (i : Nat) (a : α) :
    NeverLacking (do discard (d.ref i); pure a) := by
  intro targets h
  cases href : d.ref i with
  | error e =>
    rw [href] at h
    cases h
    exact neverLacking_ref i targets href
  | ok r =>
    rw [href] at h
    cases h

theorem neverLacking_setDeclaredClass (i : Nat) (className : Option String) :
    NeverLacking (d.setDeclaredClass i className) := by
  cases className with
  | none => exact neverLacking_ok _
  | some className => exact neverLacking_set i _

theorem neverLacking_graft :
    (∀ d parent (source : NodeSource), NeverLacking (graft d parent source)) ∧
      ∀ d parent (sources : List NodeSource), NeverLacking (graftAll d parent sources) := by
  -- By the recursion of grafting: no step of it reports augments without a target.
  apply graft.mutual_induct (fun d parent source => NeverLacking (graft d parent source))
    (fun d parent sources => NeverLacking (graftAll d parent sources))
  case case1 =>
    intro d parent kind name ns className keys config children i ih
    rw [graft_eq]
    refine NeverLacking.bind ?_ fun d₁ => NeverLacking.bind ?_ fun d₂ =>
      (neverLacking_setDeclaredClass _ _).bind fun d₃ => NeverLacking.bind ?_ fun d₄ =>
        NeverLacking.bind ?_ ih
    · refine (neverLacking_ref parent).bind fun p => ?_
      split
      · exact neverLacking_ok _
      · rintro targets ⟨⟩
    · cases ns with
      | none => exact neverLacking_ok _
      | some ns => exact neverLacking_set _ _
    · split
      · exact neverLacking_ok _
      · refine (neverLacking_ref _).bind fun r => ?_
        split
        · exact neverLacking_ok _
        · rintro targets ⟨⟩
    · split
      · exact neverLacking_ok _
      · exact neverLacking_set _ _
  case case2 =>
    intro d parent
    exact neverLacking_ok d
  case case3 =>
    intro d parent source sources hsource hsources
    rw [graftAll]
    exact hsource.bind hsources

theorem neverLacking_graftModules (sources : List ModuleSource) :
    NeverLacking (d.graftModules sources) := by
  induction sources generalizing d with
  | nil => exact neverLacking_ok _
  | cons source sources ih =>
    refine NeverLacking.bind ?_ fun d₁ => (ih (d := d₁)).bind fun _ => neverLacking_ok _
    exact (neverLacking_setDeclaredClass _ _).bind fun _ => neverLacking_graft.2 _ _ _

theorem neverLacking_graftAugment (module target : Nat) (source : AugmentSource) :
    NeverLacking (d.graftAugment module target source) := by
  refine NeverLacking.bind ?_ fun d₁ =>
    (neverLacking_setDeclaredClass _ _).bind fun _ => neverLacking_graft.2 _ _ _
  refine (neverLacking_ref module).bind fun m => ?_
  split
  · rintro targets ⟨⟩
  · refine (neverLacking_ref target).bind fun t => ?_
    split
    · rintro targets ⟨⟩
    · exact neverLacking_ok _

theorem neverLacking_freeze : NeverLacking d.freeze := by
  intro targets h
  unfold freeze at h
  split at h
  · cases h
  · simp only at h
    split at h <;> cases h

/-! ### Rounds -/

/-- Augments that are placed one after the other are laid out in that order. -/
theorem laidOut_of_places {new : List Placement} (h : d.Places new d')
    (hlaid : source.LaidOut placed d.model) (hm : d.model.Linked) :
    source.LaidOut (placed ++ new) d'.model := by
  induction h generalizing placed with
  | nil => rwa [List.append_nil]
  | cons ht haugment _ ih =>
    have hm₁ := linked_of_graftAugment hm haugment
    rw [List.append_cons]
    exact ih (laidOut_of_graftAugment hlaid hm hm₁ ht haugment) hm₁

/-- Rounds place all augments, or they end with a draft in which no path of those that are left
resolves. -/
theorem laidOut_of_settle {pending : List (Nat × AugmentSource)}
    (hlaid : source.LaidOut placed d.model) (hm : d.model.Linked) :
    (∀ d', d.settle pending = .ok d' → ∃ new, source.LaidOut (placed ++ new) d'.model ∧
      (new.map Placement.origin).Perm pending) ∧
    ∀ targets, d.settle pending = .error (.unresolvedAugments targets) →
      ∃ (new : List Placement) (waiting : List (Nat × AugmentSource)) (d' : Draft),
        source.LaidOut (placed ++ new) d'.model ∧
        (new.map Placement.origin ++ waiting).Perm pending ∧
        targets = waiting.map (fun p => p.2.target) ∧ ∀ t ∈ targets, d'.resolve? t = none := by
  obtain ⟨hok, herror⟩ := places_of_settle d pending
  constructor
  · intro d' h
    obtain ⟨new, hplaces, hperm⟩ := hok d' h
    exact ⟨new, laidOut_of_places hplaces hlaid hm, hperm⟩
  · intro targets h
    obtain ⟨new, waiting, d', hplaces, hperm, hstuck⟩ := herror _ h
    obtain ⟨p, -, t, -, hrefused⟩ | ⟨heq, -, hnone⟩ := hstuck
    · exact absurd hrefused (neverLacking_graftAugment _ _ _ targets)
    · cases heq
      refine ⟨new, waiting, d', laidOut_of_places hplaces hlaid hm, hperm, rfl, fun t ht => ?_⟩
      obtain ⟨p, hp, rfl⟩ := List.mem_map.1 ht
      exact hnone p hp

/-- Freezing passes on namespaces and leaves the layout as it is. -/
theorem laidOut_of_freeze {m : Model} (h : source.LaidOut placed d.model) (hd : d.model.Linked)
    (hm : d.freeze = .ok m) : source.LaidOut placed m := by
  have hsame := Model.sameLinks_of_freeze hd hm
  have hget := Model.getElem?_of_freeze hd hm
  have hname := Model.nameAt_of_freeze hd hm
  have hkind : m.kindAt = d.model.kindAt := funext hsame.kind
  -- Freezing changes nothing but namespaces, which the listing leaves out.
  constructor
  case id =>
    rw [← h.id, (Model.freeze_eq_ok hm).1]
    rfl
  case modules => rw [hsame.modules, h.modules]
  case nodes =>
    rw [← h.nodes]
    refine List.ext_getElem? fun i => ?_
    rw [List.getElem?_map, List.getElem?_map, Array.getElem?_toList, Array.getElem?_toList, hget,
      Option.map_map]
    congr 1
    funext n
    simp [Model.declared, Node.unqualified, inheriting, hkind]
  case targets =>
    intro p hp
    refine targets_of_upward (hsame.upward hname) hd (hd.of_sameLinks hsame) (fun path i hi => ?_)
      (h.targets p hp)
    rw [hsame.resolveAt hname, hi]

/-! ### The number of rounds -/

/-- Rounds that go on until nothing waits any more or a round has placed nothing. There is no result
if the given number of rounds is not enough for that. -/
def settleIn (rounds : Nat) (d : Draft) (pending : List (Nat × AugmentSource)) :
    Option (Except ModelError Draft) :=
  if pending.isEmpty then some (.ok d)
  else
    match rounds with
    | 0 => none
    | rounds + 1 =>
      match d.settleRound pending with
      | .error e => some (.error e)
      | .ok (d, waiting) =>
        if waiting.length = pending.length then
          some (.error (.unresolvedAugments (waiting.map fun p => p.2.target)))
        else d.settleIn rounds waiting

theorem length_settleRound_le {pending waiting : List (Nat × AugmentSource)}
    (h : d.settleRound pending = .ok (d', waiting)) : waiting.length ≤ pending.length := by
  induction pending generalizing d waiting with
  | nil =>
    cases h
    exact Nat.le_refl _
  | cons first rest ih =>
    obtain ⟨module, augment⟩ := first
    rw [settleRound] at h
    split at h
    · obtain ⟨d₁, -, h⟩ := Except.bind_eq_ok_iff.1 h
      exact Nat.le_succ_of_le (ih h)
    · obtain ⟨⟨d₁, later⟩, hrest, h⟩ := Except.bind_eq_ok_iff.1 h
      cases h
      exact Nat.succ_le_succ (ih hrest)

/-- No more rounds are needed than there are augments, since each of them but the last places one.
-/
theorem settleIn_eq {rounds : Nat} (pending : List (Nat × AugmentSource))
    (hr : pending.length ≤ rounds) : d.settleIn rounds pending = some (d.settle pending) := by
  induction rounds generalizing d pending with
  | zero =>
    have hempty : pending.isEmpty = true := by simpa using hr
    rw [settleIn, settle, if_pos hempty, if_pos hempty]
  | succ rounds ih =>
    rw [settleIn, settle]
    split
    · rfl
    · cases hround : d.settleRound pending with
      | error e => rfl
      | ok round =>
        obtain ⟨d₁, waiting⟩ := round
        have hle := length_settleRound_le hround
        by_cases hless : waiting.length < pending.length
        · simp only [if_pos hless, if_neg (Nat.ne_of_lt hless), ih waiting (by omega)]
        · have heq : waiting.length = pending.length := by omega
          simp only [if_neg hless, if_pos heq]

end Draft

/-- Compilation in at most a given number of rounds. -/
def Source.compileIn (rounds : Nat) (source : Source) : Option (Except ModelError Model) :=
  match (Draft.empty source.id).graftModules source.modules with
  | .error e => some (.error e)
  | .ok (d, augments) => (d.settleIn rounds augments).map fun settled => settled >>= Draft.freeze

/-- Compilation ends, whatever the source, after no more rounds than it has augments. A compiled
model is the listing of its source, in which every augment stands at the node that its path resolves
to. If augments are left without a target, then a draft with all modules and exactly the other
augments is laid out in the same way, and none of the paths that are reported resolves in it. -/
theorem Source.compile_lays_out (source : Source) :
    (∀ rounds ≥ source.augments.length, source.compileIn rounds = some source.compile) ∧
    (∀ m, source.compile = .ok m → ∃ placed, source.LaidOut placed m ∧
      (placed.map Placement.origin).Perm source.augments) ∧
    ∀ targets, source.compile = .error (.unresolvedAugments targets) →
      ∃ (placed : List Placement) (waiting : List (Nat × AugmentSource)) (d : Draft),
        source.LaidOut placed d.model ∧
        (placed.map Placement.origin ++ waiting).Perm source.augments ∧
        targets = waiting.map (fun p => p.2.target) ∧ ∀ t ∈ targets, d.resolve? t = none := by
  cases hmodules : (Draft.empty source.id).graftModules source.modules with
  | error e =>
    have hcompile : source.compile = .error e := by
      rw [compile, hmodules]
      rfl
    simp only [compileIn, hmodules, hcompile]
    refine ⟨fun _ _ => trivial, ?_, ?_⟩
    · rintro m ⟨⟩
    · rintro targets ⟨⟩
      exact absurd hmodules (Draft.neverLacking_graftModules source.modules targets)
  | ok drafted =>
    obtain ⟨d, augments⟩ := drafted
    have hcompile : source.compile = d.settle augments >>= Draft.freeze := by
      rw [compile, hmodules]
      rfl
    obtain ⟨rfl, hlaid⟩ := Draft.laidOut_of_graftModules hmodules
    have hlinked : d.model.Linked := by
      obtain ⟨commands, rfl⟩ := Draft.extends_of_graftModules hmodules
      exact Draft.linked_run commands (Draft.linked_empty source.id)
    -- The rounds either place all augments or end with those that cannot be placed.
    obtain ⟨hok, herror⟩ := Draft.laidOut_of_settle hlaid hlinked
    simp only [compileIn, hmodules, hcompile]
    refine ⟨fun rounds hr => by rw [Draft.settleIn_eq _ hr, Option.map_some], ?_, ?_⟩
    · intro m hm
      obtain ⟨d', hsettle, hfreeze⟩ := Except.bind_eq_ok_iff.1 hm
      obtain ⟨placed, hlaid', hperm⟩ := hok d' hsettle
      have hlinked' : d'.model.Linked := by
        obtain ⟨commands, rfl⟩ := Draft.settle_commands hsettle
        exact Draft.linked_run commands hlinked
      exact ⟨placed, Draft.laidOut_of_freeze hlaid' hlinked' hfreeze, hperm⟩
    · intro targets h
      cases hsettle : d.settle source.augments with
      | ok d' =>
        rw [hsettle] at h
        exact absurd h (Draft.neverLacking_freeze targets)
      | error e =>
        rw [hsettle] at h
        cases h
        exact herror targets hsettle

/-! ### Augments of augments -/

/-- The name of an augment is no name in a path. -/
theorem Ref.kind_ne_augment_of_pathChild? {r c : Ref} {name : String} (h : r.model.Linked)
    (hc : r.pathChild? name = some c) : c.kind ≠ .augment := by
  rw [pathChild?, Option.orElse_eq_orElse, ← Option.or_eq_orElse, Option.or_eq_some_iff] at hc
  obtain hc | ⟨-, hc⟩ := hc
  · simpa using (List.mem_filter.1 (List.mem_of_find?_eq_some hc)).2
  · -- What an augment contributes is declared in it, which no augment is.
    obtain ⟨augment, ha, hc⟩ := List.mem_flatMap.1 (List.mem_of_find?_eq_some hc)
    have hm := model_of_mem_augments ha
    have hadmits := admits_of_parent? (model_of_mem_children hc ▸ hm ▸ h)
      ((mem_children_iff (hm ▸ h)).1 hc)
    rw [kind_of_mem_augments h ha] at hadmits
    intro hk
    simp [hk, Model.Admits, Kind.admits] at hadmits

/-- An augment of a model that is laid out stands where a path leads. -/
theorem Source.LaidOut.exists_resolve? {source : Source} {placed : List Placement} {augment t : Ref}
    (h : source.LaidOut placed augment.model) (ht : augment.target? = some t) :
    ∃ path, (Draft.mk augment.model).resolve? path = some t := by
  obtain ⟨hm, htarget, -⟩ := Ref.earlier?_eq_some_iff.1 ht
  have hmem : augment.model.declared augment.node ∈
      (source.listing placed).map Node.unqualified := by
    rw [← h.nodes]
    exact List.mem_map_of_mem (Array.getElem_mem_toList _)
  obtain ⟨n, hn, hnode⟩ := List.mem_map.1 hmem
  have hnt : n.target = some t.index.val := by
    have := congrArg Node.target hnode
    exact this.trans htarget
  rw [Source.listing, List.mem_append] at hn
  obtain hn | hn := hn
  · obtain ⟨_, _, -, hn⟩ := exists_of_mem_listFrom hn
    cases (ModuleSource.of_mem_listing hn).1.symm.trans hnt
  · obtain ⟨_, p, hp, hn⟩ := exists_of_mem_listFrom hn
    obtain ⟨s, hs, hindex, -⟩ := h.targets p hp
    have hsm := Draft.model_of_resolve? hs
    obtain rfl : s = t := Ref.ext_iff'.2
      ⟨hsm.trans hm.symm, hindex.trans (Placement.target_of_mem_listing hn hnt).symm⟩
    exact ⟨_, hs⟩

/-- In a compiled model no augment targets another one. -/
theorem Source.kind_ne_augment_of_compile {source : Source} {augment t : Ref}
    (h : source.compile = .ok augment.model) (ht : augment.target? = some t) : t.kind ≠ .augment := by
  obtain ⟨placed, hlaid, -⟩ := (source.compile_lays_out).2.1 _ h
  obtain ⟨path, hpath⟩ := hlaid.exists_resolve? ht
  obtain ⟨q, name, hq, hchild⟩ := Draft.exists_pathChild?_of_resolve? hpath
  exact Ref.kind_ne_augment_of_pathChild? (hq ▸ (built_of_compile h).linked) hchild

theorem Source.choiceAugmentsFinal_of_compile {source : Source} {m : Model}
    (h : source.compile = .ok m) : m.ChoiceAugmentsFinal := by
  intro augment ha hk _ _ _ further hfurther
  obtain rfl : augment.model = m := Ref.model_of_mem_refs ha
  have hm := Ref.model_of_mem_augments hfurther
  have htarget := (Ref.mem_augments_iff (built_of_compile h).linked).1 hfurther
  exact absurd hk (kind_ne_augment_of_compile (hm ▸ h) htarget)

/-! ### A rack

The labels of slots are declared before the tray that has the slots, so they wait for one round.
Without the tray they wait in vain. -/

namespace Rack

def label : AugmentSource where
  target := "/rack:shelf/tray/slot"
  children := [{ kind := .leaf, name := "label" }]

def slot : NodeSource where
  kind := .list
  name := "slot"
  keys := ["number"]
  config := false
  children := [{ kind := .leaf, name := "number" }]

def tray : AugmentSource where
  target := "/rack:shelf"
  className := some "ShelfExtra"
  children := [{ kind := .container, name := "tray", children := [slot] }]

def source (augments : List AugmentSource) : Source where
  id := "rack"
  modules := [{ name := "rack", ns := "urn:rack", augments,
                children := [{ kind := .container, name := "shelf", className := some "Shelf" }] }]

def model : Model where
  id := "rack"
  nodes := #[
    { id := ⟨"rack", some "urn:rack"⟩, kind := .module, children := [1, 2, 6] },
    { id := ⟨"shelf", some "urn:rack"⟩, kind := .container, parent := some 0, augments := [2],
      className := some "Shelf" },
    { id := ⟨"/shelf", some "urn:rack"⟩, kind := .augment, parent := some 0, target := some 1,
      children := [3], className := some "ShelfExtra" },
    { id := ⟨"tray", some "urn:rack"⟩, kind := .container, parent := some 2, children := [4] },
    { id := ⟨"slot", some "urn:rack"⟩, kind := .list, parent := some 3, children := [5],
      keys := ["number"], augments := [6], config := false },
    { id := ⟨"number", some "urn:rack"⟩, kind := .leaf, parent := some 4 },
    { id := ⟨"/shelf/tray/slot", some "urn:rack"⟩, kind := .augment, parent := some 0,
      target := some 4, children := [7] },
    { id := ⟨"label", some "urn:rack"⟩, kind := .leaf, parent := some 6 }]
  modules := [0]

end Rack

theorem compile_lays_out_rack :
    (∃ placed, (Rack.source [Rack.label, Rack.tray]).LaidOut placed Rack.model ∧
      (placed.map Placement.origin).Perm [(0, Rack.label), (0, Rack.tray)]) ∧
    ∃ (placed : List Placement) (waiting : List (Nat × AugmentSource)) (d : Draft),
      (Rack.source [Rack.label]).LaidOut placed d.model ∧
      (placed.map Placement.origin ++ waiting).Perm [(0, Rack.label)] ∧
      ["/rack:shelf/tray/slot"] = waiting.map (fun p => p.2.target) ∧
      ∀ t ∈ ["/rack:shelf/tray/slot"], d.resolve? t = none := by
  have hmodel : (Rack.source [Rack.label, Rack.tray]).compile = .ok Rack.model := by
    decide +kernel
  have hlacking : (Rack.source [Rack.label]).compile =
      .error (.unresolvedAugments ["/rack:shelf/tray/slot"]) := by
    decide +kernel
  obtain ⟨-, hcompiled, -⟩ := Source.compile_lays_out (Rack.source [Rack.label, Rack.tray])
  obtain ⟨-, -, hleft⟩ := Source.compile_lays_out (Rack.source [Rack.label])
  exact ⟨hcompiled _ hmodel, hleft _ hlacking⟩

end YangBinding.Schema
