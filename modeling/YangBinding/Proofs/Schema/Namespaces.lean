import YangBinding.Proofs.Schema.Arena
import YangBinding.Proofs.Schema.Renumbering

/-!
# Effective namespaces

A namespace is declared with a module, or by a command of its own on any node and at any time, also
after nodes have been added below. Freezing goes through the nodes once, in the order in which they
were added, and hands each of them what its parent has by then. What comes out does not depend on
when a namespace was declared: the last declaration on the nearest node around counts.

The nodes around are those that a node was declared in. An augment was declared in a module, and
what it contributes in the augment, so the target of an augment is never among them.

## Main definitions

* `Draft.declaration?`, `Draft.declarations` — the namespaces that commands declare
* `Ref.scope` — a node and the nodes that it was declared in

## Main results

* `Draft.nsAt_run` — a draft carries the last declaration of every node
* `Ref.ns_of_freeze` — a frozen node has the namespace declared nearest around it
* `Ref.scope_of_augment` — the way out of an augment leads to its module, past its target
* `Draft.namespaces_run` — all of this for any sequence of commands, and when it can be frozen
-/

namespace YangBinding.Schema

/-- The namespace that the node of a number carries. -/
def Model.nsAt (m : Model) (i : Nat) : Option String := m.nodes[i]?.bind fun n => n.id.ns

namespace Draft

variable {d d' : Draft} {command : Command} {i p : Nat}

/-! ### Declarations -/

/-- The node that a command declares a namespace on, with the namespace. Nothing is declared on a
node that is not there. -/
def declaration? (d : Draft) : Command → Option (Nat × String)
  | .addModule _ ns _ => some (d.size, ns)
  | .setNamespace i ns => if i < d.size then some (i, ns) else none
  | _ => none

/-- The namespaces that commands declare, each with its node, the latest first. -/
def declarations (d : Draft) : List Command → List (Nat × String)
  | [] => []
  | command :: commands =>
    ((d.perform command).toOption.getD d).declarations commands ++ (d.declaration? command).toList

/-- A single declaration is found under its node alone. -/
private theorem lookup_declared {j : Nat} {ns : String} :
    [(j, ns)].lookup i = if i = j then some ns else none := by
  by_cases h : i = j
  · simp [h]
  · simp [List.lookup_cons, beq_eq_false_iff_ne.2 h, h]

theorem nsAt_update {change : Node → Node} (hchange : ∀ n, (change n).id.ns = n.id.ns) :
    (d.update p change).model.nsAt i = d.model.nsAt i := by
  simp only [Model.nsAt, update, Array.getElem?_modify]
  split <;> cases d.model.nodes[i]? <;> simp [hchange]

/-- A new node comes with what is declared on it; those that are there keep their namespaces. -/
theorem nsAt_insert {n : Node} (hp : ∀ p, n.parent = some p → p < d.model.nodes.size) :
    (d.insert n).model.nsAt i = if i = d.size then n.id.ns else d.model.nsAt i := by
  rw [Model.nsAt, getElem?_insert n hp, size]
  split
  · rfl
  · cases h : d.model.nodes[i]? with
    | none => simp [Model.nsAt, h]
    | some old =>
      simp only [Option.map_some, Option.bind_some, Model.nsAt, h]
      split <;> rfl

theorem nsAt_of_size_le (hi : d.size ≤ i) : d.model.nsAt i = none := by
  rw [Model.nsAt, Array.getElem?_eq_none hi, Option.bind_none]

/-- Where no namespace is declared on a new node, nothing changes. -/
theorem nsAt_insert_undeclared {n : Node} (hp : ∀ p, n.parent = some p → p < d.model.nodes.size)
    (hns : n.id.ns = none) : (d.insert n).model.nsAt i = d.model.nsAt i := by
  rw [nsAt_insert hp]
  split
  · next hi => rw [hns, nsAt_of_size_le (by omega)]
  · rfl

/-- What an accepted command does besides setting links: it may declare a namespace, and the
declaration of a module adds to the modules. -/
structure Effect (d : Draft) (command : Command) (d' : Draft) : Prop where
  id : d'.model.id = d.model.id
  modules : d'.model.modules = d.model.modules ++ match command with
    | .addModule .. => [d.size]
    | _ => []
  nsAt : ∀ i, d'.model.nsAt i =
    ((d.declaration? command).toList.lookup i).or (d.model.nsAt i)

/-- A namespace that is set takes the place of what the node carried. -/
private theorem nsAt_setNamespace {ns : String} (hlt : p < d.size) :
    (d.update p fun n => { n with id := { n.id with ns := some ns } }).model.nsAt i =
      if i = p then some ns else d.model.nsAt i := by
  rw [Model.nsAt, update, Array.getElem?_modify]
  by_cases hi : i = p
  · subst hi
    simp [Array.getElem?_eq_getElem hlt]
  · simp [hi, Model.nsAt, Ne.symm hi]

theorem effect_of_perform (hd : d.perform command = .ok d') : d.Effect command d' := by
  -- New nodes other than modules come without a namespace, and of the changes to nodes only one
  -- touches it.
  cases perform_eq_ok_iff.1 hd with
  | @addModule name ns revision =>
    refine ⟨rfl, rfl, fun i => ?_⟩
    refine (nsAt_insert (n := { id := ⟨name, some ns⟩, kind := .module, revision }) (by simp)).trans ?_
    rw [declaration?, Option.toList_some, lookup_declared]
    split <;> rfl
  | addChild hparent =>
    refine ⟨rfl, (List.append_nil _).symm, fun i => nsAt_insert_undeclared ?_ rfl⟩
    rintro _ ⟨⟩
    exact Model.lt_of_kindAt hparent
  | addAugment hmodule =>
    refine ⟨rfl, (List.append_nil _).symm, fun i => ?_⟩
    refine (nsAt_update ?_).trans (nsAt_insert_undeclared ?_ rfl)
    · exact fun n => rfl
    · rintro _ ⟨⟩
      exact Model.lt_of_kindAt hmodule
  | change hchange hlt =>
    cases command with
    | setNamespace node ns =>
      cases hchange
      refine ⟨rfl, (List.append_nil _).symm, fun i => ?_⟩
      rw [declaration?, if_pos hlt, Option.toList_some, lookup_declared, nsAt_setNamespace hlt]
      split <;> rfl
    | _ =>
      cases hchange <;> exact ⟨rfl, (List.append_nil _).symm, fun i => nsAt_update fun _ => rfl⟩

/-- A command that is refused declares nothing. -/
theorem declaration?_of_refused {e : ModelError} (hd : d.perform command = .error e) :
    d.declaration? command = none := by
  cases command with
  | addModule name ns revision => cases hd
  | setNamespace node ns =>
    refine if_neg fun hlt => ?_
    have hr := ref_eq_ok_iff.2 ⟨hlt, rfl⟩
    simp only [perform, setNamespace, hr] at hd
    cases hd
  | _ => rfl

/-- Whatever commands are given, a node carries the namespace that was declared on it last. -/
theorem nsAt_run (commands : List Command) :
    (d.run commands).model.nsAt i =
      ((d.declarations commands).lookup i).or (d.model.nsAt i) := by
  -- From the front: what later commands declare stands before what the first one does.
  induction commands generalizing d with
  | nil => rfl
  | cons command commands ih =>
    rw [run_cons, ih, declarations, List.lookup_append, Option.or_assoc]
    congr 1
    cases hd : d.perform command with
    | ok d' => exact (effect_of_perform hd).nsAt i
    | error e =>
      rw [declaration?_of_refused hd]
      rfl

end Draft

/-! ### Frozen models -/

namespace Ref

variable {m : Model} {d : Draft} {r a p t : Ref}

/-- A node and the nodes that it was declared in, innermost first. -/
def scope (r : Ref) : List Ref := r :: r.enclosing

theorem scope_of_parent? (hp : r.parent? = some p) : r.scope = r :: p.scope := by
  rw [scope, enclosing_eq hp, scope]

theorem scope_of_parentless (hp : r.parent? = none) : r.scope = [r] := by
  rw [scope, enclosing]
  split
  · rfl
  · simp_all

theorem node_eq (hr : r.model = m) : m.nodes[r.index.val]? = some r.node := by
  subst hr
  simp [node]

/-- A node has the namespace declared on itself, or else that of its parent. -/
theorem ns_eq_or (hd : d.model.Linked) (hm : d.freeze = .ok m) (hr : r.model = m) :
    r.ns = (d.model.nsAt r.index).or (r.parent?.bind ns) := by
  have hl : r.model.Linked := hr ▸ hd.of_sameLinks (Model.sameLinks_of_freeze hd hm)
  have hnode := Model.getElem?_of_freeze hd hm r.index
  rw [node_eq hr] at hnode
  obtain ⟨n, hn, heq⟩ := Option.map_eq_some_iff.1 hnode.symm
  have hparent : r.node.parent = n.parent := by rw [← heq, Draft.inheriting]
  have hns : r.ns = n.id.ns.or ((n.parent.bind fun p => m.nodes[p]?).bind fun p => p.id.ns) := by
    rw [ns, id, ← heq, Draft.inheriting]
    cases n.id.ns <;> rfl
  rw [hns, Model.nsAt, hn, Option.bind_some]
  congr 1
  -- Namespaces are passed on from parent to child, and modules have no parent.
  cases hp : r.parent? with
  | none =>
    have hlink := (hl.parentless (kindAt_index rfl)).2 ((parent?_eq_none_iff hl).1 hp)
    rw [parentAt_index rfl, hparent] at hlink
    rw [hlink]
    rfl
  | some p =>
    obtain ⟨hpm, hlink, -⟩ := earlier?_eq_some_iff.1 hp
    rw [← hparent, hlink, Option.bind_some, node_eq (hpm.trans hr)]
    rfl

/-- A node has the namespace declared on the nearest node around, itself included. -/
theorem ns_of_freeze (hd : d.model.Linked) (hm : d.freeze = .ok m) (hr : r.model = m) :
    r.ns = r.scope.findSome? fun a => d.model.nsAt a.index := by
  -- The way to the module leads to ever smaller numbers.
  induction hi : r.index.val using Nat.strongRecOn generalizing r with
  | ind i ih =>
    rw [ns_eq_or hd hm hr]
    cases hp : r.parent? with
    | none =>
      rw [scope_of_parentless hp, List.findSome?_singleton]
      simp
    | some p =>
      have hlt : p.index.val < i := hi ▸ index_lt_of_earlier? hp
      rw [scope_of_parent? hp, List.findSome?_cons, Option.bind_some,
        ih _ hlt ((model_of_earlier? hp).trans hr) rfl]
      cases d.model.nsAt r.index <;> rfl

theorem index_le_of_mem_scope (ha : a ∈ r.scope) : a.index.val ≤ r.index.val := by
  induction hi : r.index.val using Nat.strongRecOn generalizing r with
  | ind i ih =>
    cases hp : r.parent? with
    | none =>
      rw [scope_of_parentless hp, List.mem_singleton] at ha
      rw [ha, hi]
    | some p =>
      have hlt : p.index.val < i := hi ▸ index_lt_of_earlier? hp
      rw [scope_of_parent? hp, List.mem_cons] at ha
      obtain rfl | ha := ha
      · exact hi.le
      · exact (ih _ hlt ha rfl).trans hlt.le

/-- The way out of a node ends as that of each node on it does. What comes before are later nodes. -/
theorem scope_of_mem_scope (ha : a ∈ r.scope) :
    a.model = r.model ∧ ∃ between, r.scope = between ++ a.scope ∧
      ∀ b ∈ between, a.index.val < b.index.val := by
  induction hi : r.index.val using Nat.strongRecOn generalizing r with
  | ind i ih =>
    cases hp : r.parent? with
    | none =>
      rw [scope_of_parentless hp, List.mem_singleton] at ha
      subst ha
      exact ⟨rfl, [], rfl, by simp⟩
    | some p =>
      have hlt : p.index.val < i := hi ▸ index_lt_of_earlier? hp
      rw [scope_of_parent? hp, List.mem_cons] at ha
      obtain rfl | ha := ha
      · exact ⟨rfl, [], rfl, by simp⟩
      · obtain ⟨ham, between, hscope, hbetween⟩ := ih _ hlt ha rfl
        refine ⟨ham.trans (model_of_earlier? hp), r :: between, ?_, ?_⟩
        · rw [scope_of_parent? hp, hscope, List.cons_append]
        · have hle := index_le_of_mem_scope ha
          simp only [List.forall_mem_cons]
          exact ⟨by omega, hbetween⟩

/-- The way out of what an augment contributes leads through the augment to the module that it was
declared in. Its target is not on the way. -/
theorem scope_of_augment (hl : r.model.Linked) (ha : a ∈ r.scope) (hk : a.kind = .augment) :
    ∃ between module, r.scope = between ++ [a, module] ∧ a.parent? = some module ∧
      module.kind = .module ∧ ∀ t, a.target? = some t → t ∉ r.scope := by
  obtain ⟨ham, between, hscope, hbetween⟩ := scope_of_mem_scope ha
  have hla : a.model.Linked := ham ▸ hl
  obtain ⟨module, hparent⟩ : ∃ module, a.parent? = some module := by
    refine Option.ne_none_iff_exists'.1 fun hnone => ?_
    rw [parent?_eq_none_iff hla, hk] at hnone
    cases hnone
  have hmodule : module.kind = .module :=
    Model.parent_of_admits_top (.inr hk) (admits_of_parent? hla hparent)
  have hlm : module.model.Linked := model_of_earlier? hparent ▸ hla
  rw [scope_of_parent? hparent, scope_of_parentless ((parent?_eq_none_iff hlm).2 hmodule)] at hscope
  refine ⟨between, module, hscope, hparent, hmodule, fun t ht htr => ?_⟩
  -- The target was there before the augment, so it could only be the module, which has no augments.
  have hlt := index_lt_of_earlier? ht
  rw [hscope, List.mem_append, List.mem_cons, List.mem_singleton] at htr
  obtain htr | rfl | rfl := htr
  · exact absurd (hbetween t htr) (by omega)
  · omega
  · have haug := isAugmentable_of_target? hla ht
    rw [hmodule] at haug
    cases haug

end Ref

/-! ### Acceptance -/

namespace Draft

variable {d d' : Draft} {command : Command} {m : Model} {r r' : Ref}

/-- There is a module as soon as one has been declared. -/
theorem modules_run_ne_nil_iff (commands : List Command) :
    (d.run commands).model.modules ≠ [] ↔
      d.model.modules ≠ [] ∨ ∃ name ns revision, Command.addModule name ns revision ∈ commands := by
  induction commands generalizing d with
  | nil => simp [run]
  | cons command commands ih =>
    rw [run_cons, ih]
    cases hd : d.perform command with
    | error e =>
      cases command with
      | addModule name ns revision => cases hd
      | _ => simp [Except.toOption]
    | ok d' =>
      simp only [Except.toOption, Option.getD_some, (effect_of_perform hd).modules]
      cases command with
      | addModule name ns revision =>
        simp only [ne_eq, List.append_eq_nil_iff, List.cons_ne_self, List.mem_cons, and_false,
          not_false_eq_true, true_or, true_iff]
        exact .inr ⟨name, ns, revision, .inl rfl⟩
      | _ => simp

/-- Commands do not change the identifier of the model. -/
theorem id_run (commands : List Command) : (d.run commands).model.id = d.model.id :=
  run_induction (P := fun d' => d'.model.id = d.model.id)
    (fun h hd => (effect_of_perform hd).id.trans h) commands rfl

theorem undeclaredKey?_eq_none_iff : undeclaredKey? r = none ↔
    (r.kind = .list → ∀ key ∈ r.keys, ∃ c ∈ r.children, c.kind = .leaf ∧ c.name = key) := by
  by_cases hk : r.kind = .list <;> simp [undeclaredKey?, hk]

/-- Passing on namespaces does not change which keys are declared. -/
theorem undeclaredKey?_inherited (hd : d.model.Linked) (hr : r.model = d.model)
    (hr' : r'.model = d.inherited) (hi : r'.index.val = r.index.val) :
    undeclaredKey? r' = undeclaredKey? r := by
  have hsame := Model.sameLinks_inherited hd
  have hnode : r'.node = inheriting d.inherited.nodes r.node := by
    have hget := Model.getElem?_inherited hd r.index
    rw [Ref.node_eq hr, ← hi, Ref.node_eq hr'] at hget
    exact Option.some.inj hget
  have hname : d.inherited.nameAt = d.model.nameAt := by
    funext i
    simp [Model.nameAt, Model.getElem?_inherited hd, Function.comp_def, inheriting]
  rw [undeclaredKey?_index hr' (hd.of_sameLinks hsame), undeclaredKey?_index hr hd, hi,
    hsame.declaredAt, hname, funext hsame.kind, Ref.kind, Ref.keys, hnode]
  rfl

/-- A draft can be frozen exactly if it has a module and the keys of its lists are leaves declared in
them. -/
theorem exists_freeze_iff (hd : d.model.Linked) : (∃ m, d.freeze = .ok m) ↔
    d.model.modules ≠ [] ∧ ∀ r ∈ d.model.refs, r.kind = .list →
      ∀ key ∈ r.keys, ∃ c ∈ r.children, c.kind = .leaf ∧ c.name = key := by
  have hsize := Model.size_inherited hd
  simp only [← undeclaredKey?_eq_none_iff, Model.freeze_eq_ok_iff]
  constructor
  · rintro ⟨m, hmodules, rfl, hkeys⟩
    refine ⟨hmodules, fun r hr => ?_⟩
    have hr := Ref.model_of_mem_refs hr
    let r' : Ref := ⟨d.inherited, r.index, by rw [hsize, ← hr]; exact r.index.isLt⟩
    have hsame : undeclaredKey? r' = undeclaredKey? r := undeclaredKey?_inherited hd hr rfl rfl
    rw [← hsame]
    exact hkeys r' r'.mem_refs_self
  · rintro ⟨hmodules, hkeys⟩
    refine ⟨d.inherited, hmodules, rfl, fun r' hr' => ?_⟩
    have hr' := Ref.model_of_mem_refs hr'
    let r : Ref := ⟨d.model, r'.index, by rw [← hsize, ← hr']; exact r'.index.isLt⟩
    have hsame : undeclaredKey? r' = undeclaredKey? r := undeclaredKey?_inherited hd rfl hr' rfl
    rw [hsame]
    exact hkeys r r.mem_refs_self

/-- Whatever commands are given: the draft can be frozen exactly if one of them declares a module and
every key of a list is a leaf declared in it, and a draft without modules is refused for that. Every
node of the frozen model has a namespace, the one that was declared last on the nearest node around
it on which any was, and for what an augment contributes the search ends at the module that the
augment was declared in, without a look at its target. -/
theorem namespaces_run (id : String) (commands : List Command) :
    let d := (empty id).run commands
    ((∃ m, d.freeze = .ok m) ↔
      (∃ name ns revision, Command.addModule name ns revision ∈ commands) ∧
        ∀ r ∈ d.model.refs, r.kind = .list →
          ∀ key ∈ r.keys, ∃ c ∈ r.children, c.kind = .leaf ∧ c.name = key) ∧
      ((∀ name ns revision, Command.addModule name ns revision ∉ commands) →
        d.freeze = .error (.noModules id)) ∧
      ∀ m, d.freeze = .ok m → ∀ r ∈ m.refs,
        r.ns.isSome ∧
        r.ns = (r.scope.findSome? fun a => ((empty id).declarations commands).lookup a.index) ∧
        ∀ a ∈ r.scope, a.kind = .augment → ∃ between module, r.scope = between ++ [a, module] ∧
          a.parent? = some module ∧ module.kind = .module ∧
          ∀ t, a.target? = some t → t ∉ r.scope := by
  intro d
  have hd : d.model.Linked := linked_run commands (linked_empty id)
  have hmodules : d.model.modules ≠ [] ↔
      ∃ name ns revision, Command.addModule name ns revision ∈ commands := by
    refine (modules_run_ne_nil_iff commands).trans (or_iff_right ?_)
    simp [empty]
  refine ⟨(exists_freeze_iff hd).trans (and_congr_left' hmodules), fun hnone => ?_,
    fun m hm r hr => ?_⟩
  -- Without a module the draft is refused before anything else is looked at.
  · have hnil : d.model.modules = [] := by
      by_contra hne
      obtain ⟨name, ns, revision, hmem⟩ := hmodules.1 hne
      exact hnone name ns revision hmem
    have hid : d.model.id = id := id_run commands
    simp only [freeze, hnil, hid, List.isEmpty_nil, if_true]
    rfl
  · have hr := Ref.model_of_mem_refs hr
    have hbuilt : m.Built := ⟨id, commands, hm⟩
    have hdeclared (i : Nat) :
        d.model.nsAt i = ((empty id).declarations commands).lookup i := by
      rw [nsAt_run, Model.nsAt, empty]
      simp
    refine ⟨?_, ?_, fun a ha hk => Ref.scope_of_augment (hr ▸ hbuilt.linked) ha hk⟩
    · obtain ⟨ns, hns⟩ := Ref.exists_ns (hr ▸ hbuilt)
      rw [hns, Option.isSome_some]
    · simpa only [hdeclared] using Ref.ns_of_freeze hd hm hr

end Draft

/-! ### A signal

The lamp is contributed to the track by another module. A namespace is declared on the track after
the lamp is there, and another one on a node that is not there. -/

namespace Rail

def commands : List Draft.Command :=
  [.addModule "rail" "urn:rail" none, .addChild 0 .list "track", .addModule "signal" "urn:signal" none,
    .addAugment 2 1, .addChild 3 .leaf "lamp", .addChild 1 .leaf "number", .setKeys 1 ["number"],
    .setNamespace 1 "urn:track", .setNamespace 9 "urn:nowhere"]

def model : Model where
  id := "rail"
  nodes := #[
    { id := ⟨"rail", some "urn:rail"⟩, kind := .module, children := [1] },
    { id := ⟨"track", some "urn:track"⟩, kind := .list, parent := some 0, children := [5],
      keys := ["number"], augments := [3] },
    { id := ⟨"signal", some "urn:signal"⟩, kind := .module, children := [3] },
    { id := ⟨"/track", some "urn:signal"⟩, kind := .augment, parent := some 2, target := some 1,
      children := [4] },
    { id := ⟨"lamp", some "urn:signal"⟩, kind := .leaf, parent := some 3 },
    { id := ⟨"number", some "urn:track"⟩, kind := .leaf, parent := some 1 }]
  modules := [0, 2]

def track : Ref := ⟨model, 1, by decide⟩

def lamp : Ref := ⟨model, 4, by decide⟩

end Rail

/-- The lamp has the namespace of its own module, and the track is not asked for one. -/
theorem namespaces_run_rail :
    ((Draft.empty "rail").run Rail.commands).freeze = .ok Rail.model ∧
      Rail.lamp.ns = some "urn:signal" ∧
      Rail.lamp.ns = (Rail.lamp.scope.findSome? fun a =>
        ((Draft.empty "rail").declarations Rail.commands).lookup a.index) ∧
      Rail.track ∉ Rail.lamp.scope := by
  have hmodel : ((Draft.empty "rail").run Rail.commands).freeze = .ok Rail.model := by
    decide +kernel
  obtain ⟨-, -, hall⟩ := Draft.namespaces_run "rail" Rail.commands
  obtain ⟨-, hns, haugment⟩ := hall Rail.model hmodel Rail.lamp Rail.lamp.mem_refs_self
  have hscope := Ref.scope_of_parent? (r := Rail.lamp) (p := ⟨Rail.model, 3, by decide⟩) rfl
  have hmem : ⟨Rail.model, 3, by decide⟩ ∈ Rail.lamp.scope := by
    rw [hscope]
    exact List.mem_cons_of_mem _ List.mem_cons_self
  obtain ⟨-, -, -, -, -, htarget⟩ := haugment _ hmem rfl
  exact ⟨hmodel, rfl, hns, htarget Rail.track rfl⟩

end YangBinding.Schema
