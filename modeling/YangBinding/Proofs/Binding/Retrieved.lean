import YangBinding.Proofs.Binding.Addressed
import YangBinding.Proofs.Binding.Reordered

/-!
# What can be retrieved from data that has been read

The values of data that is read lie in objects, where the getters of fields and the extensions lead to
them. All values are there, but for those that have lost their place to others: a choice holds a single
case, and a field that takes one thing holds a single one. So a value may be missing only if on the way
to it some data node lies in another case of a choice than one of its siblings, or stands for the same
as a sibling although that occurs once. The latter never happens to data that has been assembled where
it is read.

## Main definitions

* `Tree.LeadsDown` — data nodes on the way down to a value
* `Registry.Retrieves`, `Registry.Recovers` — the value at the end of the way is there
* `Registry.Divided`, `Registry.Doubled` — a data node may have lost its place to a sibling
* `Registry.OnWay`, `Registry.OnWayFrom` — something is the case with a data node on the way

## Main results

* `Registry.Reachable.retrieves_of_readObject` — what an object of a data node holds
* `Registry.Reachable.recovers_of_read` — what the objects of positioned data hold
* `Registry.Reachable.recovers_of_assembled` — the same for data that has been assembled in its place
-/

namespace YangBinding

open Schema (DataChild Layer Ref)
open YangBinding.Tree (Frame Node ResourceData)

/-- Data nodes lead from some data nodes down to a value, each to the next. -/
inductive Tree.LeadsDown : List Node → List Node → Prop
  | value {nodes : List Node} {n : Node} (mem : n ∈ nodes) (value : n.value?.isSome = true) :
    LeadsDown nodes [n]
  | under {nodes way : List Node} {n : Node} (mem : n ∈ nodes) (inside : LeadsDown n.children way) :
    LeadsDown nodes (n :: way)

open YangBinding.Tree (LeadsDown)

namespace Registry

/-- An object of a schema node leads along data nodes to the value of the last one. Each data node
before that has been read as the object to which the field of its schema node leads, behind the layers
that are passed, or as a payload. The value is among those of its field, as the leaf stores it. -/
inductive Retrieves (reg : Registry) : Ref → Object → List Node → Prop
  | value {r : Ref} {o x : Object} {n : Node} {e : DataChild} {f : Field} {type : Scalar}
    {given stored : LeafValue} {values : List LeafValue} (child : reg.childFor? r n = some e)
    (within : o.within? e.layers = some x) (field : fieldFor x.type e.node = .ok f)
    (get : f.values x = .ok values) (scalar : f.type.scalar? = some type)
    (value : n.value? = some given) (accepted : type.store? given = some stored)
    (mem : stored ∈ values) : Retrieves reg r o [n]
  | member {r : Ref} {o x y : Object} {n : Node} {e : DataChild} {f : Field} {objects : List Object}
    {way : List Node} (child : reg.childFor? r n = some e) (within : o.within? e.layers = some x)
    (field : fieldFor x.type e.node = .ok f) (get : f.objects x = .ok objects) (mem : y ∈ objects)
    (read : reg.readObject n e.node = .ok y) (rest : Retrieves reg e.node y way) :
    Retrieves reg r o (n :: way)
  | payload {r : Ref} {o y : Object} {n : Node} {e : DataChild} {way : List Node}
    (kind : r.kind = .anydata) (child : reg.childFor? r n = some e) (mem : y ∈ o.anydata)
    (read : reg.readObject n e.node = .ok y) (rest : Retrieves reg e.node y way) :
    Retrieves reg r o (n :: way)

/-- A data node below a schema node lies in another case of a choice than one of its siblings. -/
def Divided (reg : Registry) (r : Ref) (nodes : List Node) (n : Node) : Prop :=
  ∃ n' ∈ nodes, ∃ e e', reg.childFor? r n = some e ∧ reg.childFor? r n' = some e' ∧ e.Rivals e'

/-- A data node below a schema node stands for the same as one of its siblings, although that occurs
once. -/
def Doubled (reg : Registry) (r : Ref) (nodes : List Node) (n : Node) : Prop :=
  ∃ n' ∈ nodes, n' ≠ n ∧ ∃ e, reg.childFor? r n = some e ∧ reg.childFor? r n' = some e ∧
    e.node.kind ≠ .list ∧ e.node.kind ≠ .leafList

/-- A data node below a schema node may have lost its place to a sibling. -/
def Rivaled (reg : Registry) (r : Ref) (nodes : List Node) (n : Node) : Prop :=
  reg.Divided r nodes n ∨ reg.Doubled r nodes n

/-- Something is the case with one of the data nodes on a way, seen among its siblings below its schema
node, which is no anydata node. -/
inductive OnWay (reg : Registry) (P : Ref → List Node → Node → Prop) : Ref → List Node → List Node →
    Prop
  | here {r : Ref} {nodes way : List Node} {n : Node} (kind : r.kind ≠ .anydata) (h : P r nodes n) :
    OnWay reg P r nodes (n :: way)
  | further {r : Ref} {nodes way : List Node} {n : Node} {e : DataChild}
    (child : reg.childFor? r n = some e) (rest : OnWay reg P e.node n.children way) :
    OnWay reg P r nodes (n :: way)

/-- Something is the case with one of the data nodes on a way from a base, after the first one. -/
def OnWayFrom (reg : Registry) (P : Ref → List Node → Node → Prop) (base : Option Ref) :
    List Node → Prop
  | [] => False
  | n :: way => ∃ e, reg.childOf? base n.key.name n.key.ns = some e ∧
      reg.OnWay P e.node n.children way

/-- The items below a base lead along data nodes to the value of the last one: the first data node is
an item itself, or has been read as an object that leads on. -/
inductive Recovers (reg : Registry) (base : Option Ref) (items : List Item) : List Node → Prop
  | leaf {n : Node} {e : DataChild} {leaf : LeafId} {given : LeafValue} {values : List LeafValue}
    (child : reg.childOf? base n.key.name n.key.ns = some e) (named : leafId e.node = .ok leaf)
    (value : n.value? = some given) (item : .leaf leaf values ∈ items) (mem : given ∈ values) :
    Recovers reg base items [n]
  | object {n : Node} {e : DataChild} {o : Object} {way : List Node}
    (child : reg.childOf? base n.key.name n.key.ns = some e) (read : reg.readObject n e.node = .ok o)
    (item : .object o ∈ items) (rest : reg.Retrieves e.node o way) :
    Recovers reg base items (n :: way)

variable {reg : Registry} {r : Ref} {base : Option Ref} {o : Object} {n : Node}
  {nodes way : List Node} {t : ResourceData} {d : ObjectData} {e : DataChild}

/-! ### Objects -/

/-- What a data node brings to a field that holds data nodes is there, if it is not doubled. -/
theorem mem_of_not_doubled {β : Type} {f : Field} {R : Node → β → Prop} {values : List β}
    (hd : ¬ reg.Doubled r nodes n) (hn : n ∈ nodes) (he : reg.childFor? r n = some e)
    (hs : f.type.suits e.node.kind = true)
    (h : List.Forall₂ R (nodes.filter fun m => reg.childFor? r m = some e) values) :
    ∃ v ∈ f.type.keeps values, R n v := by
  refine (FieldType.forall₂_keeps h).exists_right (FieldType.mem_keeps ?_ fun hsingle m hm => ?_)
  · exact List.mem_filter.2 ⟨hn, by simpa using he⟩
  · obtain ⟨hm, hme⟩ := List.mem_filter.1 hm
    by_contra hne
    exact hd ⟨m, hm, hne, e, he, by simpa using hme, FieldType.ne_of_isSingle hs hsingle⟩

/-- What the children of an anydata node have been read as is attached to its object. -/
theorem exists_payload (hk : r.kind = .anydata) (ho : reg.readObject n r = .ok o) {c : Node}
    (hc : c ∈ n.children) :
    ∃ e x, reg.childFor? r c = some e ∧ reg.readObject c e.node = .ok x ∧ x ∈ o.anydata := by
  obtain ⟨type, -, -, ⟨-, hp⟩ | ⟨hne, -⟩⟩ := readObject_eq_ok ho
  · rw [Class.new_eq_make] at hp
    obtain ⟨payloads, rfl, hpayloads⟩ := readPayloads_make hp
    obtain ⟨x, hx, e, he, hread⟩ := hpayloads.exists_right hc
    exact ⟨e, x, childFor?_eq_some_iff.2 he, hread, by simpa using hx⟩
  · exact absurd hk hne

/-- A child of a data node is held where its layers lead, if it is not in another case than one of its
siblings. -/
theorem Reachable.holds_of_readObject (h : reg.Reachable) (hn : reg.NamesApart)
    (hr : r.model ∈ reg.models) (hk : r.kind ≠ .anydata) (ho : reg.readObject n r = .ok o) {c : Node}
    (hc : c ∈ n.children) (hd : ¬ reg.Divided r n.children c) :
    ∃ e x, reg.childFor? r c = some e ∧ o.within? e.layers = some x ∧
      reg.Holds x e.node (n.children.filter fun m => reg.childFor? r m = some e) := by
  obtain ⟨type, -, -, ⟨hany, -⟩ | ⟨-, pending, hpending, hf⟩⟩ := readObject_eq_ok ho
  · exact absurd hany hk
  have hall := readChildren_eq_ok_iff.1 hpending
  obtain ⟨p, hp, he, rfl, -⟩ := hall.exists_right hc
  have hsole : ∀ q ∈ pending, ¬ p.child.Rivals q.child := by
    intro q hq hrivals
    obtain ⟨c', hc', he', -⟩ := hall.exists_left hq
    exact hd ⟨c', hc', p.child, q.child, he, he', hrivals⟩
  obtain ⟨x, hx, hholds⟩ := h.holds_of_fill hn hr (offered_of_readChildren hk hpending)
    (object_of_readChildren hpending) hf hp hsole
  rw [map_data_of_readChildren hpending] at hholds
  exact ⟨p.child, x, he, hx, hholds⟩

/-- An object of a data node leads to every value below that, unless on the way a data node lies in
another case than one of its siblings or stands for the same as one of them. -/
theorem Reachable.retrieves_of_readObject (h : reg.Reachable) (hn : reg.NamesApart)
    (hr : r.model ∈ reg.models) (ho : reg.readObject n r = .ok o) (hway : LeadsDown n.children way) :
    reg.Retrieves r o way ∨
      reg.OnWay reg.Rivaled r n.children way := by
  -- By induction on the way down.
  generalize hnodes : n.children = nodes at hway
  induction hway generalizing n r o with
  | @value nodes c mem value =>
    subst hnodes
    obtain ⟨given, hgiven⟩ := Option.isSome_iff_exists.1 value
    have hleaf {x : Object} {s : Ref} : reg.readObject c s ≠ .ok x := by
      intro hread
      obtain ⟨-, -, hinner, -⟩ := readObject_eq_ok hread
      cases c <;> simp [Node.isInner, Node.value?] at hinner hgiven
    by_cases hk : r.kind = .anydata
    · obtain ⟨e, x, -, hread, -⟩ := exists_payload hk ho mem
      exact absurd hread hleaf
    by_cases hd : reg.Rivaled r n.children c
    · exact .inr (.here hk hd)
    obtain ⟨hdivided, hdoubled⟩ := not_or.1 hd
    obtain ⟨e, x, he, hx, hholds⟩ := h.holds_of_readObject hn hr hk ho mem hdivided
    cases hholds with
    | values field scalar stored get =>
      obtain ⟨v, hv, haccepted⟩ := mem_of_not_doubled hdoubled mem he
        (fieldFor_eq_ok_iff.1 field).2 stored
      rw [hgiven, Option.bind_some] at haccepted
      exact .inl (.value he hx field get scalar hgiven haccepted hv)
    | objects field holds read get =>
      obtain ⟨x, -, hread⟩ := mem_of_not_doubled hdoubled mem he (fieldFor_eq_ok_iff.1 field).2 read
      exact absurd hread hleaf
  | @under nodes way c mem inside ih =>
    subst hnodes
    have hinner : c.value? = none := by
      cases c with
      | inner => rfl
      | leaf => cases inside <;> contradiction
    have hmodel {e : DataChild} (he : reg.childFor? r c = some e) : e.node.model ∈ reg.models :=
      h.model_mem_of_childOf? (by rintro _ ⟨⟩; exact hr) he
    by_cases hk : r.kind = .anydata
    · obtain ⟨e, x, he, hread, hx⟩ := exists_payload hk ho mem
      exact (ih (hmodel he) hread rfl).imp (.payload hk he hx hread) (.further he)
    by_cases hd : reg.Rivaled r n.children c
    · exact .inr (.here hk hd)
    obtain ⟨hdivided, hdoubled⟩ := not_or.1 hd
    obtain ⟨e, x, he, hx, hholds⟩ := h.holds_of_readObject hn hr hk ho mem hdivided
    cases hholds with
    | values field scalar stored get =>
      obtain ⟨v, -, haccepted⟩ := mem_of_not_doubled hdoubled mem he
        (fieldFor_eq_ok_iff.1 field).2 stored
      simp [hinner] at haccepted
    | objects field holds read get =>
      obtain ⟨y, hy, hread⟩ := mem_of_not_doubled hdoubled mem he (fieldFor_eq_ok_iff.1 field).2 read
      exact (ih (hmodel he) hread rfl).imp (.member he hx field get hy hread) (.further he)

/-! ### Items -/

section Items

variable {items items' : List Item} {leaf li : LeafId} {v : LeafValue} {values : List LeafValue}
  {s : Ref}

/-- A value becomes an item of its own or joins those of the last item, which is of the same leaf. -/
theorem addLeafItem_cases (s : Ref) (li : LeafId) (v : LeafValue) (items : List Item) :
    addLeafItem s li v items = items ++ [.leaf li [v]] ∨
      ∃ before values, items = before ++ [.leaf li values] ∧
        addLeafItem s li v items = before ++ [.leaf li (values ++ [v])] := by
  unfold addLeafItem
  split
  · next last values hlast =>
    split
    · next hmerge =>
      obtain ⟨before, rfl⟩ := List.getLast?_eq_some_iff.1 hlast
      exact .inr ⟨before, values, by rw [hmerge.2], by simp [hmerge.2]⟩
    · exact .inl rfl
  · exact .inl rfl

theorem exists_leaf_addLeafItem (s : Ref) (li : LeafId) (v : LeafValue) (items : List Item) :
    ∃ values, .leaf li values ∈ addLeafItem s li v items ∧ v ∈ values := by
  obtain heq | ⟨before, values, -, heq⟩ := addLeafItem_cases s li v items
  · exact ⟨[v], by simp [heq], List.mem_singleton_self v⟩
  · exact ⟨values ++ [v], by simp [heq], by simp⟩

/-- Whatever can be recovered from items can still be when another value has joined them. -/
theorem Recovers.addLeafItem (h : reg.Recovers base items way) :
    reg.Recovers base (addLeafItem s li v items) way := by
  obtain heq | ⟨before, joined, rfl, heq⟩ := addLeafItem_cases s li v items
  · rw [heq]
    cases h with
    | leaf child named value item mem =>
      exact .leaf child named value (List.mem_append_left _ item) mem
    | object child read item rest => exact .object child read (List.mem_append_left _ item) rest
  · rw [heq]
    cases h with
    | leaf child named value item mem =>
      rcases List.mem_append.1 item with item | item
      · exact .leaf child named value (List.mem_append_left _ item) mem
      · cases List.mem_singleton.1 item
        exact .leaf child named value (List.mem_append_right _ (List.mem_singleton_self _))
          (List.mem_append_left _ mem)
    | object child read item rest =>
      rcases List.mem_append.1 item with item | item
      · exact .object child read (List.mem_append_left _ item) rest
      · cases List.mem_singleton.1 item

/-- A data node below a base becomes an item of its own or part of one. -/
theorem readItem_eq_ok (hi : reg.readItem base items n = .ok items') :
    ∃ e, reg.childOf? base n.key.name n.key.ns = some e ∧
      ((∃ given li, n.value? = some given ∧ leafId e.node = .ok li ∧
          items' = addLeafItem e.node li given items) ∨
        ∃ o, reg.readObject n e.node = .ok o ∧ items' = items ++ [.object o]) := by
  obtain ⟨e, he, hi⟩ := Except.bind_eq_ok_iff.1 hi
  refine ⟨e, found_eq_ok_iff.1 he, ?_⟩
  split at hi
  · obtain ⟨given, hgiven, hi⟩ := Except.bind_eq_ok_iff.1 hi
    obtain ⟨li, hli, hi⟩ := Except.bind_eq_ok_iff.1 hi
    cases hi
    exact .inl ⟨given, li, leafValue_eq_ok_iff.1 hgiven, hli, rfl⟩
  · obtain ⟨o, ho, hi⟩ := Except.bind_eq_ok_iff.1 hi
    cases hi
    exact .inr ⟨o, ho, rfl⟩

/-- Reading another item leaves what can be recovered. -/
theorem Recovers.readItem (h : reg.Recovers base items way)
    (hi : reg.readItem base items n = .ok items') : reg.Recovers base items' way := by
  obtain ⟨e, -, ⟨given, li, -, -, rfl⟩ | ⟨o, -, rfl⟩⟩ := readItem_eq_ok hi
  · exact h.addLeafItem
  · cases h with
    | leaf child named value item mem =>
      exact .leaf child named value (List.mem_append_left _ item) mem
    | object child read item rest => exact .object child read (List.mem_append_left _ item) rest

/-- The item of a data node leads to the values below that, unless some data node on the way has
rivals. -/
theorem Reachable.recovers_of_readItem (h : reg.Reachable) (hn : reg.NamesApart)
    (hbase : ∀ b, base = some b → b.model ∈ reg.models)
    (hi : reg.readItem base items n = .ok items') (hway : LeadsDown [n] way) :
    reg.Recovers base items' way ∨ reg.OnWayFrom reg.Rivaled base way := by
  -- A leaf gives a value of an item, anything else an object in which the way goes on.
  obtain ⟨e, he, ⟨given, li, hgiven, hli, rfl⟩ | ⟨o, ho, rfl⟩⟩ := readItem_eq_ok hi
  · cases hway with
    | value mem value =>
      obtain rfl := List.mem_singleton.1 mem
      obtain ⟨values, hitem, hmem⟩ := exists_leaf_addLeafItem e.node li given items
      exact .inl (.leaf he hli hgiven hitem hmem)
    | @under _ _ m mem inside =>
      obtain rfl := List.mem_singleton.1 mem
      cases m with
      | inner => cases hgiven
      | leaf => cases inside <;> contradiction
  · have hitem : Item.object o ∈ items ++ [.object o] := by simp
    cases hway with
    | @value _ m mem value =>
      obtain rfl := List.mem_singleton.1 mem
      obtain ⟨-, -, hinner, -⟩ := readObject_eq_ok ho
      cases m <;> simp [Node.isInner, Node.value?] at hinner value
    | under mem inside =>
      obtain rfl := List.mem_singleton.1 mem
      exact (h.retrieves_of_readObject hn (h.model_mem_of_childOf? hbase he) ho inside).imp
        (.object he ho hitem) fun hrivaled => ⟨e, he, hrivaled⟩

/-- Every value of data that has been read can be recovered from the objects, unless on the way to it
some data node lies in another case of a choice than one of its siblings, or stands for the same as a
sibling although that occurs once. -/
theorem Reachable.recovers_of_read (h : reg.Reachable) (hn : reg.NamesApart)
    (hread : reg.read t = .ok d) : ∃ base, reg.resolve (rootId t) = .ok base ∧
      ∀ way, LeadsDown t.nodes way →
        reg.Recovers base d.items way ∨ reg.OnWayFrom reg.Rivaled base way := by
  obtain ⟨base, hbase, hread⟩ := Except.bind_eq_ok_iff.1 hread
  obtain ⟨id, -, hread⟩ := Except.bind_eq_ok_iff.1 hread
  obtain ⟨items, hitems, hread⟩ := Except.bind_eq_ok_iff.1 hread
  cases hread
  refine ⟨base, hbase, fun way hway => ?_⟩
  -- The item of the first data node on the way leads to the value, and later items leave it there.
  obtain ⟨n, hmem, hfirst⟩ : ∃ n ∈ t.nodes, LeadsDown [n] way := by
    cases hway with
    | value mem value => exact ⟨_, mem, .value (List.mem_singleton_self _) value⟩
    | under mem inside => exact ⟨_, mem, .under (List.mem_singleton_self _) inside⟩
  exact List.foldlM_reaches (I := fun _ => True)
    (P := fun items => reg.Recovers base items way ∨ reg.OnWayFrom reg.Rivaled base way)
    (fun _ _ _ _ _ _ => trivial) trivial hmem
    (fun _ _ _ hi => h.recovers_of_readItem hn (h.model_mem_of_resolve hbase) hi hfirst)
    (fun _ _ _ _ _ hrecovers hi => hrecovers.imp_left fun hrec => hrec.readItem hi) hitems

end Items

/-! ### Snacks that are served

The beer of the hearty snack is where it belongs. With chocolate beside the pretzel there is nothing
left of the hearty snack. -/

namespace Snacks

def beer : Node := leaf "beer" .empty

def pretzel : Node := leaf "pretzel" .empty

theorem node_eq_plateRef (h : registry.childOf? none "plate" (some "urn:bar") = some e) :
    e.node = plateRef := by
  have hplate : (registry.childOf? none "plate" (some "urn:bar")).map DataChild.node =
      some plateRef := by
    decide +kernel
  rw [h] at hplate
  exact Option.some.inj hplate

theorem read_served : registry.read { id := .root, nodes := [plate served] } =
    .ok { items := [.object servedPlate] } := by
  with_unfolding_all rfl

theorem not_rivaled_beer : ¬ registry.Rivaled plateRef served beer := by
  rintro (⟨n', hn', e, e', he, he', hrivals⟩ | ⟨n', hn', hne, e, he, he', -⟩)
  · exact oneCase_served beer (by decide +kernel) n' hn' e e' he he' hrivals
  · have hother : ∀ n ∈ served, n ≠ beer →
        registry.childFor? plateRef n ≠ registry.childFor? plateRef beer := by
      decide +kernel
    exact hother n' hn' hne (he'.trans he.symm)

end Snacks

/-- The beer can be recovered from the plate. -/
theorem recovers_of_read_served : ∃ d,
    Snacks.registry.read { id := .root, nodes := [Snacks.plate Snacks.served] } = .ok d ∧
    Snacks.registry.Recovers none d.items [Snacks.plate Snacks.served, Snacks.beer] := by
  refine ⟨_, Snacks.read_served, ?_⟩
  obtain ⟨base, hbase, hall⟩ :=
    Snacks.reachable.recovers_of_read Snacks.namesApart Snacks.read_served
  obtain rfl : none = base := Except.ok.inj hbase
  have hway : Tree.LeadsDown [Snacks.plate Snacks.served]
      [Snacks.plate Snacks.served, Snacks.beer] :=
    .under (List.mem_singleton_self _) (.value (by decide +kernel) rfl)
  refine (hall _ hway).resolve_right ?_
  rintro ⟨e, he, honway⟩
  rw [Snacks.node_eq_plateRef he] at honway
  cases honway with
  | here kind rivaled => exact Snacks.not_rivaled_beer rivaled
  | further child rest => cases rest

namespace Snacks

def mixing : List Tree.Assembly.Command :=
  [.add "plate" none none, .add "pretzel" none none, .exit,
    .add "chocolate" none (some (.string "dark")), .exit, .exit]

/-- A pretzel and chocolate. -/
def mixed : List Node := [pretzel, leaf "chocolate" (.string "dark")]

theorem assemble_mixing : registry.assemble .root mixing = .ok [plate mixed] :=
  Except.toOption_eq_some_iff.1 (by decide +kernel)

/-- The plate of both snacks as it is read. -/
def sweetPlate : Object :=
  .mk plateClass [("note", [])]
    [("snack", [.mk sweetClass [("chocolate", [.string "dark"])] [] [] []])] [] []

theorem read_mixed : registry.read { id := .root, nodes := [plate mixed] } =
    .ok { items := [.object sweetPlate] } := by
  with_unfolding_all rfl

end Snacks

/-- The pretzel cannot be recovered from the plate, although that has been assembled and read. -/
theorem pretzel_lost : Snacks.registry.Reachable ∧ Snacks.registry.NamesApart ∧
    Snacks.registry.assemble .root Snacks.mixing = .ok [Snacks.plate Snacks.mixed] ∧
    Snacks.registry.read { id := .root, nodes := [Snacks.plate Snacks.mixed] } =
      .ok { items := [.object Snacks.sweetPlate] } ∧
    Tree.LeadsDown [Snacks.plate Snacks.mixed] [Snacks.plate Snacks.mixed, Snacks.pretzel] ∧
    ¬ Snacks.registry.Recovers none [.object Snacks.sweetPlate]
      [Snacks.plate Snacks.mixed, Snacks.pretzel] := by
  refine ⟨Snacks.reachable, Snacks.namesApart, Snacks.assemble_mixing, Snacks.read_mixed,
    .under (List.mem_singleton_self _) (.value List.mem_cons_self rfl), fun hrecovers => ?_⟩
  cases hrecovers with
  | @object _ e o _ child read item rest =>
    obtain rfl : o = Snacks.sweetPlate := by simpa using item
    rw [Snacks.node_eq_plateRef child] at rest
    cases rest with
    | @value _ _ x _ e' _ _ _ _ _ child' within =>
      -- The case of the pretzel is not the one that the choice holds.
      have hnone : (Snacks.registry.childFor? Snacks.plateRef Snacks.pretzel).bind
          (fun e => Snacks.sweetPlate.within? e.layers) = none := by
        with_unfolding_all rfl
      rw [child', Option.bind_some, within] at hnone
      cases hnone
    | member _ _ _ _ _ _ rest => cases rest
    | payload kind => exact absurd kind (by decide)

/-! ### Assembled data -/

section Assembled

variable {L : Frame → Prop} {parent : Option Ref} {frame : Frame}

/-- A data node that has grown stands for the schema node of its frame. -/
theorem exists_childOf?_of_settled (hf : frame.Settled reg.Offers L parent)
    (hn : frame.node = .ok n) :
    ∃ e, reg.childOf? parent n.key.name n.key.ns = some e ∧ e.node = frame.schema := by
  obtain ⟨-, e, he, hes⟩ := hf.here
  refine ⟨e, ?_, hes⟩
  rw [Tree.NodeKey.name, Tree.NodeKey.ns, Frame.key_id_of_node hn]
  exact he

/-- What is below a data node that has grown has grown below the node for which it stands. -/
theorem grown_children (hg : n.Grown (Frame.Settled reg.Offers L) parent)
    (he : reg.childOf? parent n.key.name n.key.ns = some e) :
    (∀ c ∈ n.children, c.Grown (Frame.Settled reg.Offers L) (some e.node)) ∧
      (n.children.map Node.key).Nodup := by
  obtain ⟨hf, hmade, hbelow⟩ := hg
  obtain ⟨e', he', hs⟩ := exists_childOf?_of_settled hf hmade
  obtain rfl : e' = e := Option.some.inj (he'.symm.trans he)
  obtain ⟨hwell, hsub, -⟩ := Frame.wellFormed_of_node hmade hf.nodup
  exact ⟨fun c hc => hs ▸ hbelow c (hsub hc), hwell.nodup⟩

/-- The key of a data node that has grown has nothing but the identifier of the node for which it
stands, if that occurs once. -/
theorem key_of_grown (hg : n.Grown (Frame.Settled reg.Offers L) parent)
    (he : reg.childOf? parent n.key.name n.key.ns = some e) (hlist : e.node.kind ≠ .list)
    (hleafList : e.node.kind ≠ .leafList) : n.key = { id := e.node.id } := by
  obtain ⟨hf, hmade, -⟩ := hg
  obtain ⟨e', he', hs⟩ := exists_childOf?_of_settled hf hmade
  obtain rfl : e' = e := Option.some.inj (he'.symm.trans he)
  obtain ⟨hwell, -, hfits⟩ := Frame.wellFormed_of_node hmade hf.nodup
  rw [← hs] at hfits
  have hid : n.key.id = e'.node.id := by rw [hwell.id, hs]
  have hselector : n.key.selector = .single := by
    cases hk : e'.node.kind <;> cases hsel : n.key.selector <;> simp_all [fitsSelector]
  cases hkey : n.key
  simp_all

/-- Of data nodes that have grown below a schema node no two stand for the same if that occurs
once. -/
theorem not_doubled_of_grown (hg : ∀ c ∈ nodes, c.Grown (Frame.Settled reg.Offers L) (some r))
    (hnodup : (nodes.map Node.key).Nodup) (hn : n ∈ nodes) : ¬ reg.Doubled r nodes n := by
  rintro ⟨n', hn', hne, e, he, he', hlist, hleafList⟩
  have hkey : n'.key = n.key :=
    (key_of_grown (hg n' hn') he' hlist hleafList).trans
      (key_of_grown (hg n hn) he hlist hleafList).symm
  exact hne (List.eq_of_nodup_map hnodup hn' hn hkey)

/-- In data that has grown where it is read, rivals are always in different cases. -/
theorem OnWay.divided_of_grown (h : reg.OnWay reg.Rivaled r nodes way)
    (hg : ∀ c ∈ nodes, c.Grown (Frame.Settled reg.Offers L) (some r))
    (hnodup : (nodes.map Node.key).Nodup) (hway : LeadsDown nodes way) :
    reg.OnWay reg.Divided r nodes way := by
  induction h with
  | @here r nodes way n kind hrivaled =>
    have hn : n ∈ nodes := by cases hway <;> assumption
    exact .here kind (hrivaled.resolve_right (not_doubled_of_grown hg hnodup hn))
  | @further r nodes way n e child rest ih =>
    cases hway with
    | value => cases rest
    | under mem inside =>
      obtain ⟨hbelow, hdistinct⟩ := grown_children (hg n mem) child
      exact .further child (ih hbelow hdistinct inside)

/-- Every value of data that has been assembled where it is read can be recovered from the objects,
unless on the way to it some data node lies in another case of a choice than one of its siblings. -/
theorem Reachable.recovers_of_assembled (h : reg.Reachable) (hu : reg.Unambiguous)
    (hn : reg.NamesApart) {commands : List Tree.Assembly.Command}
    (hnodes : reg.assemble (rootId t) commands = .ok t.nodes) (hread : reg.read t = .ok d) :
    ∃ base, reg.resolve (rootId t) = .ok base ∧ ∀ way, LeadsDown t.nodes way →
      reg.Recovers base d.items way ∨ reg.OnWayFrom reg.Divided base way := by
  obtain ⟨base, hbase, hall⟩ := h.recovers_of_read hn hread
  obtain ⟨a, -, hresolve, -, hgrown⟩ := h.grown_of_assemble hu hnodes
  obtain rfl : a.base = base := Except.ok.inj (hresolve.symm.trans hbase)
  refine ⟨a.base, hbase, fun way hway => (hall way hway).imp_right fun hrivaled => ?_⟩
  cases way with
  | nil => exact hrivaled
  | cons n way =>
    obtain ⟨e, he, honway⟩ := hrivaled
    cases hway with
    | value => cases honway
    | under mem inside =>
      obtain ⟨hbelow, hdistinct⟩ := grown_children (hgrown n mem) he
      exact ⟨e, he, honway.divided_of_grown hbelow hdistinct inside⟩

end Assembled

end Registry

end YangBinding
