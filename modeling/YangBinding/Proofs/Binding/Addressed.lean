import YangBinding.Proofs.Binding.Assembled

/-!
# Addresses of assembled data

What has been assembled can be addressed: the address at which the assembly began, and the keys on the
way down to a data node, lead to the schema node of the frame that has become the data node. Each data
node has the form that its schema node asks for.

## Main definitions

* `Tree.Occurs` — a data node stands at the end of a path of keys
* `Tree.Node.WellFormed` — a data node has the form that a schema node asks for

## Main results

* `Registry.frame_of_occurs` — the keys on the way to a node that has grown lead to its frame
* `Registry.Reachable.addressed_of_assemble` — what has been assembled is addressed and well-formed
-/

namespace YangBinding

open Schema (Kind Ref)
open YangBinding.Tree (Assembly Frame Node NodeKey ResourceId)

namespace Tree

variable {frame : Frame} {n : Node}

/-- A data node is one of some data nodes or below one of them. The path has the keys on the way, its
own at the end. -/
inductive Occurs : List Node → List NodeKey → Node → Prop
  | top {nodes : List Node} {n : Node} (mem : n ∈ nodes) : Occurs nodes [n.key] n
  | under {nodes : List Node} {path : List NodeKey} {m n : Node} (mem : m ∈ nodes)
      (inside : Occurs m.children path n) : Occurs nodes (m.key :: path) n

/-- The outward form of the data nodes of a kind. -/
def Shape.ofKind : Kind → Shape
  | .leaf => .singleLeaf
  | .leafList => .multiLeaf
  | .list => .multiNode
  | _ => .singleNode

/-- A data node has the form that a schema node asks for: it has the identifier of the schema node,
ends a path if the schema node does, and has distinct keys below it. The key of a list entry has a
leaf for each declared key, in their order, with the name of the key and the value of a leaf of the
entry. -/
structure Node.WellFormed (n : Node) (r : Ref) : Prop where
  id : n.key.id = r.id
  shape : n.shape = .ofKind r.kind
  inner : n.isInner = !r.kind.isLeafLike
  nodup : (n.children.map Node.key).Nodup
  entry : r.kind = .list → ∃ leaves, n.key.selector = .list leaves ∧
    List.Forall₂ (fun (key : String) (leaf : KeyLeaf) => leaf.id.name = key ∧
      ∃ c ∈ n.children, c.shape = .singleLeaf ∧ c.key.id = leaf.id ∧ c.value? = some leaf.value)
      r.keys leaves

/-! ### Frames that are left -/

/-- The key leaf of a list entry comes from a leaf of the entry that has its name. -/
theorem requireKeyLeaf_eq_ok {r : Ref} {children : List Node} {key : String} {leaf : KeyLeaf}
    (h : requireKeyLeaf r children key = .ok leaf) : leaf.id.name = key ∧
      ∃ c ∈ children, c.shape = .singleLeaf ∧ c.key.id = leaf.id ∧ c.value? = some leaf.value := by
  obtain ⟨c, hc, hleaf⟩ := Option.bind_eq_some_iff.1 (Registry.requireKeyLeaf_eq_ok_iff.1 h)
  obtain ⟨value, hvalue, rfl⟩ := Option.map_eq_some_iff.1 hleaf
  have htest : c.shape = .singleLeaf ∧ c.key.name = key := by
    simpa using List.find?_some
      (p := fun c : Node => c.shape == .singleLeaf && c.key.name == key) hc
  exact ⟨htest.2, c, List.mem_of_find?_eq_some hc, htest.1, rfl, hvalue⟩

/-- The data node of a frame has the form that the schema node of the frame asks for, has no other
children than the frame, and may be addressed by its key. -/
theorem Frame.wellFormed_of_node (h : frame.node = .ok n)
    (hn : (frame.children.map Node.key).Nodup) : n.WellFormed frame.schema ∧
      n.children ⊆ frame.children ∧
      Registry.fitsSelector frame.schema.kind n.key.selector = true := by
  have hid := Frame.key_id_of_node h
  unfold Frame.node at h
  -- A leaf and an entry of a leaf-list have a value, a list has its keys, all else neither.
  split at h
  · next hk =>
    cases h
    refine ⟨⟨hid, by rw [hk]; rfl, by rw [hk]; rfl, List.nodup_nil, ?_⟩, List.nil_subset _, ?_⟩
    · simp [hk]
    · rw [hk]
      rfl
  · next hk =>
    cases h
    refine ⟨⟨hid, by rw [hk]; rfl, by rw [hk]; rfl, List.nodup_nil, ?_⟩, List.nil_subset _, ?_⟩
    · simp [hk]
    · rw [hk]
      rfl
  · next hk =>
    obtain ⟨leaves, hleaves, h⟩ := Except.bind_eq_ok_iff.1 h
    cases h
    refine ⟨⟨hid, by rw [hk]; rfl, by rw [hk]; rfl, hn, fun _ => ⟨leaves, rfl, ?_⟩⟩,
      List.Subset.refl _, ?_⟩
    · exact (List.mapM_eq_ok_iff.1 hleaves).imp fun _ _ => requireKeyLeaf_eq_ok
    · rw [hk]
      rfl
  · next hleaf hentry hlist =>
    cases h
    refine ⟨⟨hid, ?_, ?_, hn, fun hk => absurd hk hlist⟩, List.Subset.refl _, ?_⟩
    · cases hk : frame.schema.kind <;> first | rfl | contradiction
    · cases hk : frame.schema.kind <;> first | rfl | contradiction
    · cases hk : frame.schema.kind <;> first | rfl | contradiction

end Tree

namespace Registry

open YangBinding.Tree (Occurs)

variable {reg : Registry} {id id' : ResourceId} {L : Frame → Prop} {parent base last : Option Ref}
  {nodes : List Node} {path : List NodeKey} {n : Node}

/-! ### Paths of keys -/

/-- Where keys lead does not depend on what an error would say of them. -/
theorem foldlM_resolveKey_congr
    (hp : path.foldlM (fun parent key => some <$> reg.resolveKey id parent key) parent = .ok last) :
    path.foldlM (fun parent key => some <$> reg.resolveKey id' parent key) parent = .ok last := by
  induction path generalizing parent with
  | nil => exact hp
  | cons key path ih =>
    rw [List.foldlM_cons] at hp ⊢
    obtain ⟨next, hnext, hp⟩ := Except.bind_eq_ok_iff.1 hp
    obtain ⟨s, hs, rfl⟩ := Except.map_eq_ok_iff.1 hnext
    have hs : reg.resolveKey id' parent key = .ok s :=
      resolveKey_eq_ok_iff.2 (resolveKey_eq_ok_iff.1 hs)
    exact Except.bind_eq_ok_iff.2 ⟨some s, Except.map_eq_ok_iff.2 ⟨s, hs, rfl⟩, ih hp⟩

/-- A longer address leads on from where the shorter one leads. -/
theorem resolve_append (hb : reg.resolve id = .ok base)
    (hp : path.foldlM (fun parent key => some <$> reg.resolveKey id parent key) base = .ok last) :
    reg.resolve ⟨id.segments ++ path⟩ = .ok last := by
  rw [resolve, List.foldlM_append]
  exact Except.bind_eq_ok_iff.2 ⟨base, foldlM_resolveKey_congr hb, foldlM_resolveKey_congr hp⟩

/-- The key of a node that has grown leads to the schema node of its frame. -/
theorem resolveKey_of_node {frame : Frame} (hf : frame.Settled reg.Offers L parent)
    (hn : frame.node = .ok n) : reg.resolveKey id parent n.key = .ok frame.schema := by
  obtain ⟨-, e, he, hes⟩ := hf.here
  refine resolveKey_eq_ok_iff.2 ⟨e, ?_, (Frame.wellFormed_of_node hn hf.nodup).2.2, hes⟩
  rw [NodeKey.name, NodeKey.ns, Frame.key_id_of_node hn]
  exact he

/-- The keys on the way to a node that has grown lead to the schema node of its frame. -/
theorem frame_of_occurs (id : ResourceId)
    (hg : ∀ n ∈ nodes, n.Grown (Frame.Settled reg.Offers L) parent)
    (ho : Occurs nodes path n) :
    ∃ frame : Frame, L frame ∧ frame.node = .ok n ∧
      path.foldlM (fun parent key => some <$> reg.resolveKey id parent key) parent =
        .ok (some frame.schema) ∧ n.WellFormed frame.schema := by
  induction ho generalizing parent with
  | top mem =>
    obtain ⟨hf, hn, -⟩ := hg _ mem
    refine ⟨_, hf.left, hn, ?_, (Frame.wellFormed_of_node hn hf.nodup).1⟩
    rw [List.foldlM_cons, resolveKey_of_node hf hn]
    rfl
  | under mem _ ih =>
    -- The children of the data node are among those of its frame, which have grown below it.
    obtain ⟨hf, hm, hbelow⟩ := hg _ mem
    obtain ⟨frame, hleft, hn, hpath, hwell⟩ :=
      ih fun c hc => hbelow c ((Frame.wellFormed_of_node hm hf.nodup).2.1 hc)
    refine ⟨frame, hleft, hn, ?_, hwell⟩
    rw [List.foldlM_cons, resolveKey_of_node hf hm]
    exact hpath

/-- Every node of what has been assembled, at every depth, is what a frame became that was left in the
run; the address of the assembly and the keys on the way to the node lead to the schema node of that
frame, whose form the node has. -/
theorem Reachable.addressed_of_assemble (h : reg.Reachable) (hu : reg.Unambiguous)
    {commands : List Assembly.Command} (hnodes : reg.assemble id commands = .ok nodes)
    (ho : Occurs nodes path n) :
    ∃ a before after frame outer, Assembly.at? reg id = .ok a ∧
      commands = before ++ .exit :: after ∧ (a.run reg before).stack = frame :: outer ∧
      frame.node = .ok n ∧ reg.resolve ⟨id.segments ++ path⟩ = .ok (some frame.schema) ∧
      n.WellFormed frame.schema := by
  obtain ⟨a, hat, hresolve, -, hgrown⟩ := h.grown_of_assemble hu hnodes
  obtain ⟨frame, ⟨before, after, outer, hc, hstack⟩, hn, hpath, hwell⟩ :=
    frame_of_occurs id hgrown ho
  exact ⟨a, before, after, frame, outer, hat, hc, hstack, hn, resolve_append hresolve hpath, hwell⟩

/-! ### Restocking a shop -/

namespace Shop

/-- An item without a name is given up, a tag below a name is refused, and then a pen is there. -/
def restocking : List Assembly.Command :=
  [.add "store" none none, .add "item" none none, .exit, .add "item" none none,
    .add "name" none (some (.string "pen")), .add "tag" none (some (.string "blue")), .exit, .exit,
    .exit]

def penNameNode : Node := .leaf { id := nameRef.id } .singleLeaf (.string "pen")

def penItemNode : Node :=
  .inner { id := itemRef.id, selector := .list [{ id := nameRef.id, value := .string "pen" }] }
    .multiNode [penNameNode]

theorem assemble_restocking : registry.assemble .root restocking =
    .ok [.inner { id := storeRef.id } .singleNode [penItemNode]] :=
  Except.toOption_eq_some_iff.1 (by decide +kernel)

theorem unambiguous : registry.Unambiguous := sole.unambiguous (by decide +kernel)

end Shop

/-- The name of the pen is addressed through its item. -/
theorem addressed_of_assemble_pen :
    Occurs [.inner { id := Shop.storeRef.id } .singleNode [Shop.penItemNode]]
      [{ id := Shop.storeRef.id }, Shop.penItemNode.key, { id := Shop.nameRef.id }]
      Shop.penNameNode ∧
    ∃ r, Shop.registry.resolve
        ⟨[{ id := Shop.storeRef.id }, Shop.penItemNode.key, { id := Shop.nameRef.id }]⟩ =
          .ok (some r) ∧ Shop.penNameNode.WellFormed r := by
  have hoccurs : Occurs [.inner { id := Shop.storeRef.id } .singleNode [Shop.penItemNode]]
      [{ id := Shop.storeRef.id }, Shop.penItemNode.key, { id := Shop.nameRef.id }]
      Shop.penNameNode :=
    .under (List.mem_singleton_self _) (.under (List.mem_singleton_self _)
      (.top (List.mem_singleton_self _)))
  obtain ⟨-, -, -, frame, -, -, -, -, -, hresolve, hwell⟩ :=
    Shop.sole.reachable.addressed_of_assemble Shop.unambiguous Shop.assemble_restocking hoccurs
  exact ⟨hoccurs, frame.schema, hresolve, hwell⟩

end Registry

end YangBinding
