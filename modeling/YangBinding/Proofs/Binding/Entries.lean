import YangBinding.Proofs.Binding.Positioned

/-!
# Keys of list entries

The key of a list entry is put together when the entry is left: for every key of the list the first leaf
of that name among the children gives its identifier and value. As long as that is a leaf that the list
declares itself, the key consists of the list's own key leaves, and an entry without one of them is given
up. An augment may add leaves of the same names, though, and one of these is taken for a key leaf if it
comes first, or stands alone.

## Main definitions

* `Schema.Ref.OwnsKey` — the identifier of a leaf that a list declares under the name of a key
* `Tree.Node.KeyedBy` — the key of a data node consists of the own key leaves of a list
* `Tree.Misled` — the first leaf of the name of a key is none of the list
* `Tree.Frame.Made` — everything in a frame has been a frame itself

## Main results

* `Tree.Assembly.exit_list` — what comes of an entry that is left
* `Registry.Reachable.entries_keyed` — entries are keyed by their own key leaves unless they are misled
* `Registry.misled_library` — a foreign leaf that is taken for the key leaf
-/

namespace YangBinding

open Schema (Kind Model Ref)
open YangBinding.Tree (Assembly Frame KeyLeaf Node NodeKey Occurs ResourceData ResourceId keyLeaf?
  requireKeyLeaf)

/-- A list declares a leaf with an identifier under the name of a key. -/
def Schema.Ref.OwnsKey (list : Ref) (key : String) (id : Schema.Id) : Prop :=
  ∃ d ∈ list.children, d.kind = .leaf ∧ d.name = key ∧ d.id = id

namespace Tree

/-- The key of a data node is that of an entry of a list: for every key, in the order of the list, it has
the identifier of the list's own leaf of that name and the value of the child with this identifier, which
is the only one. -/
structure Node.KeyedBy (n : Node) (list : Ref) : Prop where
  nodup : (n.children.map Node.key).Nodup
  key : ∃ leaves, n.key = { id := list.id, selector := .list leaves } ∧
    List.Forall₂ (fun (key : String) (leaf : KeyLeaf) => list.OwnsKey key leaf.id ∧
      ∃ c ∈ n.children, c.key = { id := leaf.id } ∧ c.value? = some leaf.value) list.keys leaves

/-- The first leaf that is named as a key is none that the list declares under this name. -/
def Misled (list : Ref) (children : List Node) (key : String) : Prop :=
  ∃ c, (children.find? fun c => c.shape == .singleLeaf && c.key.name == key) = some c ∧
    ¬ list.OwnsKey key c.key.id

/-- No leaf is one that the list declares under the name of a key. -/
def Lacks (list : Ref) (children : List Node) (key : String) : Prop :=
  ∀ c ∈ children, c.shape = .singleLeaf → ¬ list.OwnsKey key c.key.id

/-- Leaves have values, and keys that consist of their identifiers. -/
def LeavesFormed (children : List Node) : Prop :=
  ∀ c ∈ children, c.shape = .singleLeaf → ∃ id v, c = .leaf { id } .singleLeaf v

/-- What is complete in a frame has been a frame itself, and has distinct keys. -/
structure Frame.Made (frame : Frame) : Prop where
  made : ∀ c ∈ frame.children, ∃ f : Frame, f.node = .ok c
  nodup : (frame.children.map Node.key).Nodup

variable {list r : Ref} {children nodes : List Node} {key : String} {leaf : KeyLeaf} {n : Node}
  {frame : Frame} {a : Assembly} {path : List NodeKey}

/-! ### Key leaves -/

/-- The key leaf of a name is the first leaf of this name. -/
theorem LeavesFormed.keyLeaf?_eq_some_iff (h : LeavesFormed children) :
    keyLeaf? children key = some leaf ↔
      (children.find? fun c => c.shape == .singleLeaf && c.key.name == key) =
        some (.leaf { id := leaf.id } .singleLeaf leaf.value) := by
  constructor
  · intro hkey
    obtain ⟨c, hc, hleaf⟩ := Option.bind_eq_some_iff.1 hkey
    have hshape : c.shape = .singleLeaf := by
      have htest := List.find?_some hc
      simp only [Bool.and_eq_true, beq_iff_eq] at htest
      exact htest.1
    obtain ⟨id, v, rfl⟩ := h c (List.mem_of_find?_eq_some hc) hshape
    obtain ⟨_, ⟨⟩, rfl⟩ := Option.map_eq_some_iff.1 hleaf
    exact hc
  · intro hc
    exact Option.bind_eq_some_iff.2 ⟨_, hc, rfl⟩

/-- Without a key leaf of a name there is no leaf of this name, and so none of the list. -/
theorem LeavesFormed.lacks (h : LeavesFormed children) (hkey : keyLeaf? children key = none) :
    Lacks list children key := by
  intro c hc hshape hown
  obtain ⟨d, -, -, hname, hid⟩ := hown
  have hfound : (children.find? fun c => c.shape == .singleLeaf && c.key.name == key) ≠ none := by
    rw [Ne, List.find?_eq_none]
    intro hnone
    refine hnone c hc ?_
    rw [Bool.and_eq_true, beq_iff_eq, beq_iff_eq]
    refine ⟨hshape, ?_⟩
    rw [← hname, NodeKey.name, ← hid]
    rfl
  obtain ⟨c', hc'⟩ := Option.ne_none_iff_exists'.1 hfound
  have htest := List.find?_some hc'
  simp only [Bool.and_eq_true, beq_iff_eq] at htest
  obtain ⟨id, v, rfl⟩ := h c' (List.mem_of_find?_eq_some hc') htest.1
  have hsome : keyLeaf? children key = some { id, value := v } := h.keyLeaf?_eq_some_iff.2 hc'
  rw [hkey] at hsome
  cases hsome

/-- An entry that is not misled for any of its keys is keyed by its own key leaves. -/
theorem LeavesFormed.keyedBy (h : LeavesFormed children) (hn : (children.map Node.key).Nodup)
    (hk : list.kind = .list) (hkeys : ∀ key ∈ list.keys, (keyLeaf? children key).isSome = true)
    (hnot : ∀ key ∈ list.keys, ¬ Misled list children key) :
    (Registry.innerNode list children).KeyedBy list := by
  rw [Registry.innerNode, if_pos hk]
  refine ⟨hn, _, rfl, ?_⟩
  have hleaves := List.mapM_eq_ok_iff.1
    (Registry.mapM_requireKeyLeaf_eq_ok_iff (r := list).2 ⟨hkeys, rfl⟩)
  refine ((List.forall₂_and_left _ _).2 ⟨hnot, hleaves⟩).imp fun key leaf hboth => ?_
  obtain ⟨hnot, hleaf⟩ := hboth
  have hfirst := h.keyLeaf?_eq_some_iff.1 (Registry.requireKeyLeaf_eq_ok_iff.1 hleaf)
  refine ⟨?_, _, List.mem_of_find?_eq_some hfirst, rfl, rfl⟩
  exact Classical.byContradiction fun hown => hnot ⟨_, hfirst, hown⟩

/-! ### Entries that are left -/

theorem leavesFormed_of_made (h : ∀ c ∈ children, ∃ f : Frame, f.node = .ok c) :
    LeavesFormed children := by
  intro c hc hshape
  obtain ⟨f, hf⟩ := h c hc
  unfold Frame.node at hf
  -- Only the frames of leaves become nodes of this shape.
  split at hf
  · cases hf
    exact ⟨_, _, rfl⟩
  · cases hf
    cases hshape
  · obtain ⟨leaves, -, ⟨⟩⟩ := Except.bind_eq_ok_iff.1 hf
    cases hshape
  · cases hf
    cases hshape

/-- An entry that is not misled for any of its keys is completed with its own key leaves as the key, or
given up for want of one of them. -/
theorem Assembly.exit_list {outer : List Frame} (hstack : a.stack = frame :: outer)
    (hm : frame.Made) (hk : frame.schema.kind = .list)
    (hnot : ∀ key ∈ frame.schema.keys, ¬ Misled frame.schema frame.children key) :
    (∃ n, a.exit = .ok (a.pop.place n) ∧ n.children = frame.children ∧ n.KeyedBy frame.schema) ∨
      ∃ key ∈ frame.schema.keys, Lacks frame.schema frame.children key ∧
        a.exit = .error (.structural (.missingKeyLeaf frame.schema.name key)) := by
  have hformed := leavesFormed_of_made hm.made
  have hexit : a.exit = (do
      let n ← frame.node
      pure (a.pop.place n)) := by
    rw [Assembly.exit, hstack]
  cases hn : frame.node with
  | ok n =>
    obtain ⟨hkeys, rfl⟩ := (Registry.frame_node_eq_ok_iff (by simp [hk, Kind.isLeafLike])).1 hn
    refine .inl ⟨_, by rw [hexit, hn]; rfl, ?_, hformed.keyedBy hm.nodup hk (hkeys hk) hnot⟩
    rw [Registry.innerNode, if_pos hk]
    rfl
  | error e =>
    obtain ⟨-, key, hkey, hnone, rfl⟩ := Registry.frame_node_eq_error hn
    exact .inr ⟨key, hkey, hformed.lacks hnone, by rw [hexit, hn]; rfl⟩

/-- What a frame of a list has become is keyed by the list's own key leaves unless it is misled. -/
theorem Frame.Made.keyedBy_or_misled (hm : frame.Made) (hk : frame.schema.kind = .list)
    (hn : frame.node = .ok n) : n.KeyedBy frame.schema ∨
      ∃ key ∈ frame.schema.keys, Misled frame.schema n.children key := by
  obtain ⟨hkeys, rfl⟩ := (Registry.frame_node_eq_ok_iff (by simp [hk, Kind.isLeafLike])).1 hn
  by_cases hnot : ∀ key ∈ frame.schema.keys, ¬ Misled frame.schema frame.children key
  · exact .inl ((leavesFormed_of_made hm.made).keyedBy hm.nodup hk (hkeys hk) hnot)
  · right
    rw [Registry.innerNode, if_pos hk, Node.children]
    simpa using hnot

/-! ### Runs of the construction -/

section Grown

variable {R : Option Ref → Ref → Prop} {L : Frame → Prop} {parent base : Option Ref}
  {frames : List Frame}

theorem Node.Grown.exists_node (h : n.Grown (Frame.Settled R L) parent) :
    ∃ f : Frame, f.node = .ok n := by
  obtain ⟨-, hn, -⟩ := h
  exact ⟨_, hn⟩

/-- In a growing assembly everything that is complete has been a frame. -/
theorem FramesGrow.made (h : FramesGrow R L base frames) : ∀ frame ∈ frames, frame.Made := by
  induction h with
  | nil => simp
  | cons here nodup children outer ih =>
    intro frame hframe
    rcases List.mem_cons.1 hframe with rfl | hframe
    · exact ⟨fun c hc => (children c hc).exists_node, nodup⟩
    · exact ih frame hframe

/-- What occurs among nodes that have grown has grown as well. -/
theorem Occurs.grown (ho : Occurs nodes path n)
    (hg : ∀ m ∈ nodes, m.Grown (Frame.Settled R L) parent) :
    ∃ parent, n.Grown (Frame.Settled R L) parent := by
  induction ho generalizing parent with
  | top mem => exact ⟨parent, hg _ mem⟩
  | under mem _ ih =>
    obtain ⟨hf, hm, hbelow⟩ := hg _ mem
    exact ih fun c hc => hbelow c ((Frame.wellFormed_of_node hm hf.nodup).2.1 hc)

end Grown

end Tree

namespace Registry

open YangBinding.Tree (Misled Lacks LeavesFormed)

variable {reg : Registry} {id : ResourceId} {a : Assembly} {commands : List Assembly.Command}
  {nodes : List Node} {path : List NodeKey} {n : Node} {o : Object} {r : Ref}
  {objects : List Object}

/-- Whatever steps are made, what is complete in an assembly has been a frame, and the frames are left in
the run. -/
theorem growing_of_at? (hat : Assembly.at? reg id = .ok a) :
    (a.run reg commands).Growing (fun _ _ => True) (a.Leaves reg commands) := by
  have hempty : a.Growing (fun _ _ => True) (a.Leaves reg commands) := by
    rw [(base_of_at? hat).2.1]
    exact Assembly.growing_start a.base
  exact (growing_run hempty (fun _ _ _ _ _ _ _ => trivial) (List.append_nil commands).symm).1

/-- A data node of several that occurs in what has been assembled is what a frame of a list became when
it was left. -/
theorem exists_frame_of_assemble (hnodes : reg.assemble id commands = .ok nodes)
    (ho : Occurs nodes path n) (hshape : n.shape = .multiNode) :
    ∃ a before after frame outer, Assembly.at? reg id = .ok a ∧
      commands = before ++ .exit :: after ∧ (a.run reg before).stack = frame :: outer ∧
      frame.node = .ok n ∧ frame.schema.kind = .list ∧ frame.Made := by
  obtain ⟨a, hat, hfinish⟩ := Except.bind_eq_ok_iff.1 hnodes
  obtain ⟨_, hf, hn, hbelow⟩ := ho.grown (grown_of_finish (growing_of_at? hat) hfinish)
  obtain ⟨before, after, outer, hc, hstack⟩ := hf.left
  refine ⟨a, before, after, _, outer, hat, hc, hstack, hn, ?_,
    ⟨fun c hc => (hbelow c hc).exists_node, hf.nodup⟩⟩
  -- Nodes of several are made by lists only: the values of a leaf-list are leaves of their own shape.
  have hkind := (Tree.Frame.wellFormed_of_node hn hf.nodup).1.shape.symm.trans hshape
  unfold Tree.Shape.ofKind at hkind
  split at hkind <;> first | assumption | cases hkind

/-! ### Written entries -/

variable {P : Object → Ref → Prop} {x y : Object} {s q : Ref} {t : Outline} {e : Error}

theorem Within.extend (h : reg.Within o r objects x s) (hp : reg.Part x s y q) :
    reg.Within o r (objects ++ [y]) y q := by
  induction h with
  | here => exact .part hp .here
  | part part _ ih => exact .part part (ih hp)

/-- All objects inside are inside. -/
theorem throughout_within (o : Object) (r : Ref) :
    reg.Throughout (fun x s => ∃ objects, reg.Within o r objects x s) o r := by
  refine .of_inherited ?_ ⟨[], .here⟩
  rintro x s y q ⟨objects, hw⟩ hp
  exact ⟨_, hw.extend hp⟩

/-- A data node is that of a value, or what is left of the outline of an object that something holds
of throughout. -/
def NodeOf (reg : Registry) (P : Object → Ref → Prop) (n : Node) : Prop :=
  (∃ leaf v, n = leafNode leaf v) ∨
    ∃ x s, reg.Throughout P x s ∧ s.kind.isLeafLike = false ∧ n = (reg.outline x { node := s }).node

theorem nodeOf_outline (hP : reg.Throughout P o r) : reg.NodeOf P (reg.outline o { node := r }).node := by
  cases hk : r.kind.isLeafLike with
  | true =>
    rw [outline_of_leafLike hk, Outline.node]
    exact .inl ⟨r, .empty, rfl⟩
  | false => exact .inr ⟨o, r, hP, hk, rfl⟩

theorem nodeOf_of_mem_outlines (hP : reg.Throughout P o r) (ht : t ∈ reg.outlines o r) :
    reg.NodeOf P t.node := by
  obtain ⟨-, holder, v, hleaf⟩ | ⟨hk, x, hx, hinner⟩ := exists_object_of_mem hP ht
  · rw [hleaf, Outline.node]
    exact .inl ⟨_, v, rfl⟩
  · refine .inr ⟨x, t.place.node, hx, hk, ?_⟩
    have houtline : reg.outline x { node := t.place.node } =
        .inner x { node := t.place.node } (reg.outlines x t.place.node) := outline_of_inner hk
    rw [houtline, hinner, Outline.node, Outline.node]
    rfl

/-- Whatever occurs among the data nodes of objects is the data node of a value or an object inside. -/
theorem nodeOf_of_occurs (hnodes : ∀ m ∈ nodes, reg.NodeOf P m) (ho : Occurs nodes path n) :
    reg.NodeOf P n := by
  induction ho with
  | top mem => exact hnodes _ mem
  | @under nodes path m n mem inside ih =>
    apply ih
    intro c hc
    obtain ⟨leaf, v, rfl⟩ | ⟨x, s, hx, hk, rfl⟩ := hnodes m mem
    · -- Nothing stands below a value.
      unfold leafNode at hc
      split at hc <;> cases hc
    · rw [Outline.children_node, outline_of_inner hk, Outline.inside] at hc
      obtain ⟨t, ht, rfl⟩ := List.mem_map.1 (List.mem_of_mem_latest hc)
      exact nodeOf_of_mem_outlines hx ht

theorem leavesFormed_of_nodeOf {children : List Node} (h : ∀ c ∈ children, reg.NodeOf P c) :
    LeavesFormed children := by
  intro c hc hshape
  obtain ⟨leaf, v, rfl⟩ | ⟨x, s, -, hk, rfl⟩ := h c hc
  · unfold leafNode at hshape ⊢
    split at hshape
    · next hleaf =>
      rw [if_pos hleaf]
      exact ⟨_, _, rfl⟩
    · cases hshape
  · rw [outline_of_inner hk, Outline.node, innerNode] at hshape
    split at hshape <;> cases hshape

/-- The data node of an object that stands for an entry, and with which nothing is wrong, is keyed by the
list's own key leaves unless it is misled. -/
theorem keyedBy_or_misled_of_sound (hk : s.kind = .list) (hx : ∀ e, ¬ reg.Fault x s e)
    (hn : n = (reg.outline x { node := s }).node) :
    n.KeyedBy s ∨ ∃ key ∈ s.keys, Misled s n.children key := by
  subst hn
  have hinner : s.kind.isLeafLike = false := by simp [hk, Kind.isLeafLike]
  rw [Outline.children_node, outline_of_inner hinner, Outline.node, Outline.inside]
  have hformed : LeavesFormed (((reg.outlines x s).map Outline.node).latest Node.key) := by
    apply leavesFormed_of_nodeOf
    intro c hc
    obtain ⟨t, ht, rfl⟩ := List.mem_map.1 (List.mem_of_mem_latest hc)
    exact nodeOf_of_mem_outlines (throughout_within x s) ht
  have hkeys : ∀ key ∈ s.keys,
      (keyLeaf? (((reg.outlines x s).map Outline.node).latest Node.key) key).isSome = true := by
    intro key hkey
    cases hleaf : keyLeaf? (((reg.outlines x s).map Outline.node).latest Node.key) key with
    | some leaf => rfl
    | none => exact absurd (.key hk hkey hleaf) (hx _)
  by_cases hnot : ∀ key ∈ s.keys,
      ¬ Misled s (((reg.outlines x s).map Outline.node).latest Node.key) key
  · exact .inl (hformed.keyedBy (List.nodup_map_key_latest _ _) hk hkeys hnot)
  · exact .inr (by simpa using hnot)

/-- A data node of several that has been written is that of an object inside one of the positioned
objects, and nothing is wrong with the object. -/
theorem Reachable.exists_object_of_write (h : reg.Reachable) {d : ObjectData} {data : ResourceData}
    (hw : reg.write d = .ok data) (ho : Occurs data.nodes path n) (hshape : n.shape = .multiNode) :
    ∃ o r objects x s, .object o ∈ d.items ∧ reg.nodeOfClass? o.className = some r ∧
      reg.Within o r objects x s ∧ s.kind = .list ∧ n = (reg.outline x { node := s }).node ∧
        ∀ e, ¬ reg.Fault x s e := by
  have hsettles := h.write_settles d
  rw [hw] at hsettles
  obtain ⟨⟨base, hid⟩, hnodes, hsound⟩ := hsettles
  have hinner (hne : d.items ≠ []) : ∀ b, base = some b → b.kind.isLeafLike = false := by
    rintro b rfl
    cases hb : b.kind.isLeafLike with
    | false => rfl
    | true => exact absurd (.belowLeaf hid hb hne) (hsound _)
  -- What is known of the objects at the top is carried down to the objects inside.
  have htop : ∀ m ∈ data.nodes, reg.NodeOf (fun x s =>
      (∃ o r objects, .object o ∈ d.items ∧ reg.nodeOfClass? o.className = some r ∧
        reg.Within o r objects x s) ∧ ∀ e, ¬ reg.Fault x s e) m := by
    intro m hm
    rw [hnodes] at hm
    obtain ⟨item, hitem, hm⟩ := List.mem_flatMap.1 hm
    cases item with
    | leaf leaf values =>
      obtain ⟨s, -, hm⟩ := List.mem_flatMap.1 hm
      obtain ⟨v, -, rfl⟩ := List.mem_map.1 hm
      exact .inl ⟨s, v, rfl⟩
    | object o =>
      obtain ⟨r, hr, rfl⟩ := Option.map_eq_some_iff.1 (Option.mem_toList.1 hm)
      have hfaulty : ∀ e, ¬ reg.Faulty o r e := fun e he =>
        hsound e (.item hid (hinner (List.ne_nil_of_mem hitem)) hitem (.inside hr he))
      apply nodeOf_outline
      refine ((throughout_within o r).and (throughout_sound hfaulty)).imp ?_
      rintro x s ⟨⟨objects, hwithin⟩, hfault⟩
      exact ⟨⟨o, r, objects, hitem, hr, hwithin⟩, hfault⟩
  obtain ⟨leaf, v, rfl⟩ | ⟨x, s, hx, hk, rfl⟩ := nodeOf_of_occurs htop ho
  · unfold leafNode at hshape
    split at hshape <;> cases hshape
  · obtain ⟨⟨o, r, objects, hitem, hr, hwithin⟩, hfault⟩ := hx.here
    refine ⟨o, r, objects, x, s, hitem, hr, hwithin, ?_, rfl, hfault⟩
    rw [outline_of_inner hk, Outline.node, innerNode] at hshape
    split at hshape
    · assumption
    · cases hshape

/-! ### All entries -/

/-- Where what is complete has been a frame, leaving an entry that is not misled for any of its keys
either completes it with the list's own key leaves as its key, or fails for want of one of them. In the
construction of data everything complete has been a frame, and every entry in what has been assembled
is one that was left in it; every entry in what has been written is that of an object inside one of the
positioned objects. All of them are keyed by the own key leaves of their lists unless they are misled. -/
theorem Reachable.entries_keyed (h : reg.Reachable) :
    (∀ (a : Assembly) (frame : Frame) (outer : List Frame), a.stack = frame :: outer → frame.Made →
      frame.schema.kind = .list →
      (∀ key ∈ frame.schema.keys, ¬ Misled frame.schema frame.children key) →
      (∃ n, a.exit = .ok (a.pop.place n) ∧ n.children = frame.children ∧ n.KeyedBy frame.schema) ∨
        ∃ key ∈ frame.schema.keys, Lacks frame.schema frame.children key ∧
          a.exit = .error (.structural (.missingKeyLeaf frame.schema.name key))) ∧
    (∀ id commands a, Assembly.at? reg id = .ok a →
      ∀ frame ∈ (a.run reg commands).stack, frame.Made) ∧
    (∀ id commands nodes path n, reg.assemble id commands = .ok nodes → Occurs nodes path n →
      n.shape = .multiNode → ∃ a before after frame outer, Assembly.at? reg id = .ok a ∧
        commands = before ++ .exit :: after ∧ (a.run reg before).stack = frame :: outer ∧
        frame.node = .ok n ∧ frame.schema.kind = .list ∧
        (n.KeyedBy frame.schema ∨ ∃ key ∈ frame.schema.keys, Misled frame.schema n.children key)) ∧
    ∀ d t path n, reg.write d = .ok t → Occurs t.nodes path n → n.shape = .multiNode →
      ∃ o r objects x s, .object o ∈ d.items ∧ reg.nodeOfClass? o.className = some r ∧
        reg.Within o r objects x s ∧ s.kind = .list ∧ n = (reg.outline x { node := s }).node ∧
        (n.KeyedBy s ∨ ∃ key ∈ s.keys, Misled s n.children key) := by
  refine ⟨fun a frame outer => Assembly.exit_list, ?_, ?_, ?_⟩
  · intro id commands a hat frame hframe
    have hgrowing : (a.run reg commands).Growing (fun _ _ => True) (a.Leaves reg commands) :=
      growing_of_at? hat
    exact hgrowing.stack.made frame hframe
  · intro id commands nodes path n hnodes ho hshape
    obtain ⟨a, before, after, frame, outer, hat, hc, hstack, hn, hk, hm⟩ :=
      exists_frame_of_assemble hnodes ho hshape
    exact ⟨a, before, after, frame, outer, hat, hc, hstack, hn, hk, hm.keyedBy_or_misled hk hn⟩
  · intro d t path n hw ho hshape
    obtain ⟨o, r, objects, x, s, hitem, hr, hwithin, hk, hn, hfault⟩ :=
      h.exists_object_of_write hw ho hshape
    exact ⟨o, r, objects, x, s, hitem, hr, hwithin, hk, hn, keyedBy_or_misled_of_sound hk hfault hn⟩

namespace Shop

/-- The data node of the pen in stock. -/
def stockedPen : Node :=
  .inner { id := itemRef.id, selector := .list [{ id := nameRef.id, value := .string "pen" }] } .multiNode
    [leafNode nameRef (.string "pen"), leafNode tagRef (.string "blue"), leafNode tagRef (.string "red")]

theorem objectNode_pen : registry.objectNode pen itemRef = stockedPen := by
  rw [objectNode_eq, content_eq, slots_pen]
  rfl

theorem objectNode_store : registry.objectNode store storeRef =
    .inner { id := storeRef.id } .singleNode [stockedPen] := by
  have hcontent : registry.content store storeRef =
      [{ place := { node := itemRef }, data := registry.objectNode pen itemRef }] := by
    rw [content_eq, slots_store, List.flatMap_singleton, slotContent, if_neg (by decide)]
    rfl
  rw [objectNode_eq, hcontent, objectNode_pen]
  rfl

/-- The leaf of the name of the key is the name that an item declares. -/
theorem not_misled_stockedPen : ∀ key ∈ itemRef.keys, ¬ Misled itemRef stockedPen.children key := by
  intro key hkey
  obtain rfl : key = "name" := List.mem_singleton.1 hkey
  rintro ⟨c, hc, hforeign⟩
  obtain rfl : leafNode nameRef (.string "pen") = c := Option.some.inj hc
  exact hforeign ⟨nameRef, List.mem_cons_self, rfl, rfl, rfl⟩

end Shop

/-- The pen in stock is keyed by its name. -/
theorem entries_keyed_pen : ∃ t path, Shop.registry.write Shop.stock = .ok t ∧
    Occurs t.nodes path Shop.stockedPen ∧ Shop.stockedPen.KeyedBy Shop.itemRef := by
  have hwrite := Shop.write_stock
  rw [Shop.objectNode_store] at hwrite
  have hoccurs : Occurs [.inner { id := Shop.storeRef.id } .singleNode [Shop.stockedPen]]
      [{ id := Shop.storeRef.id }, Shop.stockedPen.key] Shop.stockedPen :=
    .under (List.mem_singleton_self _) (.top (List.mem_singleton_self _))
  obtain ⟨-, -, -, hwritten⟩ := Shop.sole.reachable.entries_keyed
  obtain ⟨o, r, objects, x, s, hitem, hr, hwithin, hk, -, hkeyed⟩ :=
    hwritten _ _ _ _ hwrite hoccurs rfl
  obtain ⟨rfl, rfl⟩ := Shop.eq_of_mem_stock hitem hr
  -- The items are the only list in the shop.
  have hlist : Shop.registry.Throughout (fun _ q => q.kind = .list → q = Shop.itemRef)
      Shop.store Shop.storeRef := Shop.throughout_store (fun _ => rfl) (by rintro ⟨⟩)
  obtain rfl : s = Shop.itemRef := (hwithin.throughout hlist).here hk
  refine ⟨_, _, hwrite, hoccurs, hkeyed.resolve_right ?_⟩
  rintro ⟨key, hkey, hmisled⟩
  exact Shop.not_misled_stockedPen key hkey hmisled

/-! ### A library

Books are told apart by their marks. An archive adds marks of its own to them. -/

namespace Library

def model : Model where
  id := "library"
  nodes := #[
    { id := ⟨"library", some "urn:library"⟩, kind := .module, children := [1] },
    { id := ⟨"book", some "urn:library"⟩, kind := .list, parent := some 0, children := [2],
      keys := ["mark"], augments := [4] },
    { id := ⟨"mark", some "urn:library"⟩, kind := .leaf, parent := some 1 },
    { id := ⟨"archive", some "urn:archive"⟩, kind := .module, children := [4] },
    { id := ⟨"/book", some "urn:archive"⟩, kind := .augment, parent := some 3, children := [5],
      target := some 1 },
    { id := ⟨"mark", some "urn:archive"⟩, kind := .leaf, parent := some 4 }]
  modules := [0, 3]

theorem built : model.Built :=
  ⟨"library", [.addModule "library" "urn:library" none, .addChild 0 .list "book",
    .addChild 1 .leaf "mark", .setKeys 1 ["mark"], .addModule "archive" "urn:archive" none,
    .addAugment 3 1, .addChild 4 .leaf "mark"], by decide +kernel⟩

def registry : Registry := run {} [.register model []]

theorem reachable : registry.Reachable :=
  ⟨true, _, fun command h => by
    obtain rfl := List.mem_singleton.1 h
    exact built, rfl⟩

def bookRef : Ref := ⟨model, 1, by decide⟩

/-- A book that has the mark of the archive only. -/
def cataloguing : List Assembly.Command :=
  [.add "book" none none, .add "mark" (some "urn:archive") (some (.string "A-1")), .exit, .exit]

/-- The mark of the archive. -/
def archiveMark : Node :=
  .leaf { id := ⟨"mark", some "urn:archive"⟩ } .singleLeaf (.string "A-1")

/-- The entry that the book becomes. -/
def bookNode : Node :=
  .inner { id := bookRef.id, selector := .list [{ id := archiveMark.key.id, value := .string "A-1" }] }
    .multiNode [archiveMark]

end Library

/-- The mark of the archive is taken for the key leaf of the book, although the library's own mark, which
is declared as the key, is missing. -/
theorem misled_library : Library.registry.Reachable ∧
    Library.registry.assemble .root Library.cataloguing = .ok [Library.bookNode] ∧
    Library.bookNode.key.id = Library.bookRef.id ∧ Library.bookRef.keys = ["mark"] ∧
    Lacks Library.bookRef Library.bookNode.children "mark" ∧
    ¬ Library.bookNode.KeyedBy Library.bookRef := by
  have hown {id : Schema.Id} (h : Library.bookRef.OwnsKey "mark" id) :
      id = ⟨"mark", some "urn:library"⟩ := by
    obtain ⟨d, hd, -, -, rfl⟩ := h
    have hids : ∀ d ∈ Library.bookRef.children, d.id = ⟨"mark", some "urn:library"⟩ := by decide
    exact hids d hd
  refine ⟨Library.reachable, Except.toOption_eq_some_iff.1 (by decide +kernel), rfl, rfl, ?_, ?_⟩
  · intro c hc _ hkey
    obtain rfl := List.mem_singleton.1 hc
    exact absurd (hown hkey) (by decide)
  · rintro ⟨-, leaves, hleaves, hall⟩
    have hselector := congrArg NodeKey.selector hleaves
    cases hselector
    cases hall with
    | cons hfirst _ => exact absurd (hown hfirst.1) (by decide)

end Registry

end YangBinding
