import YangBinding.Proofs.Binding.Slots
import YangBinding.Proofs.Outcome

/-!
# What is written

Writing an object walks over the schema step by step, entering and leaving data nodes. Whatever it
writes is described without any steps: it succeeds exactly if nothing that the data needs is
missing, and then it places the content of the object at the current position.

## Main definitions

* `Tree.Assembly.placeAll` — complete nodes are placed one after the other
* `Registry.Writes` — a condition for success, and the nodes that are placed

## Main results

* `Registry.Writes.foldlM` — steps for all items place the nodes of all items
* `Registry.Classified.writes_object` — what the walk over an object writes
-/

namespace YangBinding

open Schema (DataChild Kind Layer Model Ref)
open YangBinding.Tree (Assembly Frame KeyLeaf Node keyLeaf? requireKeyLeaf)

/-! ### Assemblies -/

namespace Tree.Assembly

variable {a a' : Assembly} {r : Ref} {nodes : List Node}

/-- Data nodes may be put at the current position. -/
def Open (a : Assembly) : Prop := ∀ node, a.current = some node → node.kind.isLeafLike = false

/-- Puts complete nodes at the current position, one after the other. -/
def placeAll (a : Assembly) (nodes : List Node) : Assembly := nodes.foldl place a

@[simp]
theorem current_place (a : Assembly) (n : Node) : (a.place n).current = a.current := by
  unfold place
  cases hs : a.stack with
  | nil => simp [current, hs]
  | cons frame rest => simp [current, hs]

theorem Open.placeAll (h : a.Open) (nodes : List Node) : (a.placeAll nodes).Open := by
  induction nodes generalizing a with
  | nil => exact h
  | cons n nodes ih =>
    refine ih (a := a.place n) ?_
    rwa [Open, current_place]

theorem placeAll_append (a : Assembly) (ns ms : List Node) :
    a.placeAll (ns ++ ms) = (a.placeAll ns).placeAll ms :=
  List.foldl_append

/-- Nodes that are placed while a frame is open become children of it. -/
theorem placeAll_frame (a : Assembly) (frame : Frame) (nodes : List Node) :
    placeAll { a with stack := frame :: a.stack } nodes =
      { a with stack :=
          { frame with children := nodes.foldl (fun cs n => Children.insert n cs) frame.children } ::
            a.stack } := by
  induction nodes generalizing frame with
  | nil => rfl
  | cons n nodes ih => exact ih { frame with children := Children.insert n frame.children }

/-- Nodes that are placed while no frame is open become top-level nodes. -/
theorem placeAll_forest (h : a.stack = []) (nodes : List Node) :
    a.placeAll nodes = { a with forest := a.forest ++ nodes } := by
  induction nodes generalizing a with
  | nil => simp [placeAll]
  | cons n nodes ih =>
    have hplace : a.place n = { a with forest := a.forest ++ [n] } := by
      rw [place]
      simp only [h]
    change (a.place n).placeAll nodes = _
    rw [hplace, ih (a := { a with forest := a.forest ++ [n] }) h]
    simp

theorem enter_eq (h : a.Open) (schema : Ref) (value : Option LeafValue) :
    a.enter schema value = (do
      let v ← nodeValue schema value
      pure { a with stack := { schema, value := v } :: a.stack }) := by
  unfold enter
  cases hc : a.current with
  | none => rfl
  | some node => simp [h node hc, bind, Except.bind, pure, Except.pure]

/-- What is no leaf needs no value. -/
theorem nodeValue_none (hk : r.kind.isLeafLike = false) : nodeValue r none = .ok none := by
  unfold nodeValue
  cases hkind : r.kind <;> simp [hkind, Kind.isLeafLike] at hk ⊢

/-- Data nodes may be put into a frame that is not one of a leaf. -/
theorem open_frame (frame : Frame) (hk : frame.schema.kind.isLeafLike = false) :
    Open { a with stack := frame :: a.stack } := by
  intro node hnode
  obtain rfl : frame.schema = node := by simpa [current] using hnode
  exact hk

/-- What is entered becomes the innermost frame, with the value that its kind asks for. -/
theorem eq_of_enter {value : Option LeafValue} (h : a.enter r value = .ok a') :
    ∃ v, nodeValue r value = .ok v ∧ a' = { a with stack := { schema := r, value := v } :: a.stack } := by
  have hpush : (do
      let v ← nodeValue r value
      pure { a with stack := { schema := r, value := v } :: a.stack } : Result Assembly) = .ok a' := by
    rw [enter] at h
    split at h
    · split at h
      · cases h
      · exact h
    · exact h
  obtain ⟨v, hv, hpush⟩ := Except.bind_eq_ok_iff.1 hpush
  cases hpush
  exact ⟨v, hv, rfl⟩

/-- Nothing is entered where no data node may be put. -/
theorem open_of_enter {value : Option LeafValue} (h : a.enter r value = .ok a') : a.Open := by
  intro node hnode
  cases hk : node.kind.isLeafLike with
  | false => rfl
  | true => simp [enter, hnode, hk, Result.refuse, bind, Except.bind] at h

end Tree.Assembly

namespace Registry

variable {reg : Registry} {m : Model} {o x : Object} {r s child : Ref} {p : Placed}

/-! ### Conditions and nodes -/

/-- An operation on assemblies succeeds, wherever data nodes may be put, exactly under a condition,
and then puts nodes at the current position. -/
def Writes (f : Assembly → Result Assembly) (P : Prop) (nodes : List Node) : Prop :=
  ∀ a : Assembly, a.Open → ∀ a', f a = .ok a' ↔ P ∧ a' = a.placeAll nodes

namespace Writes

variable {f g : Assembly → Result Assembly} {P Q : Prop} {ns ms : List Node}

theorem congr (h : Writes f P ns) (hP : P ↔ Q) (hn : ns = ms) : Writes f Q ms := by
  intro a ha a'
  rw [← hn, ← hP]
  exact h a ha a'

theorem nothing : Writes pure True [] := by
  intro a _ a'
  rw [true_and]
  constructor
  · rintro ⟨⟩
    rfl
  · rintro rfl
    rfl

/-- What is written by two operations, one after the other. -/
theorem bind (hf : Writes f P ns) (hg : Writes g Q ms) :
    Writes (fun a => f a >>= g) (P ∧ Q) (ns ++ ms) := by
  intro a ha a'
  rw [Except.bind_eq_ok_iff]
  constructor
  · rintro ⟨b, hb, h⟩
    obtain ⟨hP, rfl⟩ := (hf a ha b).1 hb
    obtain ⟨hQ, rfl⟩ := (hg _ (ha.placeAll ns) a').1 h
    exact ⟨⟨hP, hQ⟩, (a.placeAll_append ns ms).symm⟩
  · rintro ⟨⟨hP, hQ⟩, rfl⟩
    exact ⟨a.placeAll ns, (hf a ha _).2 ⟨hP, rfl⟩,
      (hg _ (ha.placeAll ns) _).2 ⟨hQ, a.placeAll_append ns ms⟩⟩

/-- An operation for each item of a list writes the nodes of all items. -/
theorem foldlM {α : Type} {f : Assembly → α → Result Assembly} {P : α → Prop}
    {n : α → List Node} {xs : List α} (h : ∀ x ∈ xs, Writes (fun a => f a x) (P x) (n x)) :
    Writes (fun a => xs.foldlM f a) (∀ x ∈ xs, P x) (xs.flatMap n) := by
  induction xs with
  | nil => exact nothing.congr (by simp) rfl
  | cons x xs ih =>
    have hx := h x List.mem_cons_self
    have hxs := ih fun y hy => h y (List.mem_cons_of_mem _ hy)
    simp only [List.foldlM_cons]
    exact (hx.bind hxs).congr (by simp) rfl

/-- What is done after something else has been found out. -/
theorem found {α : Type} {x : Result α} {f : α → Assembly → Result Assembly} {P : α → Prop}
    {nodes : List Node} (h : ∀ v, x = .ok v → Writes (f v) (P v) nodes) :
    Writes (fun a => x >>= fun v => f v a) (∃ v, x = .ok v ∧ P v) nodes := by
  intro a ha a'
  rw [Except.bind_eq_ok_iff]
  constructor
  · rintro ⟨v, hv, hf⟩
    obtain ⟨hP, ha'⟩ := (h v hv a ha a').1 hf
    exact ⟨⟨v, hv, hP⟩, ha'⟩
  · rintro ⟨⟨v, hv, hP⟩, ha'⟩
    exact ⟨v, hv, (h v hv a ha a').2 ⟨hP, ha'⟩⟩

end Writes

/-! ### Single nodes -/

/-- A leaf, or an entry of a leaf-list, is always written. -/
theorem writes_leaf (hc : child.kind.isLeafLike = true) (v : LeafValue) :
    Writes (fun a => writeLeaf child a v) True [leafNode child v] := by
  intro a ha a'
  change (do (← a.enter child (some v)).exit) = Except.ok a' ↔ _
  rw [true_and, Assembly.enter_eq ha]
  have hkind : child.kind = .leaf ∨ child.kind = .leafList := by
    simpa [Kind.isLeafLike] using hc
  rcases hkind with hk | hk <;>
    simp [Assembly.nodeValue, hk, bind, Except.bind, pure, Except.pure, Assembly.exit, Frame.node,
      Assembly.pop, leafNode, Assembly.placeAll, eq_comm]

theorem requireKeyLeaf_eq_ok_iff {children : List Node} {key : String} {leaf : KeyLeaf} :
    requireKeyLeaf r children key = .ok leaf ↔ keyLeaf? children key = some leaf := by
  unfold requireKeyLeaf
  cases keyLeaf? children key <;> simp [Result.refuse]

theorem mapM_requireKeyLeaf_eq_ok_iff {children : List Node} {keys : List String}
    {leaves : List KeyLeaf} : keys.mapM (requireKeyLeaf r children) = .ok leaves ↔
      (∀ key ∈ keys, (keyLeaf? children key).isSome = true) ∧
        leaves = keys.filterMap (keyLeaf? children) := by
  rw [List.mapM_eq_ok_iff]
  induction keys generalizing leaves with
  | nil => simp
  | cons key keys ih =>
    rw [List.forall₂_cons_left_iff, List.forall_mem_cons]
    constructor
    · rintro ⟨leaf, rest, hleaf, hrest, rfl⟩
      obtain ⟨hkeys, rfl⟩ := ih.1 hrest
      have hleaf := requireKeyLeaf_eq_ok_iff.1 hleaf
      exact ⟨⟨by simp [hleaf], hkeys⟩, by simp [hleaf]⟩
    · rintro ⟨⟨hsome, hkeys⟩, rfl⟩
      obtain ⟨leaf, hleaf⟩ := Option.isSome_iff_exists.1 hsome
      exact ⟨leaf, _, requireKeyLeaf_eq_ok_iff.2 hleaf, ih.2 ⟨hkeys, rfl⟩, by simp [hleaf]⟩

/-- An inner node can be completed exactly if its keys are there, in case it is a list entry. -/
theorem frame_node_eq_ok_iff {frame : Frame} {n : Node}
    (hk : frame.schema.kind.isLeafLike = false) : frame.node = .ok n ↔
      (frame.schema.kind = .list → ∀ key ∈ frame.schema.keys,
        (keyLeaf? frame.children key).isSome = true) ∧ n = innerNode frame.schema frame.children := by
  unfold Frame.node innerNode
  cases hkind : frame.schema.kind with
  | leaf => simp [hkind, Kind.isLeafLike] at hk
  | leafList => simp [hkind, Kind.isLeafLike] at hk
  | list =>
    simp only [Except.bind_eq_ok_iff, mapM_requireKeyLeaf_eq_ok_iff, forall_const, if_true]
    constructor
    · rintro ⟨leaves, ⟨hkeys, rfl⟩, h⟩
      cases h
      exact ⟨hkeys, rfl⟩
    · rintro ⟨hkeys, rfl⟩
      exact ⟨_, ⟨hkeys, rfl⟩, rfl⟩
  | _ =>
    simp only [Except.ok.injEq, reduceCtorEq, false_implies, true_and, if_false]
    exact eq_comm

/-- Only a list entry cannot be completed, and only for a key without a leaf. -/
theorem frame_node_eq_error {frame : Frame} {e : Error} (h : frame.node = .error e) :
    frame.schema.kind = .list ∧ ∃ key ∈ frame.schema.keys,
      keyLeaf? frame.children key = none ∧
        e = .structural (.missingKeyLeaf frame.schema.name key) := by
  unfold Frame.node at h
  cases hk : frame.schema.kind with
  | list =>
    simp only [hk] at h
    obtain h | ⟨leaves, -, ⟨⟩⟩ := Except.bind_eq_error_iff.1 h
    obtain ⟨key, hkey, hleaf⟩ := List.exists_of_mapM_eq_error h
    unfold requireKeyLeaf at hleaf
    split at hleaf
    · cases hleaf
    · next hnone =>
      cases hleaf
      exact ⟨rfl, key, hkey, hnone, rfl⟩
  | _ => simp [hk] at h

/-- A node is entered, filled and left. -/
theorem writes_inner {f : Assembly → Result Assembly} {P : Prop} {nodes : List Node}
    (hk : r.kind.isLeafLike = false) (hf : Writes f P nodes) :
    Writes (fun a => do (← f (← a.enter r none)).exit)
      (P ∧ (r.kind = .list → ∀ key ∈ r.keys,
        (keyLeaf? (nodes.latest Node.key) key).isSome = true))
      [innerNode r (nodes.latest Node.key)] := by
  intro a ha a'
  have hopen := Assembly.open_frame (a := a) { schema := r } hk
  -- The frame is entered empty, so that it is left with just what has been written into it.
  have hexit (b : Assembly) (hb : b = Assembly.placeAll
      { a with stack := { schema := r } :: a.stack } nodes) :
      b.exit = .ok a' ↔ (r.kind = .list → ∀ key ∈ r.keys,
        (keyLeaf? (nodes.latest Node.key) key).isSome = true) ∧
          a' = a.placeAll [innerNode r (nodes.latest Node.key)] := by
    rw [hb, Assembly.placeAll_frame, Assembly.exit]
    simp only [Except.bind_eq_ok_iff]
    rw [← Tree.Children.ofList_eq]
    constructor
    · rintro ⟨n, hn, h⟩
      obtain ⟨hkeys, rfl⟩ := (frame_node_eq_ok_iff (by exact hk)).1 hn
      cases h
      exact ⟨hkeys, rfl⟩
    · rintro ⟨hkeys, rfl⟩
      exact ⟨_, (frame_node_eq_ok_iff (by exact hk)).2 ⟨hkeys, rfl⟩, rfl⟩
  simp only [Assembly.enter_eq ha, Assembly.nodeValue_none hk, Except.bind_eq_ok_iff]
  constructor
  · rintro ⟨b, hb, c, hc, h⟩
    obtain ⟨_, ⟨⟩, hb⟩ := hb
    cases hb
    obtain ⟨hP, hc⟩ := (hf _ hopen c).1 hc
    obtain ⟨hkeys, ha'⟩ := (hexit c hc).1 h
    exact ⟨⟨hP, hkeys⟩, ha'⟩
  · rintro ⟨⟨hP, hkeys⟩, ha'⟩
    exact ⟨_, ⟨none, rfl, rfl⟩, _, (hf _ hopen _).2 ⟨hP, rfl⟩, (hexit _ rfl).2 ⟨hkeys, ha'⟩⟩

/-! ### Cases, payloads and keys -/

/-- An object selects a case of a choice if its class is bound to one. -/
theorem Classified.selectedCase_eq_ok_iff (h : reg.Classified m) {choice : Ref}
    (hm : choice.model = m) : reg.selectedCase choice x = .ok s ↔
      reg.nodeOfClass? x.className = some s ∧ s ∈ choice.cases := by
  rw [selectedCase, Except.bind_eq_ok_iff]
  simp only [nodeOfClass_eq_ok_iff]
  have hcases {s : Ref} (hs : reg.nodeOfClass? x.className = some s) :
      s ∈ choice.cases ↔ (s.kind == .case && s.isCaseOf choice) = true := by
    rw [Ref.mem_cases_iff (hm.symm ▸ h.sole.linked)
      ((h.sole.nodeOfClass?_eq_some_iff.1 hs).1.trans hm.symm), Bool.and_eq_true, beq_iff_eq]
  constructor
  · rintro ⟨s', hs', hok⟩
    split at hok
    · next hcase =>
      cases hok
      exact ⟨hs', (hcases hs').2 hcase⟩
    · cases hok
  · rintro ⟨hs, hcase⟩
    exact ⟨s, hs, by rw [if_pos ((hcases hs).1 hcase)]; rfl⟩

theorem payloadNode_eq_ok_iff {c : String} (hc : r.className = some c) :
    reg.payloadNode c x = .ok s ↔ reg.payloadOf? r x = some s := by
  rw [payloadNode, found_eq_ok_iff, payloadOf?, hc]
  rfl

theorem Classified.model_of_mem_slots (h : reg.Classified m) (hr : r.model = m) {l : Layer}
    (hs : .layer l x ∈ reg.slots o r) : l.node.model = m := by
  cases l with
  | case choice s =>
    obtain ⟨-, -, -, hnode⟩ := case_mem_slots_iff.1 hs
    exact (h.sole.nodeOfClass?_eq_some_iff.1 hnode).1
  | augment augment =>
    exact (Ref.model_of_mem_augments (augment_mem_slots_iff.1 hs).1).trans hr

/-- A data node of an object is the node of a value or that of an object, as the kind of its schema
node demands. -/
theorem Classified.data_of_mem_content (h : reg.Classified m) (hr : r.model = m)
    (hp : p ∈ reg.content o r) :
    (p.place.node.kind.isLeafLike = true ∧ ∃ v, p.data = leafNode p.place.node v) ∨
      (p.place.node.kind.isLeafLike = false ∧
        ∃ x, sizeOf x < sizeOf o ∧ p.data = reg.objectNode x p.place.node) := by
  -- Behind a layer there is the content of a smaller object, hence the induction on the size.
  induction hn : sizeOf o using Nat.strongRecOn generalizing o r p with
  | ind n ih =>
    obtain ⟨slot, hslot, hp⟩ := mem_content_iff.1 hp
    cases slot with
    | field c =>
      rw [slotContent] at hp
      split at hp
      · next hk =>
        obtain ⟨v, -, rfl⟩ := List.mem_map.1 hp
        exact .inl ⟨hk, v, rfl⟩
      · next hk =>
        obtain ⟨x, hx, rfl⟩ := List.mem_map.1 hp
        exact .inr ⟨by simpa using hk, x, hn ▸ Object.sizeOf_lt_of_mem_members hx, rfl⟩
    | layer l x =>
      obtain ⟨q, hq, rfl⟩ := List.mem_map.1 hp
      have hlt := hn ▸ sizeOf_lt_of_mem_slots hslot
      rcases ih _ hlt (h.model_of_mem_slots hr hslot) hq rfl with hleaf | ⟨hk, y, hy, hdata⟩
      · exact .inl hleaf
      · exact .inr ⟨hk, y, Nat.lt_trans hy hlt, hdata⟩
    | payloads =>
      have hk := payloads_mem_slots_iff.1 hslot
      obtain ⟨x, hx, s, hs, rfl⟩ := mem_payloadContent_iff.1 hp
      exact .inr ⟨(h.holdsObjects_of_mem_payloads hr hk
        (mem_payloads_of_payloadOf? hs)).isLeafLike_eq, x,
        hn ▸ Object.sizeOf_lt_of_mem_anydata hx, rfl⟩

theorem key_name_of_mem_content (hp : p ∈ reg.content o r) :
    p.data.key.name = p.place.node.name := by
  rw [Tree.NodeKey.name, key_id_of_mem_content hp]
  rfl

/-- The data nodes of leaves are those of the shape that a leaf has. -/
theorem Classified.shape_eq_singleLeaf_iff (h : reg.Classified m) (hr : r.model = m)
    (hp : p ∈ reg.content o r) : p.data.shape = .singleLeaf ↔ p.place.node.kind = .leaf := by
  rcases h.data_of_mem_content hr hp with ⟨-, v, hdata⟩ | ⟨hk, x, -, hdata⟩
  · rw [hdata, leafNode]
    split <;> simp_all [Node.shape]
  · rw [hdata, objectNode_eq, innerNode]
    have hleaf : p.place.node.kind ≠ .leaf := by
      rintro hleaf
      simp [hleaf, Kind.isLeafLike] at hk
    split <;> simp [Node.shape, hleaf]

theorem Classified.isSome_value? (h : reg.Classified m) (hr : r.model = m)
    (hp : p ∈ reg.content o r) (hleaf : p.place.node.kind = .leaf) :
    p.data.value?.isSome = true := by
  rcases h.data_of_mem_content hr hp with ⟨-, v, hdata⟩ | ⟨hk, -⟩
  · rw [hdata, leafNode, if_pos hleaf]
    rfl
  · simp [hleaf, Kind.isLeafLike] at hk

/-- A key leaf of a list entry is found exactly if a leaf of its name is part of the content. -/
theorem Classified.keyLeaf?_isSome_iff (h : reg.Classified m) (hr : r.model = m)
    (hh : HoldsObjects r) (hs : reg.Throughout reg.Selects o r) (hk : r.kind = .list)
    {key : String} : (keyLeaf? ((reg.kept o r).map Placed.data) key).isSome = true ↔
      ∃ p ∈ reg.content o r, p.place.node.kind = .leaf ∧ p.place.node.name = key := by
  have hany : r.kind ≠ .anydata := by simp [hk]
  have htest {p : Placed} (hp : p ∈ reg.content o r) :
      (p.data.shape == .singleLeaf && p.data.key.name == key) = true ↔
        p.place.node.kind = .leaf ∧ p.place.node.name = key := by
    rw [Bool.and_eq_true, beq_iff_eq, beq_iff_eq, h.shape_eq_singleLeaf_iff hr hp,
      key_name_of_mem_content hp]
  rw [keyLeaf?, Option.isSome_bind, Option.any_eq_true]
  constructor
  · rintro ⟨n, hn, -⟩
    obtain ⟨p, hp, rfl⟩ := List.mem_map.1 (List.mem_of_find?_eq_some hn)
    have hpc := List.mem_of_mem_latest hp
    have hfound := List.find?_some hn
    exact ⟨p, hpc, (htest hpc).1 hfound⟩
  · rintro ⟨p, hp, hleaf, rfl⟩
    -- The node may have been replaced, but only by another node of the same leaf.
    have hkey : p.data.key ∈ (reg.kept o r).map fun p => p.data.key :=
      List.mem_map_key_latest.2 (List.mem_map_of_mem (f := fun p : Placed => p.data.key) hp)
    obtain ⟨q, hq, hqp⟩ := List.mem_map.1 hkey
    have hqc := List.mem_of_mem_latest hq
    have hl : r.isLayer = false := by simp [Ref.isLayer_eq_false_iff, hk]
    have hplace := h.place_eq_of_key_eq hr hh hs hany
      (h.nodup_offers r (Ref.mem_refs_iff.2 hr) hl hh.kind_ne_module) hqc hp hqp
    obtain ⟨n, hn⟩ : ∃ n, ((reg.kept o r).map Placed.data).find?
        (fun c => c.shape == .singleLeaf && c.key.name == p.place.node.name) = some n :=
      Option.isSome_iff_exists.1 (List.find?_isSome.2 ⟨q.data, List.mem_map_of_mem hq,
        (htest hqc).2 (by rw [hplace]; exact ⟨hleaf, rfl⟩)⟩)
    refine ⟨n, hn, ?_⟩
    obtain ⟨p', hp', rfl⟩ := List.mem_map.1 (List.mem_of_find?_eq_some hn)
    have hpc' := List.mem_of_mem_latest hp'
    have hfound := List.find?_some hn
    simpa using h.isSome_value? hr hpc' ((htest hpc').1 hfound).1

/-! ### Objects -/

theorem writeField_eq {f : Field} {type : Class} (hf : reg.FieldFor type child f)
    (ho : o.type = type) (a : Assembly) :
    reg.writeField o child a =
      if child.kind.isLeafLike = true then (o.leafValues child.name).foldlM (writeLeaf child) a
      else if child.kind = .choice then
        (o.objects child.name).foldlM (fun a x => do
          reg.writeContent x (← reg.selectedCase child x) a) a
      else (o.objects child.name).foldlM (fun a x => reg.writeObject x child a) a := by
  have htarget : Result.ofField (f.checkTarget o) = .ok () := by
    rw [hf.checkTarget_eq ho]
    rfl
  have hsuits := hf.suits
  rw [writeField, ho, hf.found]
  simp only [bind, Except.bind, htarget, ← hf.name_eq]
  cases hft : f.type <;> rw [hft] at hsuits <;> cases hk : child.kind <;>
    simp_all [FieldType.suits, Kind.isLeafLike, Kind.isSingleObject]

theorem writeContent_eq (o : Object) (r : Ref) (a : Assembly) :
    reg.writeContent o r a = (do
      let a ← r.declared.foldlM (fun a c => reg.writeField o c a) a
      r.augments.foldlM (fun a augment =>
        match augment.className.bind o.augmentation? with
        | some x => reg.writeContent x augment a
        | none => pure a) a) := by
  rw [writeContent, Ref.declared]
  refine bind_congr fun b => ?_
  refine congrArg (fun f => r.augments.foldlM f b) (funext fun a => funext fun augment => ?_)
  split
  · next x hx =>
    change reg.writeContent x augment a = _
    rw [hx]
  · next hx => rw [hx]

/-- What stands below the data node of an object. -/
def writeInside (reg : Registry) (o : Object) (r : Ref) (a : Assembly) :
    Result Assembly := do
  let a ← reg.writeContent o r a
  if r.kind = .anydata then reg.writePayloads o r a else pure a

theorem writeObject_eq (o : Object) (r : Ref) (a : Assembly) :
    reg.writeObject o r a = (do (← writeInside reg o r (← a.enter r none)).exit) := by
  rw [writeObject]
  simp only [writeInside, bind_assoc]
  by_cases hk : r.kind = .anydata
  · simp only [if_pos hk]
  · simp only [if_neg hk]

theorem writeContent_of_childless (hd : r.declared = []) (ha : r.augments = []) (a : Assembly) :
    reg.writeContent o r a = pure a := by
  rw [writeContent_eq, hd, ha]
  rfl

/-- Below an anydata node there are only payloads. -/
theorem writeInside_of_anydata (hl : r.model.Linked) (hk : r.kind = .anydata) :
    writeInside reg o r = fun a => reg.writePayloads o r a := by
  obtain ⟨hdeclared, haugments⟩ := Ref.childless hl (by simp [hk, Kind.canHoldChildren])
  funext a
  simp only [writeInside, if_pos hk]
  rw [writeContent_of_childless hdeclared haugments]
  rfl

theorem writeInside_of_content (hk : r.kind ≠ .anydata) :
    writeInside reg o r = fun a => reg.writeContent o r a := by
  funext a
  simp only [writeInside, if_neg hk, bind_pure]

theorem writePayloads_eq (o : Object) (r : Ref) (a : Assembly) :
    reg.writePayloads o r a = (do
      let holder ← Result.found (.noAnydataClass r.path) r.className
      o.anydata.foldlM (fun a x => do
        reg.writeObject x (← reg.payloadNode holder x) a) a) := by
  rw [writePayloads]
  simp

/-- What the content of an object needs, apart from its payloads and keys. -/
private def Filled (reg : Registry) (o : Object) (r : Ref) : Prop :=
  (∀ c ∈ r.declared, (c.kind = .choice → ∀ x ∈ o.objects c.name,
      ∃ s, (reg.nodeOfClass? x.className = some s ∧ s ∈ c.cases) ∧ reg.Writable x s) ∧
    (c.kind ≠ .choice → c.kind.isLeafLike = false → ∀ x ∈ o.objects c.name, reg.Writable x c)) ∧
  ∀ augment ∈ r.augments, ∀ x, augment.className.bind o.augmentation? = some x →
    reg.Writable x augment

private theorem Filled.selects (h : Filled reg o r) : reg.Selects o r := by
  intro c hc hk x hx
  obtain ⟨s, ⟨hnode, hs⟩, -⟩ := (h.1 c hc).1 hk x hx
  exact ⟨s, hs, hnode⟩

/-- The parts of an object are parts of its content or payloads. -/
private theorem Filled.part (h : Filled reg o r) (hp : reg.Part o r x s) :
    reg.Writable x s ∨ r.kind = .anydata ∧ x ∈ o.anydata ∧ reg.payloadOf? r x = some s := by
  refine forall_part
    (P := fun x s => reg.Writable x s ∨ r.kind = .anydata ∧ x ∈ o.anydata ∧ reg.payloadOf? r x = some s)
    (fun c hc hk hl x hx => .inl ((h.1 c hc).2 hk hl x hx)) (fun c hc hk x hx s hnode => ?_)
    (fun augment ha x hx => .inl (h.2 augment ha x hx))
    (fun hk x hx s hs => .inr ⟨hk, hx, hs⟩) hp
  obtain ⟨s', ⟨hnode', -⟩, hw⟩ := (h.1 c hc).1 hk x hx
  rw [hnode] at hnode'
  cases hnode'
  exact .inl hw

/-- Nothing is missing in an object exactly if nothing is missing in its content, its keys and its
payloads. -/
private theorem writable_iff : reg.Writable o r ↔
    Filled reg o r ∧
      (r.kind = .list → ∀ key ∈ r.keys,
        ∃ p ∈ reg.content o r, p.place.node.kind = .leaf ∧ p.place.node.name = key) ∧
      (r.kind = .anydata → ∀ x ∈ o.anydata, ∃ s, reg.payloadOf? r x = some s ∧ reg.Writable x s) := by
  constructor
  · intro hw
    refine ⟨⟨fun c hc => ⟨fun hk x hx => ?_, fun hk hl x hx => ?_⟩, fun augment ha x hx => ?_⟩,
      hw.here.keys, fun hk x hx => ?_⟩
    · obtain ⟨s, hs, hnode⟩ := hw.here.selects c hc hk x hx
      exact ⟨s, ⟨hnode, hs⟩, hw.part (.layer (case_mem_slots_iff.2 ⟨hc, hk, hx, hnode⟩))⟩
    · exact hw.part (.field (field_mem_slots_iff.2 ⟨hc, hk⟩) hl hx)
    · exact hw.part (.layer (augment_mem_slots_iff.2 ⟨ha, hx⟩))
    · obtain ⟨s, hs⟩ := hw.here.payloads hk x hx
      exact ⟨s, hs, hw.part (.payload (payloads_mem_slots_iff.2 hk) hx hs)⟩
  · rintro ⟨hf, hkeys, hpayloads⟩
    refine throughout_iff.2 ⟨⟨hf.selects, hkeys, fun hk x hx => ?_⟩, fun x s hp => ?_⟩
    · obtain ⟨s, hs, -⟩ := hpayloads hk x hx
      exact ⟨s, hs⟩
    · rcases hf.part hp with hw | ⟨hk, hx, hnode⟩
      · exact hw
      · obtain ⟨s', hs', hw⟩ := hpayloads hk x hx
        rw [hnode] at hs'
        cases hs'
        exact hw

/-- The data nodes of the case that an object selects. -/
private def selectedNodes (reg : Registry) (x : Object) : List Node :=
  match reg.nodeOfClass? x.className with
  | some s => (reg.content x s).map Placed.data
  | none => []

/-- The data nodes of an augmentation, if there is one. -/
private def augmentationNodes (reg : Registry) (o : Object) (augment : Ref) : List Node :=
  match augment.className.bind o.augmentation? with
  | some x => (reg.content x augment).map Placed.data
  | none => []

private theorem map_data_under (ps : List Placed) (l : Layer) :
    (ps.map fun p => p.under l).map Placed.data = ps.map Placed.data := by
  rw [List.map_map]
  rfl

private theorem map_data_slotsOf (c : Ref) :
    ((reg.slotsOf o c).flatMap (reg.slotContent o r)).map Placed.data =
      if c.kind = .choice then (o.objects c.name).flatMap (selectedNodes reg)
      else if c.kind.isLeafLike = true then (o.leafValues c.name).map (leafNode c)
      else (o.objects c.name).map fun x => reg.objectNode x c := by
  rw [flatMap_slotsOf]
  split
  · rw [List.map_flatMap]
    refine congrArg (fun g => (o.objects c.name).flatMap g) (funext fun x => ?_)
    rw [selectedNodes]
    cases reg.nodeOfClass? x.className with
    | none => rfl
    | some s => exact map_data_under _ _
  · rw [slotContent]
    split <;> simp [leafContent, memberContent]

private theorem map_data_augmentSlots :
    ((augmentSlots o r).flatMap (reg.slotContent o r)).map Placed.data =
      r.augments.flatMap (augmentationNodes reg o) := by
  rw [flatMap_augmentSlots, List.map_flatMap]
  refine congrArg (fun g => r.augments.flatMap g) (funext fun augment => ?_)
  rw [augmentationNodes]
  cases augment.className.bind o.augmentation? with
  | none => rfl
  | some x => exact map_data_under _ _

section Classified

variable (h : reg.Classified m) (hr : r.model = m) (hh : HoldsObjects r)
include h hr hh

/-- The field of a child writes what comes from its slots. -/
private theorem Classified.writes_field (ht : reg.Typed o r) (hc : child ∈ r.declared)
    (hobject : ∀ x s, sizeOf x < sizeOf o → s.model = m → HoldsObjects s → reg.Typed x s →
      Writes (fun a => reg.writeObject x s a) (reg.Writable x s) [reg.objectNode x s])
    (hcontent : ∀ x s, sizeOf x < sizeOf o → s.model = m → HoldsObjects s → s.isLayer = true →
      reg.Typed x s → Writes (fun a => reg.writeContent x s a) (reg.Writable x s)
        ((reg.content x s).map Placed.data)) :
    Writes (fun a => reg.writeField o child a)
      ((child.kind = .choice → ∀ x ∈ o.objects child.name,
          ∃ s, (reg.nodeOfClass? x.className = some s ∧ s ∈ child.cases) ∧ reg.Writable x s) ∧
        (child.kind ≠ .choice → child.kind.isLeafLike = false →
          ∀ x ∈ o.objects child.name, reg.Writable x child))
      (((reg.slotsOf o child).flatMap (reg.slotContent o r)).map Placed.data) := by
  obtain ⟨hclass, -⟩ := ht.here
  obtain ⟨f, hf⟩ := h.exists_field hr hh hclass hc
  have hm : child.model = m := (Ref.model_of_mem_children (List.mem_filter.1 hc).1).trans hr
  simp only [writeField_eq hf rfl, map_data_slotsOf]
  -- The kind of the child decides what its field holds: values, cases or inner objects.
  by_cases hleaf : child.kind.isLeafLike = true
  · have hk : child.kind ≠ .choice := by
      rintro hk
      simp [hk, Kind.isLeafLike] at hleaf
    simp only [hleaf, hk, if_true, if_false]
    refine (Writes.foldlM (P := fun _ => True) (n := fun v => [leafNode child v])
      fun v _ => writes_leaf hleaf v).congr (by simp) ?_
    exact List.map_eq_flatMap.symm
  · have hinner : child.kind.isLeafLike = false := by simpa using hleaf
    by_cases hk : child.kind = .choice
    · simp only [hk, if_true]
      refine (Writes.foldlM (P := fun x => ∃ s, reg.selectedCase child x = .ok s ∧ reg.Writable x s)
        (n := selectedNodes reg) fun x hx => ?_).congr ?_ rfl
      · refine Writes.found fun s hs => ?_
        obtain ⟨hnode, hcase⟩ := (h.selectedCase_eq_ok_iff hm).1 hs
        have hslot : .layer (.case child s) x ∈ reg.slots o r :=
          case_mem_slots_iff.2 ⟨hc, hk, hx, hnode⟩
        have hkind : s.kind = .case := by simpa using (List.mem_filter.1 hcase).2
        rw [selectedNodes, hnode]
        exact hcontent x s (sizeOf_lt_of_mem_slots hslot)
          (h.sole.nodeOfClass?_eq_some_iff.1 hnode).1 (.inr (.inr (.inr (.inl hkind))))
          (by simp [Ref.isLayer_iff, hkind]) (ht.part (.layer hslot))
      · simp [h.selectedCase_eq_ok_iff hm]
    · simp only [hk, hinner, Bool.false_eq_true, if_false]
      refine (Writes.foldlM (P := fun x => reg.Writable x child)
        (n := fun x => [reg.objectNode x child]) fun x hx => ?_).congr (by simp [hk]) ?_
      · exact hobject x child (Object.sizeOf_lt_of_mem_members hx) hm
          (hf.holdsObjects hinner hk)
          (ht.part (.field (field_mem_slots_iff.2 ⟨hc, hk⟩) hinner hx))
      · exact List.map_eq_flatMap.symm

/-- The children of a schema node and its augments write what comes from their slots. -/
private theorem Classified.writes_content (ht : reg.Typed o r) (hany : r.kind ≠ .anydata)
    (hobject : ∀ x s, sizeOf x < sizeOf o → s.model = m → HoldsObjects s → reg.Typed x s →
      Writes (fun a => reg.writeObject x s a) (reg.Writable x s) [reg.objectNode x s])
    (hcontent : ∀ x s, sizeOf x < sizeOf o → s.model = m → HoldsObjects s → s.isLayer = true →
      reg.Typed x s → Writes (fun a => reg.writeContent x s a) (reg.Writable x s)
        ((reg.content x s).map Placed.data)) :
    Writes (fun a => reg.writeContent o r a) (Filled reg o r)
      ((reg.content o r).map Placed.data) := by
  have hl : r.model.Linked := hr.symm ▸ h.sole.linked
  rw [funext fun a => writeContent_eq o r a]
  refine ((Writes.foldlM fun c hc => h.writes_field hr hh ht hc hobject hcontent).bind
    (Writes.foldlM (P := fun augment => ∀ x, augment.className.bind o.augmentation? = some x →
      reg.Writable x augment) (n := augmentationNodes reg o) fun augment ha => ?_)).congr
    Iff.rfl ?_
  · rw [augmentationNodes]
    cases hx : augment.className.bind o.augmentation? with
    | none => exact Writes.nothing.congr (by simp) rfl
    | some x =>
      have hslot : .layer (.augment augment) x ∈ reg.slots o r :=
        augment_mem_slots_iff.2 ⟨ha, hx⟩
      have hlayer := Ref.augment_mem_layers ha
      exact (hcontent x augment (sizeOf_lt_of_mem_slots hslot)
        ((Ref.model_of_mem_augments ha).trans hr) (hh.of_mem_layers hl hlayer)
        (Ref.isLayer_of_mem_layers hl hlayer) (ht.part (.layer hslot))).congr (by simp) rfl
  · rw [content_eq, slots, if_neg hany, List.append_nil, List.flatMap_append, List.map_append,
      map_data_augmentSlots, List.flatMap_assoc, List.map_flatMap]

omit hh in
/-- The payloads of an anydata node write their data nodes. -/
private theorem Classified.writes_payloads (ht : reg.Typed o r) (hany : r.kind = .anydata)
    (hobject : ∀ x s, sizeOf x < sizeOf o → s.model = m → HoldsObjects s → reg.Typed x s →
      Writes (fun a => reg.writeObject x s a) (reg.Writable x s) [reg.objectNode x s]) :
    Writes (fun a => reg.writePayloads o r a)
      (∀ x ∈ o.anydata, ∃ s, reg.payloadOf? r x = some s ∧ reg.Writable x s)
      ((reg.payloadContent o r).map Placed.data) := by
  obtain ⟨holder, hholder⟩ : ∃ holder, r.className = some holder := by
    obtain ⟨holder, hholder, -⟩ := Option.bind_eq_some_iff.1 ht.here.1
    exact ⟨holder, hholder⟩
  have hpayload (x : Object) (hx : x ∈ o.anydata) :
      Writes (fun a => do reg.writeObject x (← reg.payloadNode holder x) a)
        (∃ s, reg.payloadNode holder x = .ok s ∧ reg.Writable x s)
        ((reg.payloadOf? r x).map (reg.objectNode x)).toList := by
    refine Writes.found fun s hs => ?_
    rw [payloadNode_eq_ok_iff hholder] at hs
    rw [hs]
    have hmem := mem_payloads_of_payloadOf? hs
    obtain ⟨_, _, -, -, hnode⟩ := mem_payloads_iff.1 hmem
    exact hobject x s (Object.sizeOf_lt_of_mem_anydata hx)
      (h.sole.nodeOfClass?_eq_some_iff.1 hnode).1 (h.holdsObjects_of_mem_payloads hr hany hmem)
      (ht.part (.payload (payloads_mem_slots_iff.2 hany) hx hs))
  rw [funext fun a => writePayloads_eq o r a, hholder]
  refine (Writes.foldlM hpayload).congr ?_ ?_
  · simp only [payloadNode_eq_ok_iff hholder]
  · rw [payloadContent, List.map_filterMap, List.filterMap_eq_flatMap_toList]
    simp [Option.map_map, Function.comp_def]

/-- Writing an object succeeds exactly if nothing is missing in it, and places its data node. -/
theorem Classified.writes_object (ht : reg.Typed o r) :
    Writes (fun a => reg.writeObject o r a) (reg.Writable o r) [reg.objectNode o r] := by
  -- Layers have no data node of their own: their content is written in place.
  suffices hboth : Writes (fun a => reg.writeObject o r a) (reg.Writable o r) [reg.objectNode o r] ∧
      (r.isLayer = true → Writes (fun a => reg.writeContent o r a) (reg.Writable o r)
        ((reg.content o r).map Placed.data)) from hboth.1
  induction hn : sizeOf o using Nat.strongRecOn generalizing o r with
  | ind n ih =>
    have hobject : ∀ x s, sizeOf x < sizeOf o → s.model = m → HoldsObjects s → reg.Typed x s →
        Writes (fun a => reg.writeObject x s a) (reg.Writable x s) [reg.objectNode x s] :=
      fun x s hx hs hsh hxt => (ih _ (hn ▸ hx) hs hsh hxt rfl).1
    have hcontent : ∀ x s, sizeOf x < sizeOf o → s.model = m → HoldsObjects s → s.isLayer = true →
        reg.Typed x s → Writes (fun a => reg.writeContent x s a) (reg.Writable x s)
          ((reg.content x s).map Placed.data) :=
      fun x s hx hs hsh hl hxt => (ih _ (hn ▸ hx) hs hsh hxt rfl).2 hl
    have hinside : Writes (writeInside reg o r)
        (Filled reg o r ∧ (r.kind = .anydata →
          ∀ x ∈ o.anydata, ∃ s, reg.payloadOf? r x = some s ∧ reg.Writable x s))
        ((reg.content o r).map Placed.data) := by
      by_cases hany : r.kind = .anydata
      · obtain ⟨hdeclared, haugments⟩ := h.childless_of_anydata hr hany
        rw [writeInside_of_anydata (hr.symm ▸ h.sole.linked) hany]
        refine (h.writes_payloads hr ht hany hobject).congr
          (by simp [Filled, hdeclared, haugments, hany]) ?_
        rw [content_eq, h.slots_of_anydata hr hany, List.flatMap_singleton, slotContent]
      · rw [writeInside_of_content hany]
        exact (h.writes_content hr hh ht hany hobject hcontent).congr (by simp [hany]) rfl
    constructor
    · rw [funext fun a => writeObject_eq o r a, objectNode_eq]
      refine (writes_inner hh.isLeafLike_eq hinside).congr ?_ rfl
      rw [writable_iff, and_assoc]
      refine and_congr_right fun hf => ?_
      rw [and_comm]
      refine and_congr_left fun _ => forall_congr' fun hk => ?_
      have hselects : reg.Throughout reg.Selects o r := by
        refine throughout_iff.2 ⟨hf.selects, fun x s hp => ?_⟩
        rcases hf.part hp with hw | ⟨hany, -⟩
        · exact hw.selects
        · rw [hk] at hany
          cases hany
      simp only [← h.keyLeaf?_isSome_iff hr hh hselects hk, kept, List.latest_map]
    · intro hlayer
      have hlist : r.kind ≠ .list := by
        rintro hk
        simp [Ref.isLayer_iff, hk] at hlayer
      have hany : r.kind ≠ .anydata := by
        rintro hk
        simp [Ref.isLayer_iff, hk] at hlayer
      exact (h.writes_content hr hh ht hany hobject hcontent).congr
        (by rw [writable_iff]; simp [hlist, hany]) rfl

end Classified

end Registry

end YangBinding
