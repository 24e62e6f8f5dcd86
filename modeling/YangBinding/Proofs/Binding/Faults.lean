import YangBinding.Proofs.Binding.Outline

/-!
# What keeps an object from being written

The walk over the schema fails only where something is wrong with the object or with one inside: with
a field, a payload or the key of a list entry. What is wrong is told from the objects and the schema
alone, without any steps. If nothing is, the walk has put what is left of the outline of the object, and
it has left every data node that it entered.

## Main definitions

* `Registry.FieldFault`, `Registry.ContentFault`, `Registry.Fault`, `Registry.Faulty` — what is wrong
  with a field, with the content of an object, with an object, and with an object or one inside
* `Registry.PutsUnless` — an operation puts nodes unless something is at fault

## Main results

* `Registry.PutsUnless.bind`, `Registry.PutsUnless.foldlM`, `Registry.PutsUnless.entered` — what a
  sequence of operations puts, and what can be wrong with it
* `Registry.throughout_sound` — where nothing is wrong, nothing is wrong inside
* `Registry.Reachable.puts_object` — the walk over an object puts what is left of its outline
-/

namespace YangBinding

open Schema (DataChild Kind Layer Model Ref)
open YangBinding.Tree (Assembly Node keyLeaf?)

namespace Registry

/-! ### Faults -/

/-- What is wrong with the field of an object for a child of its schema node. -/
inductive FieldFault (reg : Registry) (o : Object) (child : Ref) : Error → Prop
  /-- The class has no field of that name. -/
  | absent (field : o.type.field? child.name = none) :
      FieldFault reg o child (.resolution (.noField o.type.className child.kind child.name))
  /-- The field holds something else than the child declares. -/
  | unsuited {f : Field} (field : o.type.field? child.name = some f)
      (suits : f.type.suits child.kind = false) :
      FieldFault reg o child
        (.resolution (.fieldMismatch f.name o.type.className f.type child.kind))
  /-- The field belongs to objects of another type. -/
  | foreign {f : Field} (field : o.type.field? child.name = some f)
      (owner : o.type.typeName ≠ f.owner) :
      FieldFault reg o child (.field (.wrongTarget f.owner o.className))
  /-- The class of an object in a choice is not bound. -/
  | unbound {x : Object} (choice : child.kind = .choice) (mem : x ∈ o.objects child.name)
      (node : reg.nodeOfClass? x.className = none) :
      FieldFault reg o child (.resolution (.noNodeForClass x.className))
  /-- The class of an object in a choice is bound to something else than a case of the choice. -/
  | noCase {x : Object} {s : Ref} (choice : child.kind = .choice) (mem : x ∈ o.objects child.name)
      (node : reg.nodeOfClass? x.className = some s) (other : s ∉ child.cases) :
      FieldFault reg o child (.resolution (.notACase x.className child.path))

/-- What is wrong with what an object holds as the content of a schema node, the objects inside
aside. -/
inductive ContentFault (reg : Registry) (o : Object) (r : Ref) : Error → Prop
  | field {c : Ref} {e : Error} (declared : c ∈ r.declared) (fault : reg.FieldFault o c e) :
      ContentFault reg o r e
  /-- An anydata holder without a class has no payloads. -/
  | holder (anydata : r.kind = .anydata) (unbound : r.className = none) :
      ContentFault reg o r (.resolution (.noAnydataClass r.path))
  /-- A payload is not registered for its holder, or its class is not bound. -/
  | payload {x : Object} {holder : String} (anydata : r.kind = .anydata)
      (bound : r.className = some holder) (mem : x ∈ o.anydata)
      (node : reg.payloadOf? r x = none) :
      ContentFault reg o r (.resolution (.notAPayload x.className holder))

/-- What is wrong with an object where it becomes the data node of a schema node. -/
inductive Fault (reg : Registry) (o : Object) (r : Ref) : Error → Prop
  | content {e : Error} (fault : reg.ContentFault o r e) : Fault reg o r e
  /-- No child of a list entry is a leaf that is named as a key. -/
  | key {key : String} (list : r.kind = .list) (mem : key ∈ r.keys)
      (leaf : keyLeaf? (((reg.outlines o r).map Outline.node).latest Node.key) key = none) :
      Fault reg o r (.structural (.missingKeyLeaf r.name key))
  /-- An object is no value, which an entry of a leaf-list needs. -/
  | value (leafList : r.kind = .leafList) :
      Fault reg o r (.structural (.entryWithoutValue r.name))

/-- Something is wrong with an object or with one inside. -/
inductive Faulty (reg : Registry) : Object → Ref → Error → Prop
  | here {o : Object} {r : Ref} {e : Error} (fault : reg.Fault o r e) : Faulty reg o r e
  | part {o x : Object} {r s : Ref} {e : Error} (part : reg.Part o r x s)
      (faulty : Faulty reg x s e) : Faulty reg o r e

variable {reg : Registry} {o x : Object} {r s child choice : Ref} {e : Error}

/-! ### Operations that put nodes -/

/-- An operation puts nodes at the current position, wherever data nodes may be put, unless something
is at fault. Then it fails with one of the faults. -/
structure PutsUnless (f : Assembly → Result Assembly) (faults : Error → Prop) (nodes : List Node) :
    Prop where
  puts : ∀ a a' : Assembly, a.Open → f a = .ok a' → a' = a.placeAll nodes
  sound : ∀ a a' : Assembly, a.Open → f a = .ok a' → ∀ e, ¬ faults e
  fails : ∀ (a : Assembly) e, a.Open → f a = .error e → faults e

namespace PutsUnless

variable {f g : Assembly → Result Assembly} {F G : Error → Prop} {ns ms : List Node}

/-- Faults may be told more fully, as long as there are none of them where something has been put. -/
theorem of_sound (h : PutsUnless f F ns) (hFG : ∀ e, F e → G e)
    (hsound : ∀ a a' : Assembly, a.Open → f a = .ok a' → ∀ e, ¬ G e) : PutsUnless f G ns where
  puts := h.puts
  sound := hsound
  fails a e ha hf := hFG e (h.fails a e ha hf)

/-- Faults may be told more fully, as long as some are there exactly if some were there before. -/
theorem imp (h : PutsUnless f F ns) (hFG : ∀ e, F e → G e) (hGF : ∀ e, G e → ∃ e, F e)
    (hn : ns = ms) : PutsUnless f G ms := by
  subst hn
  refine h.of_sound hFG fun a a' ha hf e he => ?_
  obtain ⟨e', he'⟩ := hGF e he
  exact h.sound a a' ha hf e' he'

theorem congr (h : PutsUnless f F ns) (hF : ∀ e, F e ↔ G e) (hn : ns = ms) : PutsUnless f G ms :=
  h.imp (fun e => (hF e).1) (fun e he => ⟨e, (hF e).2 he⟩) hn

/-- What is always written has no faults. -/
theorem of_writes (h : Writes f True ns) : PutsUnless f (fun _ => False) ns where
  puts a a' ha hf := ((h a ha a').1 hf).2
  sound _ _ _ _ _ := id
  fails a e ha hf := by
    have hok := (h a ha (a.placeAll ns)).2 ⟨trivial, rfl⟩
    cases hf.symm.trans hok

theorem nothing : PutsUnless pure (fun _ => False) [] := of_writes .nothing

/-- What is always refused puts nothing that could be wrong. -/
theorem refused (h : ∀ a, a.Open → f a = .error e) : PutsUnless f (· = e) ns where
  puts a a' ha hf := by cases (h a ha).symm.trans hf
  sound a a' ha hf := by cases (h a ha).symm.trans hf
  fails a e' ha hf := by
    cases (h a ha).symm.trans hf
    rfl

/-- Of two operations, one after the other, either may be at fault. -/
theorem bind (hf : PutsUnless f F ns) (hg : PutsUnless g G ms) :
    PutsUnless (fun a => f a >>= g) (fun e => F e ∨ G e) (ns ++ ms) where
  puts a a' ha h := by
    obtain ⟨b, hb, h⟩ := Except.bind_eq_ok_iff.1 h
    obtain rfl := hf.puts a b ha hb
    rw [Assembly.placeAll_append]
    exact hg.puts _ a' (ha.placeAll ns) h
  sound a a' ha h e := by
    obtain ⟨b, hb, h⟩ := Except.bind_eq_ok_iff.1 h
    obtain rfl := hf.puts a b ha hb
    rintro (he | he)
    · exact hf.sound a _ ha hb e he
    · exact hg.sound _ a' (ha.placeAll ns) h e he
  fails a e ha h := by
    obtain h | ⟨b, hb, h⟩ := Except.bind_eq_error_iff.1 h
    · exact .inl (hf.fails a e ha h)
    · obtain rfl := hf.puts a b ha hb
      exact .inr (hg.fails _ e (ha.placeAll ns) h)

/-- An operation for each item of a list puts the nodes of all items, unless one of them is at
fault. -/
theorem foldlM {α : Type} {f : Assembly → α → Result Assembly} {F : α → Error → Prop}
    {n : α → List Node} {xs : List α} (h : ∀ x ∈ xs, PutsUnless (fun a => f a x) (F x) (n x)) :
    PutsUnless (fun a => xs.foldlM f a) (fun e => ∃ x ∈ xs, F x e) (xs.flatMap n) := by
  induction xs with
  | nil => exact nothing.congr (by simp) rfl
  | cons x xs ih =>
    have hx := h x List.mem_cons_self
    have hxs := ih fun y hy => h y (List.mem_cons_of_mem _ hy)
    simp only [List.foldlM_cons]
    exact (hx.bind hxs).congr (by simp) rfl

/-- What is done after something else has been found out. -/
theorem found {α : Type} {x : Result α} {f : α → Assembly → Result Assembly} {F : α → Error → Prop}
    (h : ∀ v, x = .ok v → PutsUnless (f v) (F v) ns) :
    PutsUnless (fun a => x >>= fun v => f v a) (fun e => x = .error e ∨ ∃ v, x = .ok v ∧ F v e) ns where
  puts a a' ha hf := by
    obtain ⟨v, hv, hf⟩ := Except.bind_eq_ok_iff.1 hf
    exact (h v hv).puts a a' ha hf
  sound a a' ha hf e := by
    obtain ⟨v, hv, hf⟩ := Except.bind_eq_ok_iff.1 hf
    rintro (he | ⟨w, hw, he⟩)
    · cases hv.symm.trans he
    · cases hv.symm.trans hw
      exact (h v hv).sound a a' ha hf e he
  fails a e ha hf := by
    obtain hx | ⟨v, hv, hf⟩ := Except.bind_eq_error_iff.1 hf
    · exact .inl hx
    · exact .inr ⟨v, hv, (h v hv).fails a e ha hf⟩

/-- What is only done unless it is refused beforehand. -/
theorem guarded {c : Prop} [Decidable c] {cause : StructuralError} (h : PutsUnless f F ns) :
    PutsUnless (fun a => if c then Result.refuse cause >>= fun _ : Unit => f a else f a)
      (fun e => c ∧ e = .structural cause ∨ ¬ c ∧ F e) ns := by
  by_cases hc : c
  · simp only [if_pos hc]
    exact (refused fun _ _ => rfl).congr (by simp [hc]) rfl
  · simp only [if_neg hc]
    exact h.congr (by simp [hc]) rfl

/-- What is entered, filled and left, and is no leaf, is a node; only the keys of a list entry may be
missing besides what is at fault inside. -/
theorem entered (hk : r.kind.isLeafLike = false) (hf : PutsUnless f F ns) :
    PutsUnless (fun a => do (← f (← a.enter r none)).exit)
      (fun e => F e ∨ r.kind = .list ∧ ∃ key ∈ r.keys, keyLeaf? (ns.latest Node.key) key = none ∧
        e = .structural (.missingKeyLeaf r.name key))
      [innerNode r (ns.latest Node.key)] := by
  have henter {a : Assembly} (ha : a.Open) : (do (← f (← a.enter r none)).exit) =
      f { a with stack := { schema := r } :: a.stack } >>= Assembly.exit := by
    rw [Assembly.enter_eq ha, Assembly.nodeValue_none hk]
    rfl
  have hopen (a : Assembly) := Assembly.open_frame (a := a) { schema := r } hk
  -- Once the frame has been filled, all depends on what it becomes.
  have hexit {a b : Assembly} (hb : f { a with stack := { schema := r } :: a.stack } = .ok b) :
      b.exit = (do
        let n ← Tree.Frame.node { schema := r, children := ns.latest Node.key }
        pure (a.place n)) := by
    rw [hf.puts _ b (hopen a) hb, Assembly.placeAll_frame, ← Tree.Children.ofList_eq]
    rfl
  refine ⟨fun a a' ha h => ?_, fun a a' ha h e => ?_, fun a e ha h => ?_⟩
  · rw [henter ha] at h
    obtain ⟨b, hb, h⟩ := Except.bind_eq_ok_iff.1 h
    rw [hexit hb] at h
    obtain ⟨n, hn, ⟨⟩⟩ := Except.bind_eq_ok_iff.1 h
    obtain ⟨-, rfl⟩ := (frame_node_eq_ok_iff (by exact hk)).1 hn
    rfl
  · rw [henter ha] at h
    obtain ⟨b, hb, h⟩ := Except.bind_eq_ok_iff.1 h
    rw [hexit hb] at h
    obtain ⟨n, hn, -⟩ := Except.bind_eq_ok_iff.1 h
    obtain ⟨hkeys, -⟩ := (frame_node_eq_ok_iff (by exact hk)).1 hn
    rintro (he | ⟨hlist, key, hkey, hnone, -⟩)
    · exact hf.sound _ b (hopen a) hb e he
    · have hsome := hkeys hlist key hkey
      rw [hnone] at hsome
      cases hsome
  · rw [henter ha] at h
    obtain hinside | ⟨b, hb, h⟩ := Except.bind_eq_error_iff.1 h
    · exact .inl (hf.fails _ e (hopen a) hinside)
    · rw [hexit hb] at h
      obtain hn | ⟨n, -, ⟨⟩⟩ := Except.bind_eq_error_iff.1 h
      exact .inr (frame_node_eq_error hn)

end PutsUnless

/-! ### The walk over an object -/

theorem faulty_iff : reg.Faulty o r e ↔
    reg.Fault o r e ∨ ∃ x s, reg.Part o r x s ∧ reg.Faulty x s e := by
  constructor
  · rintro (hfault | ⟨hpart, hfaulty⟩)
    · exact .inl hfault
    · exact .inr ⟨_, _, hpart, hfaulty⟩
  · rintro (hfault | ⟨x, s, hpart, hfaulty⟩)
    · exact .here hfault
    · exact .part hpart hfaulty

/-- A data node of its own that is none of a leaf may lack keys besides what is wrong with the content of
the object. -/
theorem faulty_iff_of_inner (hk : r.kind.isLeafLike = false) : reg.Faulty o r e ↔
    (reg.ContentFault o r e ∨ ∃ x s, reg.Part o r x s ∧ reg.Faulty x s e) ∨
      r.kind = .list ∧ ∃ key ∈ r.keys,
        keyLeaf? (((reg.outlines o r).map Outline.node).latest Node.key) key = none ∧
          e = .structural (.missingKeyLeaf r.name key) := by
  rw [faulty_iff]
  constructor
  · rintro ((hfault | ⟨hlist, hkey, hnone⟩ | hleaf) | hpart)
    · exact .inl (.inl hfault)
    · exact .inr ⟨hlist, _, hkey, hnone, rfl⟩
    · simp [hleaf, Kind.isLeafLike] at hk
    · exact .inl (.inr hpart)
  · rintro ((hfault | hpart) | ⟨hlist, key, hkey, hnone, rfl⟩)
    · exact .inl (.content hfault)
    · exact .inr hpart
    · exact .inl (.key hlist hkey hnone)

/-- With the content of a layer nothing is wrong but what is wrong in it. -/
theorem faulty_iff_of_layer (hl : r.isLayer = true) : reg.Faulty o r e ↔
    reg.ContentFault o r e ∨ ∃ x s, reg.Part o r x s ∧ reg.Faulty x s e := by
  have hk : r.kind.isLeafLike = false ∧ r.kind ≠ .list := by
    rcases Ref.isLayer_iff.1 hl with hk | hk | hk <;> simp [hk, Kind.isLeafLike]
  rw [faulty_iff_of_inner hk.1]
  simp [hk.2]

/-- The objects in the field of a child, each with the schema node whose content it holds: a choice has
the content of the nodes that its objects are bound to. -/
def FieldPart (reg : Registry) (o : Object) (child : Ref) (x : Object) (s : Ref) : Prop :=
  x ∈ o.objects child.name ∧
    if child.kind = .choice then reg.nodeOfClass? x.className = some s
    else child.kind.isLeafLike = false ∧ s = child

/-- The parts of an object are in its fields, its augmentations and its payloads. -/
theorem part_iff : reg.Part o r x s ↔
    (∃ c ∈ r.declared, reg.FieldPart o c x s) ∨
      (∃ augment ∈ r.augments, augment.className.bind o.augmentation? = some x ∧ s = augment) ∨
        (r.kind = .anydata ∧ x ∈ o.anydata ∧ reg.payloadOf? r x = some s) := by
  constructor
  · refine forall_part (P := fun x s => (∃ c ∈ r.declared, reg.FieldPart o c x s) ∨
      (∃ augment ∈ r.augments, augment.className.bind o.augmentation? = some x ∧ s = augment) ∨
        (r.kind = .anydata ∧ x ∈ o.anydata ∧ reg.payloadOf? r x = some s))
      (fun c hc hk hl x hx => ?_) (fun c hc hk x hx s hs => ?_) (fun augment ha x hx => ?_)
      fun hk x hx s hs => ?_
    · exact .inl ⟨c, hc, hx, by simp [hk, hl]⟩
    · exact .inl ⟨c, hc, hx, by simp [hk, hs]⟩
    · exact .inr (.inl ⟨augment, ha, hx, rfl⟩)
    · exact .inr (.inr ⟨hk, hx, hs⟩)
  · rintro (⟨c, hc, hx, hs⟩ | ⟨augment, ha, hx, rfl⟩ | ⟨hk, hx, hs⟩)
    · split at hs
      · next hk => exact .layer (case_mem_slots_iff.2 ⟨hc, hk, hx, hs⟩)
      · next hk =>
        obtain ⟨hl, rfl⟩ := hs
        exact .field (field_mem_slots_iff.2 ⟨hc, hk⟩) hl hx
    · exact .layer (augment_mem_slots_iff.2 ⟨ha, hx⟩)
    · exact .payload (payloads_mem_slots_iff.2 hk) hx hs

/-- Where nothing is wrong, nothing is wrong inside. -/
theorem throughout_sound (hsound : ∀ e, ¬ reg.Faulty o r e) :
    reg.Throughout (fun x s => ∀ e, ¬ reg.Fault x s e) o r := by
  have hfaulty : reg.Throughout (fun x s => ∀ e, ¬ reg.Faulty x s e) o r :=
    .of_inherited (fun hx hp e he => hx e (.part hp he)) hsound
  exact hfaulty.imp fun hx e he => hx e (.here he)

theorem fieldFault_of_fieldFor (h : fieldFor o.type child = .error e) : reg.FieldFault o child e := by
  obtain hfield | ⟨f, hf, h⟩ := Except.bind_eq_error_iff.1 h
  · obtain ⟨hnone, rfl⟩ := found_eq_error_iff.1 hfield
    exact .absent hnone
  · split at h
    · cases h
    · next hsuits =>
      cases h
      exact .unsuited (found_eq_ok_iff.1 hf) (by simpa using hsuits)

theorem fieldFault_of_checkTarget {f : Field} (hf : fieldFor o.type child = .ok f)
    (h : Result.ofField (f.checkTarget o) = .error e) : reg.FieldFault o child e := by
  unfold Field.checkTarget at h
  split at h
  · cases h
  · next howner =>
    cases h
    exact .foreign (fieldFor_eq_ok_iff.1 hf).1 howner

theorem exists_field_of_fieldFor {type : Class} {f : Field} (hf : fieldFor type child = .ok f) :
    f ∈ type.fields ∧ f.name = child.name := by
  have hfield := (fieldFor_eq_ok_iff.1 hf).1
  exact ⟨List.mem_of_find?_eq_some hfield, by simpa using List.find?_some hfield⟩

/-- What can be wrong with a field that is in order itself: an object in a choice selects none of its
cases, or something is wrong inside. -/
private def FieldInside (reg : Registry) (o : Object) (child : Ref) (e : Error) : Prop :=
  (child.kind = .choice ∧ ∃ x ∈ o.objects child.name, reg.selectedCase child x = .error e) ∨
    ∃ x s, reg.FieldPart o child x s ∧
      (child.kind = .choice → reg.selectedCase child x = .ok s) ∧ reg.Faulty x s e

/-- The values of a leaf or leaf-list are always written. -/
theorem puts_values (hk : child.kind.isLeafLike = true) (values : List LeafValue) :
    PutsUnless (fun a => values.foldlM (writeLeaf child) a) (fun _ => False)
      (values.map (leafNode child)) := by
  apply PutsUnless.of_writes
  exact (Writes.foldlM (P := fun _ => True) fun v _ => writes_leaf hk v).congr (by simp)
    List.map_eq_flatMap.symm

private theorem puts_leaves (hk : child.kind.isLeafLike = true) :
    PutsUnless (fun a => (o.leafValues child.name).foldlM (writeLeaf child) a)
      (reg.FieldInside o child) ((reg.slotOutlines o r (.field child)).map Outline.node) := by
  have hchoice : child.kind ≠ .choice := by
    intro hchoice
    simp [hchoice, Kind.isLeafLike] at hk
  refine (puts_values hk _).congr (fun e => ?_) ?_
  · -- No object stands in the field of a leaf.
    simp [FieldInside, FieldPart, hchoice, hk]
  · rw [slotOutlines, if_pos hk, List.map_map]
    refine List.map_congr_left fun v _ => ?_
    rw [Function.comp_apply, Outline.node]

/-- The objects of a container or list are put one after the other. -/
private theorem puts_members (hk : child.kind.isLeafLike = false) (hchoice : child.kind ≠ .choice)
    (hobject : ∀ x ∈ o.objects child.name,
      PutsUnless (fun a => reg.writeObject x child a) (reg.Faulty x child)
        [(reg.outline x { node := child }).node]) :
    PutsUnless (fun a => (o.objects child.name).foldlM (fun a x => reg.writeObject x child a) a)
      (reg.FieldInside o child) ((reg.slotOutlines o r (.field child)).map Outline.node) := by
  refine (PutsUnless.foldlM hobject).congr (fun e => ?_) ?_
  · simp [FieldInside, FieldPart, hchoice, hk, and_assoc]
  · rw [slotOutlines, if_neg (by simp [hk]), List.map_map, ← List.map_eq_flatMap]
    rfl

section Reachable

variable (h : reg.Reachable)
include h

/-- An object selects a case of a choice if its class is bound to one. -/
theorem Reachable.selectedCase_eq_ok_iff (hm : choice.model ∈ reg.models) :
    reg.selectedCase choice x = .ok s ↔
      reg.nodeOfClass? x.className = some s ∧ s ∈ choice.cases := by
  constructor
  · intro hs
    refine ⟨?_, (h.mem_cases_of_selectedCase hm hs).1⟩
    obtain ⟨node, hnode, hs⟩ := Except.bind_eq_ok_iff.1 hs
    split at hs
    · cases hs
      exact nodeOfClass_eq_ok_iff.1 hnode
    · cases hs
  · rintro ⟨hnode, hs⟩
    obtain ⟨hk, hcase⟩ := (Ref.mem_cases_iff (h.linked hm) (Ref.later_of_mem_cases hs).1).1 hs
    refine Except.bind_eq_ok_iff.2 ⟨s, nodeOfClass_eq_ok_iff.2 hnode, ?_⟩
    rw [if_pos (by simp [hk, hcase])]
    rfl

theorem Reachable.fieldFault_of_selectedCase (hm : choice.model ∈ reg.models)
    (hk : choice.kind = .choice) (hx : x ∈ o.objects choice.name)
    (hs : reg.selectedCase choice x = .error e) : reg.FieldFault o choice e := by
  cases hnode : reg.nodeOfClass? x.className with
  | none =>
    obtain hnone | ⟨s, hs', -⟩ := Except.bind_eq_error_iff.1 hs
    · obtain ⟨-, rfl⟩ := found_eq_error_iff.1 hnone
      exact .unbound hk hx hnode
    · cases hnode.symm.trans (nodeOfClass_eq_ok_iff.1 hs')
  | some s =>
    have hother : s ∉ choice.cases := by
      intro hcase
      cases hs.symm.trans ((h.selectedCase_eq_ok_iff hm).2 ⟨hnode, hcase⟩)
    rw [selectedCase, nodeOfClass_eq_ok_iff.2 hnode] at hs
    obtain hs | ⟨s', ⟨⟩, hs⟩ := Except.bind_eq_error_iff.1 hs
    · cases hs
    · split at hs
      · cases hs
      · cases hs
        exact .noCase hk hx hnode hother

/-- The cases that are selected for the objects of a choice are put in its place. -/
private theorem Reachable.puts_selected (hm : choice.model ∈ reg.models) (hk : choice.kind = .choice)
    (hcontent : ∀ x ∈ o.objects choice.name, ∀ s, s.model ∈ reg.models → s.isLayer = true →
      PutsUnless (fun a => reg.writeContent x s a) (reg.Faulty x s)
        ((reg.outlines x s).map Outline.node)) :
    PutsUnless (fun a => (o.objects choice.name).foldlM (fun a x => do
        reg.writeContent x (← reg.selectedCase choice x) a) a) (reg.FieldInside o choice)
      (((o.objects choice.name).flatMap fun x => match reg.nodeOfClass? x.className with
        | some s => reg.slotOutlines o r (.layer (.case choice s) x)
        | none => []).map Outline.node) := by
  have hselected (x : Object) (hx : x ∈ o.objects choice.name) :
      PutsUnless (fun a => do reg.writeContent x (← reg.selectedCase choice x) a)
        (fun e => reg.selectedCase choice x = .error e ∨
          ∃ s, reg.selectedCase choice x = .ok s ∧ reg.Faulty x s e)
        ((match reg.nodeOfClass? x.className with
          | some s => reg.slotOutlines o r (.layer (.case choice s) x)
          | none => []).map Outline.node) := by
    refine PutsUnless.found fun s hs => ?_
    obtain ⟨hnode, hcase⟩ := (h.selectedCase_eq_ok_iff hm).1 hs
    have hkind : s.kind = .case := by simpa using (List.mem_filter.1 hcase).2
    have hlayer : s.isLayer = true := by simp [Ref.isLayer_iff, hkind]
    rw [hnode]
    refine (hcontent x hx s (h.model_mem_of_nodeOfClass? hnode) hlayer).congr (fun _ => Iff.rfl) ?_
    exact (Outline.map_node_under _ _).symm
  rw [List.map_flatMap]
  refine (PutsUnless.foldlM hselected).congr (fun e => ?_) rfl
  simp only [FieldInside, FieldPart, hk, if_true, true_and, forall_const]
  constructor
  · rintro ⟨x, hx, hs | ⟨s, hs, hfaulty⟩⟩
    · exact .inl ⟨x, hx, hs⟩
    · exact .inr ⟨x, s, ⟨hx, ((h.selectedCase_eq_ok_iff hm).1 hs).1⟩, hs, hfaulty⟩
  · rintro (⟨x, hx, hs⟩ | ⟨x, s, ⟨hx, -⟩, hs, hfaulty⟩)
    · exact ⟨x, hx, .inl hs⟩
    · exact ⟨x, hx, .inr ⟨s, hs, hfaulty⟩⟩

/-- A field that is in order has nothing wrong with it but what can be wrong inside. -/
private theorem Reachable.exists_fieldInside (hm : child.model ∈ reg.models) {f : Field} {u : Unit}
    (hf : fieldFor o.type child = .ok f) (hu : Result.ofField (f.checkTarget o) = .ok u)
    (he : reg.FieldFault o child e ∨ ∃ x s, reg.FieldPart o child x s ∧ reg.Faulty x s e) :
    ∃ e, reg.FieldInside o child e := by
  obtain ⟨hfield, hsuits⟩ := fieldFor_eq_ok_iff.1 hf
  -- An object that selects no case is refused, whatever is wrong inside it.
  have hrefused {x : Object} (hk : child.kind = .choice) (hx : x ∈ o.objects child.name)
      (hnot : ∀ s, reg.selectedCase child x ≠ .ok s) : ∃ e, reg.FieldInside o child e := by
    cases hs : reg.selectedCase child x with
    | ok s => exact absurd hs (hnot s)
    | error e => exact ⟨e, .inl ⟨hk, x, hx, hs⟩⟩
  obtain (hnone | ⟨hg, hg'⟩ | ⟨hg, howner⟩ | ⟨hk, hx, hnode⟩ | ⟨hk, hx, hnode, hother⟩) |
    ⟨x, s, hpart, hfaulty⟩ := he
  · cases hfield.symm.trans hnone
  · cases hfield.symm.trans hg
    simp [hsuits] at hg'
  · cases hfield.symm.trans hg
    simp [Field.checkTarget, howner, Result.ofField] at hu
  · refine hrefused hk hx fun s hs => ?_
    cases hnode.symm.trans ((h.selectedCase_eq_ok_iff hm).1 hs).1
  · refine hrefused hk hx fun s hs => ?_
    obtain ⟨hnode', hcase⟩ := (h.selectedCase_eq_ok_iff hm).1 hs
    cases hnode.symm.trans hnode'
    exact hother hcase
  · by_cases hselect : child.kind = .choice → reg.selectedCase child x = .ok s
    · exact ⟨e, .inr ⟨x, s, hpart, hselect, hfaulty⟩⟩
    · obtain ⟨hk, hne⟩ := Classical.not_imp.1 hselect
      have hnode : reg.nodeOfClass? x.className = some s := by simpa [FieldPart, hk] using hpart.2
      refine hrefused hk hpart.1 fun s' hs' => hne ?_
      cases hnode.symm.trans ((h.selectedCase_eq_ok_iff hm).1 hs').1
      exact hs'

/-- The field of a child puts what comes from the slots of the child, unless something is wrong with
the field or with the objects in it. -/
private theorem Reachable.puts_field (hr : r.model ∈ reg.models) (hc : child ∈ r.declared)
    (hobject : ∀ x s, sizeOf x < sizeOf o → s.model ∈ reg.models →
      PutsUnless (fun a => reg.writeObject x s a) (reg.Faulty x s)
        [(reg.outline x { node := s }).node])
    (hcontent : ∀ x s, sizeOf x < sizeOf o → s.model ∈ reg.models → s.isLayer = true →
      PutsUnless (fun a => reg.writeContent x s a) (reg.Faulty x s)
        ((reg.outlines x s).map Outline.node)) :
    PutsUnless (fun a => reg.writeField o child a)
      (fun e => reg.FieldFault o child e ∨ ∃ x s, reg.FieldPart o child x s ∧ reg.Faulty x s e)
      (((reg.slotsOf o child).flatMap (reg.slotOutlines o r)).map Outline.node) := by
  have hm : child.model ∈ reg.models :=
    Ref.model_of_mem_children (List.mem_filter.1 hc).1 ▸ hr
  rw [funext fun a => writeField_unfold o child a]
  refine (PutsUnless.found fun f hf => PutsUnless.found fun u _ =>
    (?_ : PutsUnless _ (reg.FieldInside o child) _)).imp ?_ ?_ rfl
  · -- The type of the field tells the kind of the child.
    have hsuits := (fieldFor_eq_ok_iff.1 hf).2
    rw [(exists_field_of_fieldFor hf).2, flatMap_slotsOf]
    cases htype : f.type with
    | leaf | leafList =>
      have hk : child.kind ≠ .choice ∧ child.kind.isLeafLike = true := by
        cases hkind : child.kind <;> simp_all [FieldType.suits, Kind.isLeafLike]
      rw [if_neg hk.1]
      exact puts_leaves hk.2
    | container | list =>
      have hk : child.kind ≠ .choice ∧ child.kind.isLeafLike = false := by
        cases hkind : child.kind <;>
          simp_all [FieldType.suits, Kind.isSingleObject, Kind.isLeafLike]
      rw [if_neg hk.1]
      exact puts_members hk.2 hk.1 fun x hx =>
        hobject x child (Object.sizeOf_lt_of_mem_members hx) hm
    | choice =>
      have hk : child.kind = .choice := by simpa [htype, FieldType.suits] using hsuits
      rw [if_pos hk]
      exact h.puts_selected hm hk fun x hx s =>
        hcontent x s (Object.sizeOf_lt_of_mem_members hx)
  · rintro e (hfield | ⟨f, hf, htarget | ⟨_, -, ⟨hk, x, hx, hs⟩ | ⟨x, s, hpart, -, hfaulty⟩⟩⟩)
    · exact .inl (fieldFault_of_fieldFor hfield)
    · exact .inl (fieldFault_of_checkTarget hf htarget)
    · exact .inl (h.fieldFault_of_selectedCase hm hk hx hs)
    · exact .inr ⟨x, s, hpart, hfaulty⟩
  · intro e he
    cases hf : fieldFor o.type child with
    | error e' => exact ⟨e', .inl rfl⟩
    | ok f =>
      cases hu : Result.ofField (f.checkTarget o) with
      | error e' => exact ⟨e', .inr ⟨f, rfl, .inl hu⟩⟩
      | ok u =>
        obtain ⟨e', he'⟩ := h.exists_fieldInside hm hf hu he
        exact ⟨e', .inr ⟨f, rfl, .inr ⟨u, hu, he'⟩⟩⟩

/-- The augmentation for an augment puts what it holds, if the object has one. -/
private theorem Reachable.puts_augmentation {augment : Ref} (hr : r.model ∈ reg.models)
    (hcontent : ∀ x s, sizeOf x < sizeOf o → s.model ∈ reg.models → s.isLayer = true →
      PutsUnless (fun a => reg.writeContent x s a) (reg.Faulty x s)
        ((reg.outlines x s).map Outline.node))
    (ha : augment ∈ r.augments) :
    PutsUnless (fun a => match augment.className.bind o.augmentation? with
        | some x => reg.writeContent x augment a
        | none => pure a)
      (fun e => ∃ x, augment.className.bind o.augmentation? = some x ∧ reg.Faulty x augment e)
      ((match augment.className.bind o.augmentation? with
        | some x => reg.slotOutlines o r (.layer (.augment augment) x)
        | none => []).map Outline.node) := by
  cases hx : augment.className.bind o.augmentation? with
  | none => exact PutsUnless.nothing.congr (by simp) rfl
  | some x =>
    obtain ⟨c, -, hxc⟩ := Option.bind_eq_some_iff.1 hx
    have hlt := Object.sizeOf_lt_of_mem_augmentations (List.mem_of_find?_eq_some hxc)
    have hlayer : augment.isLayer = true :=
      Ref.isLayer_iff.2 (.inr (.inr (Ref.kind_of_mem_augments (h.linked hr) ha)))
    exact (hcontent x augment hlt (Ref.model_of_mem_augments ha ▸ hr) hlayer).congr (by simp)
      (Outline.map_node_under _ _).symm

/-- The fields and augmentations of an object put what comes from their slots. -/
private theorem Reachable.puts_content (hr : r.model ∈ reg.models) (hany : r.kind ≠ .anydata)
    (hobject : ∀ x s, sizeOf x < sizeOf o → s.model ∈ reg.models →
      PutsUnless (fun a => reg.writeObject x s a) (reg.Faulty x s)
        [(reg.outline x { node := s }).node])
    (hcontent : ∀ x s, sizeOf x < sizeOf o → s.model ∈ reg.models → s.isLayer = true →
      PutsUnless (fun a => reg.writeContent x s a) (reg.Faulty x s)
        ((reg.outlines x s).map Outline.node)) :
    PutsUnless (fun a => reg.writeContent o r a)
      (fun e => reg.ContentFault o r e ∨ ∃ x s, reg.Part o r x s ∧ reg.Faulty x s e)
      ((reg.outlines o r).map Outline.node) := by
  rw [funext fun a => writeContent_eq o r a]
  refine ((PutsUnless.foldlM fun c hc => h.puts_field hr hc hobject hcontent).bind
    (PutsUnless.foldlM fun augment ha => h.puts_augmentation hr hcontent ha)).congr (fun e => ?_) ?_
  -- Fields, augmentations and payloads are the three ways to a part; here is no payload.
  · constructor
    · rintro (⟨c, hc, hfault | ⟨x, s, hpart, hfaulty⟩⟩ | ⟨augment, ha, x, hx, hfaulty⟩)
      · exact .inl (.field hc hfault)
      · exact .inr ⟨x, s, part_iff.2 (.inl ⟨c, hc, hpart⟩), hfaulty⟩
      · exact .inr ⟨x, augment, part_iff.2 (.inr (.inl ⟨augment, ha, hx, rfl⟩)), hfaulty⟩
    · rintro ((⟨hc, hfault⟩ | ⟨hk, -⟩ | ⟨hk, -⟩) | ⟨x, s, hpart, hfaulty⟩)
      · exact .inl ⟨_, hc, .inl hfault⟩
      · exact absurd hk hany
      · exact absurd hk hany
      · obtain ⟨c, hc, hpart⟩ | ⟨augment, ha, hx, rfl⟩ | ⟨hk, -⟩ := part_iff.1 hpart
        · exact .inl ⟨c, hc, .inr ⟨x, s, hpart, hfaulty⟩⟩
        · exact .inr ⟨s, ha, x, hx, hfaulty⟩
        · exact absurd hk hany
  · rw [outlines_eq, slots, if_neg hany, List.append_nil, List.flatMap_append, List.map_append,
      flatMap_augmentSlots, List.flatMap_assoc, List.map_flatMap]
    exact congrArg (_ ++ ·) List.map_flatMap.symm

/-- The payloads of an anydata node, which holds nothing else, put their data nodes. -/
private theorem Reachable.puts_payloads (hr : r.model ∈ reg.models) (hany : r.kind = .anydata)
    (hobject : ∀ x s, sizeOf x < sizeOf o → s.model ∈ reg.models →
      PutsUnless (fun a => reg.writeObject x s a) (reg.Faulty x s)
        [(reg.outline x { node := s }).node]) :
    PutsUnless (fun a => reg.writePayloads o r a)
      (fun e => reg.ContentFault o r e ∨ ∃ x s, reg.Part o r x s ∧ reg.Faulty x s e)
      ((reg.outlines o r).map Outline.node) := by
  -- Without children and augments, all that can go wrong has to do with a payload.
  obtain ⟨hdeclared, haugments⟩ := Ref.childless (h.linked hr) (by simp [hany, Kind.canHoldChildren])
  have hpayload (holder : String) (hholder : r.className = some holder) : ∀ x ∈ o.anydata,
      PutsUnless (fun a => do reg.writeObject x (← reg.payloadNode holder x) a)
        (fun e => reg.payloadNode holder x = .error e ∨
          ∃ s, reg.payloadNode holder x = .ok s ∧ reg.Faulty x s e)
        (((reg.payloadOf? r x).map fun s => reg.outline x { node := s }).map Outline.node).toList := by
    refine fun x hx => PutsUnless.found fun s hs => ?_
    have hs := (payloadNode_eq_ok_iff hholder).1 hs
    rw [hs]
    obtain ⟨_, _, -, -, hnode⟩ := mem_payloads_iff.1 (mem_payloads_of_payloadOf? hs)
    exact hobject x s (Object.sizeOf_lt_of_mem_anydata hx) (h.model_mem_of_nodeOfClass? hnode)
  rw [funext fun a => writePayloads_eq o r a]
  refine (PutsUnless.found fun holder hholder =>
    PutsUnless.foldlM (hpayload holder (found_eq_ok_iff.1 hholder))).congr (fun e => ?_) ?_
  · constructor
    · rintro (hholder | ⟨holder, hholder, x, hx, hs | ⟨s, hs, hfaulty⟩⟩)
      · obtain ⟨hnone, rfl⟩ := found_eq_error_iff.1 hholder
        exact .inl (.holder hany hnone)
      · have hholder := found_eq_ok_iff.1 hholder
        obtain ⟨hnone, rfl⟩ := found_eq_error_iff.1 hs
        refine .inl (.payload hany hholder hx ?_)
        rw [payloadOf?, hholder]
        exact hnone
      · have hs := (payloadNode_eq_ok_iff (found_eq_ok_iff.1 hholder)).1 hs
        exact .inr ⟨x, s, part_iff.2 (.inr (.inr ⟨hany, hx, hs⟩)), hfaulty⟩
    · rintro ((⟨hc, -⟩ | ⟨-, hnone⟩ | ⟨-, hholder, hx, hnone⟩) | ⟨x, s, hpart, hfaulty⟩)
      · simp [hdeclared] at hc
      · exact .inl (found_eq_error_iff.2 ⟨hnone, rfl⟩)
      · rw [payloadOf?, hholder] at hnone
        exact .inr ⟨_, found_eq_ok_iff.2 hholder, _, hx, .inl (found_eq_error_iff.2 ⟨hnone, rfl⟩)⟩
      · obtain ⟨c, hc, -⟩ | ⟨augment, ha, -⟩ | ⟨-, hx, hs⟩ := part_iff.1 hpart
        · simp [hdeclared] at hc
        · simp [haugments] at ha
        · obtain ⟨holder, hholder, -⟩ := Option.bind_eq_some_iff.1 hs
          exact .inr ⟨holder, found_eq_ok_iff.2 hholder, x, hx,
            .inr ⟨s, (payloadNode_eq_ok_iff hholder).2 hs, hfaulty⟩⟩
  · simp only [outlines_eq, slots, augmentSlots, hdeclared, haugments, hany, slotOutlines,
      List.flatMap_nil, List.filterMap_nil, List.nil_append, if_true, List.flatMap_singleton]
    rw [List.map_filterMap, List.filterMap_eq_flatMap_toList]

/-- Nothing can be wrong with an object that stands for a leaf, and with one that stands for an entry
of a leaf-list only that it is no value. -/
private theorem Reachable.puts_leafLike (hr : r.model ∈ reg.models) (hk : r.kind.isLeafLike = true) :
    PutsUnless (fun a => reg.writeObject o r a) (reg.Faulty o r)
      [(reg.outline o { node := r }).node] := by
  have hkind : r.kind = .leaf ∨ r.kind = .leafList := by simpa [Kind.isLeafLike] using hk
  have hany : r.kind ≠ .anydata := by
    rcases hkind with hkind | hkind <;> simp [hkind]
  obtain ⟨hdeclared, haugments⟩ := Ref.childless_of_isLeafLike (h.linked hr) hk
  have hwrite (a : Assembly) : reg.writeObject o r a = (do (← a.enter r none).exit) := by
    rw [writeObject_eq, writeInside_of_content hany]
    refine bind_congr fun b => ?_
    change (do (← reg.writeContent o r b).exit) = b.exit
    rw [writeContent_of_childless hdeclared haugments]
    rfl
  have hfaulty {e : Error} (he : reg.Faulty o r e) :
      r.kind = .leafList ∧ e = .structural (.entryWithoutValue r.name) := by
    obtain (⟨⟨hc, -⟩ | ⟨hk, -⟩ | ⟨hk, -⟩⟩ | ⟨hk, -⟩ | hk) | ⟨x, s, hpart, -⟩ := faulty_iff.1 he
    · simp [hdeclared] at hc
    · exact absurd hk hany
    · exact absurd hk hany
    · rcases hkind with hkind | hkind <;> cases hkind.symm.trans hk
    · exact ⟨hk, rfl⟩
    · obtain ⟨c, hc, -⟩ | ⟨augment, ha, -⟩ | ⟨hk, -⟩ := part_iff.1 hpart
      · simp [hdeclared] at hc
      · simp [haugments] at ha
      · exact absurd hk hany
  have hnode : (reg.outline o { node := r }).node = leafNode r .empty := by
    rw [outline_of_leafLike hk, Outline.node]
  rw [hnode, funext hwrite]
  rcases hkind with hkind | hkind
  · -- A leaf without a value is an empty one.
    have hempty : (fun a : Assembly => (do (← a.enter r none).exit : Result Assembly)) =
        fun a => writeLeaf r a .empty := by
      funext a
      have hvalue : Assembly.nodeValue r none = Assembly.nodeValue r (some .empty) := by
        simp [Assembly.nodeValue, hkind]
      rw [writeLeaf, Assembly.enter, Assembly.enter, hvalue]
    rw [hempty]
    refine (PutsUnless.of_writes (writes_leaf hk .empty)).congr (fun e => ?_) rfl
    rw [false_iff]
    intro he
    cases hkind.symm.trans (hfaulty he).1
  · have hrefused (a : Assembly) (ha : a.Open) :
        (do (← a.enter r none).exit) = Except.error (.structural (.entryWithoutValue r.name)) := by
      rw [Assembly.enter_eq ha]
      simp only [Assembly.nodeValue, hkind]
      rfl
    refine (PutsUnless.refused hrefused).congr (fun e => ⟨?_, fun he => (hfaulty he).2⟩) rfl
    rintro rfl
    exact .here (.value hkind)

/-- The walk over an object puts what is left of its outline, unless something is wrong with the object
or with one inside. -/
theorem Reachable.puts_object (hr : r.model ∈ reg.models) :
    PutsUnless (fun a => reg.writeObject o r a) (reg.Faulty o r)
      [(reg.outline o { node := r }).node] := by
  -- By induction on the object. Layers have no data node: only their content is written.
  suffices hboth : ∀ r, r.model ∈ reg.models →
      PutsUnless (fun a => reg.writeObject o r a) (reg.Faulty o r)
        [(reg.outline o { node := r }).node] ∧
      (r.isLayer = true → PutsUnless (fun a => reg.writeContent o r a) (reg.Faulty o r)
        ((reg.outlines o r).map Outline.node)) from (hboth r hr).1
  clear hr
  induction hn : sizeOf o using Nat.strongRecOn generalizing o with
  | ind n ih =>
    intro r hr
    have hobject : ∀ x s, sizeOf x < sizeOf o → s.model ∈ reg.models →
        PutsUnless (fun a => reg.writeObject x s a) (reg.Faulty x s)
          [(reg.outline x { node := s }).node] :=
      fun x s hx hs => (ih _ (hn ▸ hx) rfl s hs).1
    have hcontent : r.kind ≠ .anydata → PutsUnless (fun a => reg.writeContent o r a)
        (fun e => reg.ContentFault o r e ∨ ∃ x s, reg.Part o r x s ∧ reg.Faulty x s e)
        ((reg.outlines o r).map Outline.node) :=
      fun hk => h.puts_content hr hk hobject fun x s hx hs => (ih _ (hn ▸ hx) rfl s hs).2
    constructor
    · cases hk : r.kind.isLeafLike with
      | true => exact h.puts_leafLike hr hk
      | false =>
        have hinside : PutsUnless (writeInside reg o r)
            (fun e => reg.ContentFault o r e ∨ ∃ x s, reg.Part o r x s ∧ reg.Faulty x s e)
            ((reg.outlines o r).map Outline.node) := by
          by_cases hany : r.kind = .anydata
          · rw [writeInside_of_anydata (h.linked hr) hany]
            exact h.puts_payloads hr hany hobject
          · rw [writeInside_of_content hany]
            exact hcontent hany
        rw [funext fun a => writeObject_eq o r a, outline_of_inner hk]
        exact (hinside.entered hk).congr (fun _ => (faulty_iff_of_inner hk).symm) (by rw [Outline.node])
    · intro hlayer
      have hany : r.kind ≠ .anydata := by
        intro hany
        simp [Ref.isLayer_iff, hany] at hlayer
      exact (hcontent hany).congr (fun _ => (faulty_iff_of_layer hlayer).symm) rfl

end Reachable

end Registry

end YangBinding
