import YangBinding.Proofs.Binding.ReadBack
import YangBinding.Proofs.Object.Parts

/-!
# Storing what is read

An object that is read is put together in small steps: a value or an object is stored in a field, the
object behind a layer becomes an augmentation or the case that a choice selects, and payloads are
attached. Here it is said once what a step does, so that whatever is known of objects that are read
can be derived from that, step by step.

## Main definitions

* `FieldType.kept` — what stays in a field when one more thing is stored there
* `Change`, `Object.apply` — what storing something changes in an object
* `Registry.Stores`, `Registry.StoresBehind` — the changes that storing makes

## Main results

* `Registry.assign_eq_ok_iff`, `Registry.storeBehind_eq_ok_iff` — what a step does
* `Registry.fill_eq_ok_iff` — what all steps do together
* `Object.Proper.updateLeaf`, `Object.Proper.updateMember` — a step keeps an object proper
* `Registry.type_of_readObject` — an object is read with the class of its schema node
-/

namespace YangBinding

open Schema (DataChild Layer Ref)
open YangBinding.Tree (Node)

/-- What stays in a field when one more thing is stored there. -/
def FieldType.kept {α : Type} (type : FieldType) (xs : List α) : List α :=
  if type.isSingle then [] else xs

theorem FieldType.mem_of_mem_kept {α : Type} {type : FieldType} {xs : List α} {x : α}
    (h : x ∈ type.kept xs) : x ∈ xs := by
  unfold kept at h
  split at h
  · cases h
  · exact h

theorem FieldType.length_kept {α : Type} {type : FieldType} (h : type.isSingle = true) (xs : List α)
    (x : α) : (type.kept xs ++ [x]).length ≤ 1 := by
  simp [kept, h]

/-- A change of an object, as storing something makes it. -/
inductive Change where
  | value (field : Field) (value : LeafValue)
  | object (field : Field) (object : Object)
  | augmentation (object : Object)

/-- An object after a change. A field of one thing gives up what it held before. -/
def Object.apply (o : Object) : Change → Object
  | .value f v => o.updateLeaf f.name fun values => f.type.kept values ++ [v]
  | .object f x => o.updateMember f.name fun objects => f.type.kept objects ++ [x]
  | .augmentation x => o.addAugmentation x

/-! ### Changed objects -/

namespace Object

variable {o a x : Object} {name : String} {f : Field} {v : LeafValue} {type : Scalar}

@[simp]
theorem type_apply (c : Change) : (o.apply c).type = o.type := by
  cases c with
  | value f v => exact type_updateLeaf ..
  | object f x => exact type_updateMember ..
  | augmentation x => exact type_addAugmentation ..

/-! ### Proper objects -/

theorem Proper.updateLeaf_eq (h : o.Proper) (change : List LeafValue → List LeafValue) :
    o.updateLeaf name change =
      o.type.make (Function.update o.leafValues name (change (o.leafValues name))) o.objects
        o.augmentations o.anydata := by
  rw [← Class.updateLeaf_make, h.shape]

theorem Proper.updateMember_eq (h : o.Proper) (change : List Object → List Object) :
    o.updateMember name change =
      o.type.make o.leafValues (Function.update o.objects name (change (o.objects name)))
        o.augmentations o.anydata := by
  rw [← Class.updateMember_make, h.shape]

/-- What is stored under the name of a field of values. -/
theorem Proper.leafValues_updateLeaf (h : o.Proper) (hn : name ∈ o.type.valueNames)
    (change : List LeafValue → List LeafValue) (k : String) :
    (o.updateLeaf name change).leafValues k =
      if k = name then change (o.leafValues name) else o.leafValues k := by
  rw [h.updateLeaf_eq, Class.leafValues_make]
  by_cases hk : k = name
  · subst hk
    simp [hn]
  · have hshape := congrArg (fun o => o.leafValues k) h.shape
    rw [Class.leafValues_make] at hshape
    rw [Function.update_of_ne hk, if_neg hk, hshape]

/-- What is stored under the name of a field of objects. -/
theorem Proper.objects_updateMember (h : o.Proper) (hn : name ∈ o.type.objectNames)
    (change : List Object → List Object) (k : String) :
    (o.updateMember name change).objects k =
      if k = name then change (o.objects name) else o.objects k := by
  rw [h.updateMember_eq, Class.objects_make]
  by_cases hk : k = name
  · subst hk
    simp [hn]
  · have hshape := congrArg (fun o => o.objects k) h.shape
    rw [Class.objects_make] at hshape
    rw [Function.update_of_ne hk, if_neg hk, hshape]

/-- Storing a value in a field keeps an object proper, if no other field goes by the name. -/
theorem Proper.updateLeaf (h : o.Proper) (hf : f ∈ o.type.ownFields)
    (hunique : ∀ g ∈ o.type.ownFields, g.name = f.name → g = f) (ht : f.type.scalar? = some type)
    (hs : type.store? v = some v) :
    (o.updateLeaf f.name fun values => f.type.kept values ++ [v]).Proper := by
  have hn : f.name ∈ o.type.valueNames :=
    Field.name_mem_valueNames hf (FieldType.holdsValues_of_scalar? ht)
  -- Only the field of this name has changed; what holds of all others is as it was.
  refine ⟨?_, ?_, ?_, ?_, ?_⟩
  · rw [h.updateLeaf_eq]
    exact Class.make_shape
  · intro g hg hsingle
    rw [type_updateLeaf] at hg
    rw [h.leafValues_updateLeaf hn]
    split
    · next hname => exact FieldType.length_kept (hunique g hg hname ▸ hsingle) ..
    · exact h.single_values g hg hsingle
  · intro g hg hsingle
    rw [objects_updateLeaf]
    exact h.single_objects g (by simpa using hg) hsingle
  · intro g hg type' htype w hw
    rw [type_updateLeaf] at hg
    rw [h.leafValues_updateLeaf hn] at hw
    split at hw
    · next hname =>
      obtain rfl := hunique g hg hname
      obtain rfl : type = type' := Option.some.inj (ht.symm.trans htype)
      rcases List.mem_append.1 hw with hw | hw
      · exact h.stored g hg type htype w (FieldType.mem_of_mem_kept hw)
      · exact List.mem_singleton.1 hw ▸ hs
    · exact h.stored g hg type' htype w hw
  · rw [augmentations_updateLeaf]
    exact h.nodup_classes

/-- Storing an object in a field keeps an object proper, if no other field goes by the name. -/
theorem Proper.updateMember (h : o.Proper) (hf : f ∈ o.type.ownFields)
    (hunique : ∀ g ∈ o.type.ownFields, g.name = f.name → g = f)
    (ht : f.type.holdsValues = false) :
    (o.updateMember f.name fun objects => f.type.kept objects ++ [x]).Proper := by
  have hn : f.name ∈ o.type.objectNames := Field.name_mem_objectNames hf ht
  refine ⟨?_, ?_, ?_, ?_, ?_⟩
  · rw [h.updateMember_eq]
    exact Class.make_shape
  · intro g hg hsingle
    rw [leafValues_updateMember]
    exact h.single_values g (by simpa using hg) hsingle
  · intro g hg hsingle
    rw [type_updateMember] at hg
    rw [h.objects_updateMember hn]
    split
    · next hname => exact FieldType.length_kept (hunique g hg hname ▸ hsingle) ..
    · exact h.single_objects g hg hsingle
  · intro g hg type' htype w hw
    rw [leafValues_updateMember] at hw
    exact h.stored g (by simpa using hg) type' htype w hw
  · rw [augmentations_updateMember]
    exact h.nodup_classes

theorem Proper.addAugmentation (h : o.Proper) : (o.addAugmentation a).Proper := by
  refine ⟨?_, ?_, ?_, ?_, ?_⟩
  · rw [← h.shape]
    exact Class.make_shape
  · simpa using h.single_values
  · simpa using h.single_objects
  · simpa using h.stored
  · rw [augmentations_addAugmentation, insertAugmentation_eq]
    exact List.nodup_map_key_upsert h.nodup_classes

theorem Proper.addAnydata (h : o.Proper) : (o.addAnydata a).Proper := by
  refine ⟨?_, ?_, ?_, ?_, ?_⟩
  · rw [← h.shape]
    exact Class.make_shape
  · simpa using h.single_values
  · simpa using h.single_objects
  · simpa using h.stored
  · simpa using h.nodup_classes

end Object

namespace Registry

variable {reg : Registry} {o o' x : Object} {r : Ref} {child : Pending} {children : List Pending}
  {l : Layer} {n : Node} {f : Field}

/-! ### Steps -/

theorem ofField_eq_ok_iff {α : Type} {x : Except FieldError α} {a : α} :
    Result.ofField x = .ok a ↔ x = .ok a := by
  cases x <;> simp [Result.ofField]

theorem checkTarget_eq_ok_iff {u : Unit} : f.checkTarget o = .ok u ↔ o.type.typeName = f.owner := by
  unfold Field.checkTarget
  split <;> simp_all

theorem checkChild_eq_ok_iff {typeName : String} {u : Unit} :
    f.checkChild typeName x = .ok u ↔ x.type.typeName = typeName := by
  unfold Field.checkChild
  split <;> simp_all

/-- A field of the type of an object shows what the object holds there. -/
theorem values_eq (h : o.type.typeName = f.owner) : f.values o = .ok (o.leafValues f.name) := by
  have htarget : f.checkTarget o = .ok () := checkTarget_eq_ok_iff.2 h
  rw [Field.values, htarget]
  rfl

theorem objects_eq (h : o.type.typeName = f.owner) : f.objects o = .ok (o.objects f.name) := by
  have htarget : f.checkTarget o = .ok () := checkTarget_eq_ok_iff.2 h
  rw [Field.objects, htarget]
  rfl

/-- What storing a child changes in an object of a class: a value, as the leaf stores it, or an object
of the type that the field asks for is put into the field of the child. -/
inductive Stores (type : Class) (child : Pending) : Change → Prop
  | value {f : Field} {scalar : Scalar} {given stored : LeafValue}
    (field : fieldFor type child.schema = .ok f) (owner : type.typeName = f.owner)
    (holds : f.type.scalar? = some scalar) (value : leafValue child.data = .ok given)
    (accepted : scalar.store? given = some stored) : Stores type child (.value f stored)
  | object {f : Field} {x : Object}
    (field : fieldFor type child.schema = .ok f) (owner : type.typeName = f.owner)
    (holds : f.type = .container x.type.typeName ∨ f.type = .list x.type.typeName)
    (object : child.object = .ok x) : Stores type child (.object f x)

/-- What storing the children behind a layer changes in an object of a class: an object of their own
is filled with them, which becomes an augmentation or the case of a choice. -/
inductive StoresBehind (reg : Registry) (type : Class) (children : List Pending) :
    Layer → Change → Prop
  | augment {augment : Ref} {content : Class} {x : Object}
    (content_eq : reg.classOf? augment = some content)
    (filled : reg.fill (behind (.augment augment) children) content.new = .ok x) :
    StoresBehind reg type children (.augment augment) (.augmentation x)
  | case {choice selected : Ref} {content : Class} {x : Object} {f : Field}
    (content_eq : reg.classOf? selected = some content)
    (filled : reg.fill (behind (.case choice selected) children) content.new = .ok x)
    (field : type.field? choice.name = some f) (holds : f.type = .choice)
    (owner : type.typeName = f.owner) :
    StoresBehind reg type children (.case choice selected) (.object f x)

/-- A child is stored exactly if there is a change that this makes. -/
theorem assign_eq_ok_iff : assign o child = .ok o' ↔
    ∃ change, Stores o.type child change ∧ o.apply change = o' := by
  constructor
  · intro ha
    obtain ⟨f, hf, ha⟩ := Except.bind_eq_ok_iff.1 ha
    -- The type of the field decides which checks there are; each that is passed is a premise.
    cases hft : f.type with
    | leaf type | leafList type =>
      rw [hft] at ha
      obtain ⟨value, hvalue, ha⟩ := Except.bind_eq_ok_iff.1 ha
      obtain ⟨_, htarget, ha⟩ := Except.bind_eq_ok_iff.1 (ofField_eq_ok_iff.1 ha)
      obtain ⟨stored, hstored, ha⟩ := Except.bind_eq_ok_iff.1 ha
      cases ha
      refine ⟨.value f stored, .value hf (checkTarget_eq_ok_iff.1 htarget) (hft ▸ rfl) hvalue
        (Scalar.store_eq_ok_iff.1 hstored), ?_⟩
      simp [Object.apply, hft, FieldType.kept, FieldType.isSingle]
    | container typeName | list typeName =>
      rw [hft] at ha
      obtain ⟨x, hx, ha⟩ := Except.bind_eq_ok_iff.1 ha
      obtain ⟨_, hchild, ha⟩ := Except.bind_eq_ok_iff.1 (ofField_eq_ok_iff.1 ha)
      obtain ⟨_, htarget, ha⟩ := Except.bind_eq_ok_iff.1 ha
      cases ha
      obtain rfl := checkChild_eq_ok_iff.1 hchild
      refine ⟨.object f x, .object hf (checkTarget_eq_ok_iff.1 htarget) (by simp [hft]) hx, ?_⟩
      simp [Object.apply, hft, FieldType.kept, FieldType.isSingle]
    | choice =>
      rw [hft] at ha
      cases ha
  · rintro ⟨_, hs, rfl⟩
    cases hs with
    | @value f scalar given stored field owner holds value accepted =>
      have htarget : f.checkTarget o = .ok () := checkTarget_eq_ok_iff.2 owner
      have hstore : scalar.store given = .ok stored := Scalar.store_eq_ok_iff.2 accepted
      cases hft : f.type <;> simp only [hft, FieldType.scalar?, Option.some.injEq, reduceCtorEq]
        at holds <;> subst holds <;>
        simp [assign, field, hft, value, Field.setLeaf, Field.pushLeaf, htarget, hstore,
          Result.ofField, Object.apply, FieldType.kept, FieldType.isSingle, bind, Except.bind,
          pure, Except.pure]
    | @object f x field owner holds object =>
      have htarget : f.checkTarget o = .ok () := checkTarget_eq_ok_iff.2 owner
      have hchild : f.checkChild x.type.typeName x = .ok () := checkChild_eq_ok_iff.2 rfl
      rcases holds with hft | hft <;>
        simp [assign, field, hft, object, Field.setContainer, Field.pushEntry, htarget, hchild,
          Result.ofField, Object.apply, FieldType.kept, FieldType.isSingle, bind, Except.bind,
          pure, Except.pure]

/-- What is behind a layer is stored exactly if there is a change that this makes. -/
theorem storeBehind_eq_ok_iff : reg.storeBehind children o l = .ok o' ↔
    ∃ change, reg.StoresBehind o.type children l change ∧ o.apply change = o' := by
  constructor
  · intro hs
    obtain ⟨new, hnew, hs⟩ := Except.bind_eq_ok_iff.1 hs
    obtain ⟨content, hcontent, hnew⟩ := Except.bind_eq_ok_iff.1 hnew
    cases hnew
    obtain ⟨x, hx, hs⟩ := Except.bind_eq_ok_iff.1 hs
    rw [found_eq_ok_iff] at hcontent
    -- An augmentation is attached as it is, a case has to find the field of its choice.
    cases l with
    | augment augment =>
      cases hs
      exact ⟨.augmentation x, .augment hcontent hx, rfl⟩
    | case choice s =>
      obtain ⟨f, hf, hs⟩ := Except.bind_eq_ok_iff.1 hs
      obtain ⟨hf, hft⟩ := Option.filter_eq_some_iff.1 (found_eq_ok_iff.1 hf)
      obtain ⟨_, htarget, hs⟩ := Except.bind_eq_ok_iff.1 (ofField_eq_ok_iff.1 hs)
      cases hs
      have hchoice : f.type = .choice := by simpa using hft
      refine ⟨.object f x,
        .case hcontent hx hf hchoice (checkTarget_eq_ok_iff.1 htarget), ?_⟩
      simp [Object.apply, hchoice, FieldType.kept, FieldType.isSingle]
  · rintro ⟨_, hs, rfl⟩
    cases hs with
    | @augment augment content x content_eq filled =>
      simp only [storeBehind, Layer.node, instantiate_eq content_eq, filled, bind, Except.bind, pure,
        Except.pure, Object.apply]
    | @case choice selected content x f content_eq filled field holds owner =>
      have htarget : f.checkTarget o = .ok () := checkTarget_eq_ok_iff.2 owner
      have hfield : (o.type.field? choice.name).filter (fun f => f.type == .choice) = some f := by
        simp [field, holds]
      simp only [storeBehind, Layer.node, instantiate_eq content_eq, filled, hfield, Result.found,
        Field.setCase, htarget, Result.ofField, bind, Except.bind, pure, Except.pure, Object.apply,
        holds, FieldType.kept, FieldType.isSingle, if_true, List.nil_append]

/-- The changes that filling an object of a class makes: first those of the children that pass no
layer, then one for each layer. -/
structure Fills (reg : Registry) (type : Class) (children : List Pending)
    (own layered : List Change) : Prop where
  own : List.Forall₂ (Stores type) (children.filter fun c => c.layers.isEmpty) own
  layered : List.Forall₂ (reg.StoresBehind type children) (nextLayers children) layered

/-- An object is filled exactly if there are changes that this makes. -/
theorem fill_eq_ok_iff : reg.fill children o = .ok o' ↔
    ∃ own layered, reg.Fills o.type children own layered ∧
      (own ++ layered).foldl Object.apply o = o' := by
  -- No change touches the class of an object, so that the steps can be told one by one.
  have own_iff {b : Object} :
      (children.filter fun c => c.layers.isEmpty).foldlM assign o = .ok b ↔
        ∃ own, List.Forall₂ (Stores o.type) (children.filter fun c => c.layers.isEmpty) own ∧
          own.foldl Object.apply o = b :=
    List.foldlM_eq_ok_iff (I := fun b => b.type = o.type)
      (fun b hb c b' => hb ▸ assign_eq_ok_iff) (fun b c hb => (Object.type_apply c).trans hb) rfl
  have layered_iff {b : Object} (hb : b.type = o.type) :
      (nextLayers children).foldlM (reg.storeBehind children) b = .ok o' ↔
        ∃ layered, List.Forall₂ (reg.StoresBehind o.type children) (nextLayers children) layered ∧
          layered.foldl Object.apply b = o' :=
    List.foldlM_eq_ok_iff (I := fun b => b.type = o.type)
      (fun b hb l b' => hb ▸ storeBehind_eq_ok_iff) (fun b c hb => (Object.type_apply c).trans hb) hb
  have type_eq (own : List Change) : (own.foldl Object.apply o).type = o.type := by
    induction own using List.reverseRecOn with
    | nil => rfl
    | append_singleton own c ih => rw [List.foldl_concat, Object.type_apply, ih]
  rw [fill_eq, Except.bind_eq_ok_iff]
  constructor
  · rintro ⟨b, hb, hf⟩
    obtain ⟨own, hown, rfl⟩ := own_iff.1 hb
    obtain ⟨layered, hlayered, rfl⟩ := (layered_iff (type_eq own)).1 hf
    exact ⟨own, layered, ⟨hown, hlayered⟩, List.foldl_append ..⟩
  · rintro ⟨own, layered, hF, rfl⟩
    exact ⟨_, own_iff.2 ⟨own, hF.own, rfl⟩,
      (layered_iff (type_eq own)).2 ⟨layered, hF.layered, (List.foldl_append ..).symm⟩⟩

/-- What one step does in a field: it adds a value, as the leaf stores it, or an object, in the place
of what a field of one thing held before. -/
theorem assign_cases (ha : assign o child = .ok o') :
    ∃ f, fieldFor o.type child.schema = .ok f ∧ f.checkTarget o = .ok () ∧
      ((∃ type value stored, f.type.scalar? = some type ∧ leafValue child.data = .ok value ∧
          type.store? value = some stored ∧
          o' = o.updateLeaf f.name fun values => f.type.kept values ++ [stored]) ∨
        ∃ typeName x, (f.type = .container typeName ∨ f.type = .list typeName) ∧
          child.object = .ok x ∧
          o' = o.updateMember f.name fun objects => f.type.kept objects ++ [x]) := by
  obtain ⟨_, hstores, rfl⟩ := assign_eq_ok_iff.1 ha
  cases hstores with
  | value field owner holds value accepted =>
    exact ⟨_, field, checkTarget_eq_ok_iff.2 owner, .inl ⟨_, _, _, holds, value, accepted, rfl⟩⟩
  | object field owner holds object =>
    exact ⟨_, field, checkTarget_eq_ok_iff.2 owner, .inr ⟨_, _, holds, object, rfl⟩⟩

/-- What one step does behind a layer: an object that has been filled becomes an augmentation or the
case of a choice. -/
theorem storeBehind_cases (hs : reg.storeBehind children o l = .ok o') :
    ∃ type content, reg.classOf? l.node = some type ∧
      reg.fill (behind l children) type.new = .ok content ∧
      ((∃ augment, l = .augment augment ∧ o' = o.addAugmentation content) ∨
        ∃ choice s f, l = .case choice s ∧ o.type.field? choice.name = some f ∧ f.type = .choice ∧
          f.checkTarget o = .ok () ∧
          o' = o.updateMember f.name fun objects => f.type.kept objects ++ [content]) := by
  obtain ⟨_, hstores, rfl⟩ := storeBehind_eq_ok_iff.1 hs
  cases hstores with
  | augment content_eq filled => exact ⟨_, _, content_eq, filled, .inl ⟨_, rfl, rfl⟩⟩
  | case content_eq filled field holds owner =>
    exact ⟨_, _, content_eq, filled,
      .inr ⟨_, _, _, rfl, field, holds, checkTarget_eq_ok_iff.2 owner, rfl⟩⟩

/-! ### Classes -/

theorem type_of_assign (ha : assign o child = .ok o') : o'.type = o.type := by
  obtain ⟨f, -, -, ⟨_, _, _, -, -, -, rfl⟩ | ⟨_, _, -, -, rfl⟩⟩ := assign_cases ha
  · exact Object.type_updateLeaf ..
  · exact Object.type_updateMember ..

theorem type_of_storeBehind (hs : reg.storeBehind children o l = .ok o') : o'.type = o.type := by
  obtain ⟨_, _, -, -, ⟨_, -, rfl⟩ | ⟨_, _, _, -, -, -, -, rfl⟩⟩ := storeBehind_cases hs
  · exact Object.type_addAugmentation ..
  · exact Object.type_updateMember ..

theorem type_of_fill (hf : reg.fill children o = .ok o') : o'.type = o.type := by
  rw [fill_eq] at hf
  obtain ⟨mid, hmid, hf⟩ := Except.bind_eq_ok_iff.1 hf
  have hfields : mid.type = o.type := List.foldlM_keeps (P := fun b => b.type = o.type)
    (fun _ _ _ _ hb ha => (type_of_assign ha).trans hb) rfl hmid
  exact List.foldlM_keeps (P := fun b => b.type = o.type)
    (fun _ _ _ _ hb hs => (type_of_storeBehind hs).trans hb) hfields hf

theorem type_of_readPayloads {nodes : List Node} (hp : reg.readPayloads r nodes o = .ok o') :
    o'.type = o.type := by
  induction nodes generalizing o with
  | nil =>
    rw [readPayloads] at hp
    cases hp
    rfl
  | cons n nodes ih =>
    rw [readPayloads] at hp
    obtain ⟨child, -, hp⟩ := Except.bind_eq_ok_iff.1 hp
    obtain ⟨x, -, hp⟩ := Except.bind_eq_ok_iff.1 hp
    exact (ih hp).trans (Object.type_addAnydata o x)

/-- The object of an inner node starts out with nothing set, in the class of the schema node. -/
theorem readObject_eq_ok (hr : reg.readObject n r = .ok o) :
    ∃ type, reg.classOf? r = some type ∧ n.isInner = true ∧
      (r.kind = .anydata ∧ reg.readPayloads r n.children type.new = .ok o ∨
        r.kind ≠ .anydata ∧ ∃ pending, reg.readChildren r n.children = .ok pending ∧
          reg.fill pending type.new = .ok o) := by
  cases n with
  | leaf key shape value =>
    rw [readObject] at hr
    cases hr
  | inner key shape children =>
    rw [readObject] at hr
    obtain ⟨new, hnew, hr⟩ := Except.bind_eq_ok_iff.1 hr
    obtain ⟨type, htype, hnew⟩ := Except.bind_eq_ok_iff.1 hnew
    cases hnew
    refine ⟨type, found_eq_ok_iff.1 htype, rfl, ?_⟩
    split at hr
    · next hany => exact .inl ⟨hany, hr⟩
    · next hany => exact .inr ⟨hany, Except.bind_eq_ok_iff.1 hr⟩

/-- An object is read with the class of its schema node. -/
theorem type_of_readObject (hr : reg.readObject n r = .ok o) : reg.classOf? r = some o.type := by
  obtain ⟨type, htype, -, ⟨-, hp⟩ | ⟨-, pending, -, hf⟩⟩ := readObject_eq_ok hr
  · rw [htype, type_of_readPayloads hp]
    rfl
  · rw [htype, type_of_fill hf]
    rfl

end Registry

end YangBinding
