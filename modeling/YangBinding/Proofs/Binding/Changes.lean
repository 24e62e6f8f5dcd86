import YangBinding.Proofs.Binding.Readout
import YangBinding.Proofs.Correspond

/-!
# What objects that are filled hold

All that happens to an object while it is filled is a sequence of changes. What it holds in the end
can be read off these, field by field: the things that have been stored under the name of the field,
or the last of them if the field takes only one. The fields do not disturb each other, so only the
order of the changes within a field counts.

## Main definitions

* `FieldType.keeps` — what a field holds when things have been stored in it one after the other
* `Change.valueAt?`, `Change.objectAt?`, `Change.augmentation?` — what a change brings to what place

## Main results

* `Change.foldl_apply` — an object after any number of changes
* `Registry.beq_self_of_readObject` — an object that has been read equals itself
-/

namespace YangBinding

open Schema (Layer Ref)
open YangBinding.Tree (Node)

namespace FieldType

variable {α β : Type} {type : FieldType} {xs : List α} {ys : List β} {x : α}

/-- What a field holds when things have been stored in it, one after the other: all of them, or the
last one. -/
def keeps (type : FieldType) (xs : List α) : List α :=
  if type.isSingle then xs.getLast?.toList else xs

@[simp]
theorem keeps_nil : type.keeps ([] : List α) = [] := by
  simp [keeps]

theorem keeps_singleton : type.keeps [x] = [x] := by
  simp [keeps]

/-- One more thing joins those that the field keeps. -/
theorem keeps_concat : type.keeps (xs ++ [x]) = type.kept (type.keeps xs) ++ [x] := by
  unfold keeps kept
  split <;> simp

theorem mem_of_mem_keeps (h : x ∈ type.keeps xs) : x ∈ xs := by
  unfold keeps at h
  split at h
  · exact List.mem_of_getLast? (Option.mem_toList.1 h)
  · exact h

theorem length_keeps (h : type.isSingle = true) : (type.keeps xs).length ≤ 1 := by
  rw [keeps, if_pos h]
  cases xs.getLast? <;> simp

/-- A thing is still in its field if nothing else has been stored there that could have replaced it. -/
theorem mem_keeps (hx : x ∈ xs) (hu : type.isSingle = true → ∀ y ∈ xs, y = x) : x ∈ type.keeps xs := by
  unfold keeps
  split
  · next hs =>
    have hne : xs ≠ [] := List.ne_nil_of_mem hx
    have hlast : xs.getLast hne = x := hu hs _ (List.getLast_mem hne)
    rw [List.getLast?_eq_some_getLast hne, hlast]
    exact List.mem_singleton_self x
  · exact hx

/-- A field that takes one thing is not for lists and leaf-lists. -/
theorem ne_of_isSingle {kind : Schema.Kind} (hs : type.suits kind = true)
    (h : type.isSingle = true) : kind ≠ .list ∧ kind ≠ .leafList := by
  constructor
  · rintro rfl
    cases type <;> simp [isSingle, suits, Schema.Kind.isSingleObject] at h hs
  · rintro rfl
    cases type <;> simp [isSingle, suits, Schema.Kind.isSingleObject] at h hs

/-- What corresponds one by one still does in the field. -/
theorem forall₂_keeps {R : α → β → Prop} (h : List.Forall₂ R xs ys) :
    List.Forall₂ R (type.keeps xs) (type.keeps ys) := by
  unfold keeps
  split
  · induction h with
    | nil => exact .nil
    | cons hab hall ih =>
      cases hall with
      | nil => exact .cons hab .nil
      | cons _ _ => simpa using ih
  · exact h

end FieldType

/-- What is left of the things that have been stored in the field of a name. -/
def Class.keeps {α : Type} (c : Class) (name : String) (xs : List α) : List α :=
  match c.field? name with
  | some f => f.type.keeps xs
  | none => []

namespace Class

variable {α β : Type} {c : Class} {f : Field} {name : String} {xs : List α} {ys : List β}

theorem name_of_field? (h : c.field? name = some f) : f.name = name := by
  simpa using List.find?_some h

theorem field?_name (h : c.field? name = some f) : c.field? f.name = some f := by
  rwa [name_of_field? h]

theorem mem_ownFields (h : c.field? name = some f) (ho : c.typeName = f.owner) : f ∈ c.ownFields :=
  List.mem_filter.2 ⟨List.mem_of_find?_eq_some h, by simp [ho]⟩

theorem keeps_eq (h : c.field? name = some f) (xs : List α) : c.keeps name xs = f.type.keeps xs := by
  rw [keeps, h]

@[simp]
theorem keeps_nil : c.keeps name ([] : List α) = [] := by
  unfold keeps
  split
  · exact FieldType.keeps_nil
  · rfl

theorem mem_of_mem_keeps {x : α} (h : x ∈ c.keeps name xs) : x ∈ xs := by
  unfold keeps at h
  split at h
  · exact FieldType.mem_of_mem_keeps h
  · cases h

theorem forall₂_keeps {R : α → β → Prop} (h : List.Forall₂ R xs ys) :
    List.Forall₂ R (c.keeps name xs) (c.keeps name ys) := by
  unfold keeps
  split
  · exact FieldType.forall₂_keeps h
  · exact .nil

end Class

/-! ### Changes -/

namespace Change

/-- The name of the field that is changed. -/
def name? : Change → Option String
  | value f _ | object f _ => some f.name
  | augmentation _ => none

/-- The value that a change brings to the field of a name. -/
def valueAt? (name : String) : Change → Option LeafValue
  | value f v => if f.name = name then some v else none
  | object .. | augmentation _ => none

/-- The object that a change brings to the field of a name. -/
def objectAt? (name : String) : Change → Option Object
  | object f x => if f.name = name then some x else none
  | value .. | augmentation _ => none

/-- The augmentation that a change attaches. -/
def augmentation? : Change → Option Object
  | augmentation x => some x
  | value .. | object .. => none

/-- The field that is changed is the one that a class knows by its name. -/
def Of (c : Class) : Change → Prop
  | value f _ | object f _ => c.field? f.name = some f
  | augmentation _ => True

variable {c : Class} {changes : List Change} {f : Field} {name : String}

/-- An object after any number of changes. -/
theorem foldl_apply (h : ∀ change ∈ changes, change.Of c) :
    changes.foldl Object.apply c.new =
      c.make (fun name => c.keeps name (changes.filterMap (valueAt? name)))
        (fun name => c.keeps name (changes.filterMap (objectAt? name)))
        ((changes.filterMap augmentation?).latest Object.className) [] := by
  induction changes using List.reverseRecOn with
  | nil => simp [Class.new_eq_make]
  | append_singleton changes change ih =>
    have hchange : change.Of c := h change (by simp)
    rw [List.foldl_concat, ih fun d hd => h d (List.mem_append_left _ hd)]
    simp only [List.filterMap_append, List.filterMap_cons, List.filterMap_nil]
    -- The last change adds to what it is about, and all else is as the induction says.
    cases change with
    | value f v =>
      have hfield : c.field? f.name = some f := hchange
      simp only [Object.apply, Class.updateLeaf_make, objectAt?, augmentation?, List.append_nil]
      congr 1
      funext name
      by_cases hn : name = f.name
      · subst hn
        simp [valueAt?, Class.keeps_eq hfield, FieldType.keeps_concat]
      · simp [valueAt?, hn, Ne.symm hn]
    | object f x =>
      have hfield : c.field? f.name = some f := hchange
      simp only [Object.apply, Class.updateMember_make, valueAt?, augmentation?, List.append_nil]
      congr 1
      funext name
      by_cases hn : name = f.name
      · subst hn
        simp [objectAt?, Class.keeps_eq hfield, FieldType.keeps_concat]
      · simp [objectAt?, hn, Ne.symm hn]
    | augmentation x =>
      simp only [valueAt?, objectAt?, augmentation?, List.append_nil, List.latest_concat]
      rw [← Object.insertAugmentation_eq]
      rfl

/-- What a field of values holds after changes. -/
theorem leafValues_foldl (h : ∀ change ∈ changes, change.Of c) (hf : f ∈ c.ownFields)
    (hv : f.type.holdsValues = true) (hfield : c.field? f.name = some f) :
    (changes.foldl Object.apply c.new).leafValues f.name =
      f.type.keeps (changes.filterMap (valueAt? f.name)) := by
  rw [foldl_apply h, Class.leafValues_make, if_pos (Field.name_mem_valueNames hf hv),
    Class.keeps_eq hfield]

/-- What a field of objects holds after changes. -/
theorem objects_foldl (h : ∀ change ∈ changes, change.Of c) (hf : f ∈ c.ownFields)
    (hv : f.type.holdsValues = false) (hfield : c.field? f.name = some f) :
    (changes.foldl Object.apply c.new).objects f.name =
      f.type.keeps (changes.filterMap (objectAt? f.name)) := by
  rw [foldl_apply h, Class.objects_make, if_pos (Field.name_mem_objectNames hf hv),
    Class.keeps_eq hfield]

/-- An object that is made by changes equals itself if all that is stored in it does. -/
theorem beq_self_foldl (h : ∀ change ∈ changes, change.Of c)
    (hobjects : ∀ f x, object f x ∈ changes → (x == x) = true)
    (haugmentations : ∀ x, augmentation x ∈ changes → (x == x) = true) :
    (changes.foldl Object.apply c.new == changes.foldl Object.apply c.new) = true := by
  rw [foldl_apply h, Class.make_beq_make_iff]
  refine ⟨fun _ _ => rfl, fun name _ => List.forall₂_same.2 fun x hx => ?_, ⟨rfl, fun x hx => ?_⟩,
    .nil⟩
  · obtain ⟨change, hmem, hx⟩ := List.mem_filterMap.1 (Class.mem_of_mem_keeps hx)
    cases change with
    | object f y =>
      rw [objectAt?] at hx
      split at hx
      · cases hx
        exact hobjects f x hmem
      · cases hx
    | value f v => cases hx
    | augmentation y => cases hx
  · refine ⟨x, List.find?_eq_some_of_unique hx (beq_self_eq_true _) fun y hy heq => ?_, ?_⟩
    · exact List.eq_of_nodup_map (List.nodup_map_key_latest Object.className _) hy hx
        (by simpa using heq)
    · obtain ⟨change, hmem, hx⟩ := List.mem_filterMap.1 (List.mem_of_mem_latest hx)
      cases change with
      | augmentation y =>
        cases hx
        exact haugmentations x hmem
      | value f v => cases hx
      | object f y => cases hx

end Change

namespace Registry

variable {reg : Registry} {type : Class} {child : Pending} {children : List Pending} {l : Layer}
  {change : Change} {own layered : List Change} {o : Object} {n : Node} {r : Ref}

/-! ### The changes of filling an object -/

theorem Stores.name?_eq (h : Stores type child change) : change.name? = some child.schema.name := by
  cases h with
  | value field => exact congrArg some (Class.name_of_field? (fieldFor_eq_ok_iff.1 field).1)
  | object field => exact congrArg some (Class.name_of_field? (fieldFor_eq_ok_iff.1 field).1)

theorem Stores.of (h : Stores type child change) : change.Of type := by
  cases h with
  | value field => exact Class.field?_name (fieldFor_eq_ok_iff.1 field).1
  | object field => exact Class.field?_name (fieldFor_eq_ok_iff.1 field).1

theorem StoresBehind.of (h : reg.StoresBehind type children l change) : change.Of type := by
  cases h with
  | augment => trivial
  | case _ _ field => exact Class.field?_name field

theorem Fills.of (h : reg.Fills type children own layered) : ∀ change ∈ own ++ layered,
    change.Of type := by
  intro change hchange
  rcases List.mem_append.1 hchange with hchange | hchange
  · obtain ⟨child, -, hs⟩ := h.own.exists_left hchange
    exact hs.of
  · obtain ⟨l, -, hs⟩ := h.layered.exists_left hchange
    exact hs.of

/-- A new object is filled exactly if there are changes that this makes. -/
theorem fill_new_eq_ok_iff : reg.fill children type.new = .ok o ↔
    ∃ own layered, reg.Fills type children own layered ∧
      (own ++ layered).foldl Object.apply type.new = o :=
  fill_eq_ok_iff

/-! ### Objects equal themselves -/

/-- An object that has been filled equals itself if all that is stored in it does. -/
theorem beq_self_of_fill (hc : ∀ c ∈ children, ∀ x, c.object = .ok x → (x == x) = true)
    (hf : reg.fill children type.new = .ok o) : (o == o) = true := by
  -- By induction on the layers that are still to be passed.
  induction hn : layerCount children using Nat.strongRecOn generalizing children type o with
  | ind n ih =>
    obtain ⟨own, layered, hF, rfl⟩ := fill_new_eq_ok_iff.1 hf
    have hbehind {l : Layer} {content : Class} {x : Object} (hl : l ∈ nextLayers children)
        (hx : reg.fill (behind l children) content.new = .ok x) : (x == x) = true := by
      refine ih _ (hn ▸ layerCount_behind_lt hl) (fun c hmem => ?_) hx rfl
      obtain ⟨d, hd, rfl⟩ := List.mem_map.1 hmem
      exact hc d (List.mem_filter.1 hd).1
    refine Change.beq_self_foldl hF.of (fun f x hx => ?_) fun x hx => ?_
    · rcases List.mem_append.1 hx with hx | hx
      · obtain ⟨c, hmem, hs⟩ := hF.own.exists_left hx
        cases hs with
        | object _ _ _ object => exact hc c (List.mem_filter.1 hmem).1 x object
      · obtain ⟨l, hl, hs⟩ := hF.layered.exists_left hx
        cases hs with
        | case _ filled => exact hbehind hl filled
    · rcases List.mem_append.1 hx with hx | hx
      · obtain ⟨c, -, hs⟩ := hF.own.exists_left hx
        cases hs
      · obtain ⟨l, hl, hs⟩ := hF.layered.exists_left hx
        cases hs with
        | augment _ filled => exact hbehind hl filled

/-- Reading payloads attaches, one by one, what has been read. -/
theorem readPayloads_make {nodes : List Node} {values : String → List LeafValue}
    {objects : String → List Object} {augmentations anydata : List Object}
    (hp : reg.readPayloads r nodes (type.make values objects augmentations anydata) = .ok o) :
    ∃ payloads, o = type.make values objects augmentations (anydata ++ payloads) ∧
      List.Forall₂ (fun n x => ∃ e, reg.resolveNode (some r) n = .ok e ∧
        reg.readObject n e.node = .ok x) nodes payloads := by
  induction nodes generalizing anydata with
  | nil =>
    rw [readPayloads] at hp
    cases hp
    exact ⟨[], by rw [List.append_nil], .nil⟩
  | cons n nodes ih =>
    rw [readPayloads] at hp
    obtain ⟨e, he, hp⟩ := Except.bind_eq_ok_iff.1 hp
    obtain ⟨x, hx, hp⟩ := Except.bind_eq_ok_iff.1 hp
    change reg.readPayloads r nodes
      (type.make values objects augmentations (anydata ++ [x])) = .ok o at hp
    obtain ⟨payloads, rfl, hpayloads⟩ := ih hp
    exact ⟨x :: payloads, by rw [List.append_assoc]; rfl, .cons ⟨e, he, hx⟩ hpayloads⟩

/-- An object that has been read equals itself. -/
theorem beq_self_of_readObject (hr : reg.readObject n r = .ok o) : (o == o) = true := by
  -- By induction on the data.
  induction hsize : sizeOf n using Nat.strongRecOn generalizing n r o with
  | ind size ih =>
    obtain ⟨type, -, -, ⟨-, hp⟩ | ⟨-, pending, hpending, hf⟩⟩ := readObject_eq_ok hr
    · rw [Class.new_eq_make] at hp
      obtain ⟨payloads, rfl, hpayloads⟩ := readPayloads_make hp
      rw [Class.make_beq_make_iff]
      refine ⟨fun _ _ => rfl, fun _ _ => .nil, ⟨rfl, by simp⟩, List.forall₂_same.2 fun x hx => ?_⟩
      obtain ⟨c, hc, e, -, hx⟩ := hpayloads.exists_left (by simpa using hx)
      exact ih _ (hsize ▸ sizeOf_lt_of_mem_children hc) hx rfl
    · refine beq_self_of_fill (fun c hc x hx => ?_) hf
      rw [readChildren_eq_mapM] at hpending
      obtain ⟨child, hchild, hc⟩ := List.exists_of_mapM_eq_ok hpending hc
      obtain ⟨e, -, rfl⟩ := awaiting_eq_ok_iff.1 hc
      exact ih _ (hsize ▸ sizeOf_lt_of_mem_children hchild) hx rfl

end Registry

end YangBinding
