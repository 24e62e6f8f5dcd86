import Mathlib.Data.List.Forall2
import Mathlib.Logic.Function.Basic
import YangBinding.Object.Field
import YangBinding.Proofs.Sequence

/-!
# What objects hold

An object is given by its class, what it holds under the names of its own fields, and its
extensions. Objects as they really occur are proper: a field that takes one thing holds no more than
one, values have been stored as the type of their leaf, and no two augmentations are of the same
class.

## Main definitions

* `Class.make` — the object of a class with a given content
* `Object.Proper` — the objects that really occur

## Main results

* `Class.updateLeaf_make`, `Class.updateMember_make` — how a change of a field changes the content
* `Class.make_beq_make_iff` — equality is equality of content, whatever the order of augmentations
-/

namespace YangBinding

/-- The field holds values and no objects. -/
def FieldType.holdsValues : FieldType → Bool
  | .leaf _ | .leafList _ => true
  | _ => false

/-- The field never holds more than one thing. -/
def FieldType.isSingle : FieldType → Bool
  | .leaf _ | .container _ | .choice => true
  | _ => false

/-- The type of the values of a field. -/
def FieldType.scalar? : FieldType → Option Scalar
  | .leaf type | .leafList type => some type
  | _ => none

theorem FieldType.holdsValues_of_scalar? {type : FieldType} {scalar : Scalar}
    (h : type.scalar? = some scalar) : type.holdsValues = true := by
  cases type <;> simp [scalar?, holdsValues] at h ⊢

namespace Class

/-- The names of the own fields that hold values. -/
def valueNames (c : Class) : List String :=
  (c.ownFields.filter fun f => f.type.holdsValues).map Field.name

/-- The names of the own fields that hold objects. -/
def objectNames (c : Class) : List String :=
  (c.ownFields.filter fun f => !f.type.holdsValues).map Field.name

/-- The object of a class with given values, objects and extensions. -/
def make (c : Class) (values : String → List LeafValue) (objects : String → List Object)
    (augmentations anydata : List Object) : Object :=
  .mk c (c.valueNames.map fun name => (name, values name))
    (c.objectNames.map fun name => (name, objects name)) augmentations anydata

end Class

/-- An object as it really occurs. -/
structure Object.Proper (o : Object) : Prop where
  shape : o.type.make o.leafValues o.objects o.augmentations o.anydata = o
  single_values : ∀ f ∈ o.type.ownFields, f.type.isSingle = true →
    (o.leafValues f.name).length ≤ 1
  single_objects : ∀ f ∈ o.type.ownFields, f.type.isSingle = true → (o.objects f.name).length ≤ 1
  stored : ∀ f ∈ o.type.ownFields, ∀ type, f.type.scalar? = some type →
    ∀ v ∈ o.leafValues f.name, type.store? v = some v
  nodup_classes : (o.augmentations.map Object.className).Nodup

variable {c : Class} {values values' : String → List LeafValue}
  {objects objects' : String → List Object}
  {augmentations augmentations' anydata anydata' : List Object} {name : String} {f : Field}

theorem Field.name_mem_valueNames (h : f ∈ c.ownFields) (ht : f.type.holdsValues = true) :
    f.name ∈ c.valueNames :=
  List.mem_map_of_mem (List.mem_filter.2 ⟨h, ht⟩)

theorem Field.name_mem_objectNames (h : f ∈ c.ownFields) (ht : f.type.holdsValues = false) :
    f.name ∈ c.objectNames :=
  List.mem_map_of_mem (List.mem_filter.2 ⟨h, by simp [ht]⟩)

namespace Class

/-! ### Reading content -/

section Reading

variable (c values objects augmentations anydata)

@[simp]
theorem type_make : (c.make values objects augmentations anydata).type = c := rfl

@[simp]
theorem className_make :
    (c.make values objects augmentations anydata).className = c.className := rfl

@[simp]
theorem augmentations_make :
    (c.make values objects augmentations anydata).augmentations = augmentations := rfl

@[simp]
theorem anydata_make : (c.make values objects augmentations anydata).anydata = anydata := rfl

end Reading

theorem leafValues_make : (c.make values objects augmentations anydata).leafValues name =
    if name ∈ c.valueNames then values name else [] := by
  change ((c.valueNames.map fun name => (name, values name)).lookup name).getD [] = _
  rw [List.lookup_map_of_mem]
  split <;> rfl

theorem objects_make : (c.make values objects augmentations anydata).objects name =
    if name ∈ c.objectNames then objects name else [] := by
  change ((c.objectNames.map fun name => (name, objects name)).lookup name).getD [] = _
  rw [List.lookup_map_of_mem]
  split <;> rfl

theorem new_eq_make : c.new = c.make (fun _ => []) (fun _ => []) [] [] := by
  have hvalues : ∀ fields : List Field,
      (fields.filterMap fun f => match f.type with
        | .leaf _ | .leafList _ => some (f.name, ([] : List LeafValue))
        | _ => none) =
      ((fields.filter fun f => f.type.holdsValues).map Field.name).map fun name => (name, []) := by
    intro fields
    induction fields with
    | nil => rfl
    | cons f fields ih =>
      cases ht : f.type <;> simp [ht, ih, FieldType.holdsValues]
  have hobjects : ∀ fields : List Field,
      (fields.filterMap fun f => match f.type with
        | .leaf _ | .leafList _ => none
        | _ => some (f.name, ([] : List Object))) =
      ((fields.filter fun f => !f.type.holdsValues).map Field.name).map fun name => (name, []) := by
    intro fields
    induction fields with
    | nil => rfl
    | cons f fields ih =>
      cases ht : f.type <;> simp [ht, ih, FieldType.holdsValues]
  rw [make, valueNames, objectNames, ← hvalues, ← hobjects]
  rfl

/-! ### Changing content -/

private theorem replaceEntry_map {α : Type} {keys : List String} {value : String → α}
    {change : α → α} :
    Object.replaceEntry name change (keys.map fun k => (k, value k)) =
      keys.map fun k => (k, Function.update value name (change (value name)) k) := by
  rw [Object.replaceEntry, List.map_map]
  refine List.map_congr_left fun k _ => ?_
  by_cases hk : k = name
  · subst hk
    simp
  · simp [hk]

/-- A change of a leaf changes the values under its name. -/
theorem updateLeaf_make {change : List LeafValue → List LeafValue} :
    (c.make values objects augmentations anydata).updateLeaf name change =
      c.make (Function.update values name (change (values name))) objects augmentations anydata := by
  rw [make, Object.updateLeaf, replaceEntry_map, make]

/-- A change of a member changes the objects under its name. -/
theorem updateMember_make {change : List Object → List Object} :
    (c.make values objects augmentations anydata).updateMember name change =
      c.make values (Function.update objects name (change (objects name))) augmentations
        anydata := by
  rw [make, Object.updateMember, replaceEntry_map, make]

/-- Only what stands under the names of own fields counts. -/
theorem make_congr (hv : ∀ name ∈ c.valueNames, values name = values' name)
    (ho : ∀ name ∈ c.objectNames, objects name = objects' name) :
    c.make values objects augmentations anydata =
      c.make values' objects' augmentations anydata := by
  rw [make, make, List.map_congr_left fun name h => congrArg (Prod.mk name) (hv name h),
    List.map_congr_left fun name h => congrArg (Prod.mk name) (ho name h)]

/-- Objects that are made are given by what they hold. -/
theorem make_shape : c.make (c.make values objects augmentations anydata).leafValues
    (c.make values objects augmentations anydata).objects augmentations anydata =
      c.make values objects augmentations anydata :=
  make_congr (fun _ h => by rw [leafValues_make, if_pos h])
    (fun _ h => by rw [objects_make, if_pos h])

end Class

/-- An object of a class in which nothing is set is proper. -/
theorem Object.proper_new (c : Class) : c.new.Proper := by
  rw [Class.new_eq_make]
  refine ⟨Class.make_shape, ?_, ?_, ?_, List.nodup_nil⟩
  · intro f _ _
    rw [Class.leafValues_make]
    split <;> exact Nat.zero_le _
  · intro f _ _
    rw [Class.objects_make]
    split <;> exact Nat.zero_le _
  · intro f _ type _ v hv
    rw [Class.leafValues_make] at hv
    split at hv <;> cases hv

/-! ### Equality -/

namespace Object

variable {as bs : List Object}

theorem beqAll_iff : beqAll as bs = true ↔ List.Forall₂ (fun a b => (a == b) = true) as bs := by
  induction as generalizing bs with
  | nil => cases bs <;> simp [beqAll]
  | cons a as ih =>
    cases bs with
    | nil => simp [beqAll]
    | cons b bs =>
      rw [beqAll, Bool.and_eq_true, ih, List.forall₂_cons]
      rfl

theorem beqMembers_iff {names : List String} : beqMembers (names.map fun name => (name, objects name))
      (names.map fun name => (name, objects' name)) = true ↔
    ∀ name ∈ names, List.Forall₂ (fun a b => (a == b) = true) (objects name) (objects' name) := by
  induction names with
  | nil => simp [beqMembers]
  | cons name names ih =>
    simp only [List.map_cons, beqMembers, beq_self_eq_true, Bool.true_and, Bool.and_eq_true,
      beqAll_iff, ih, List.mem_cons, forall_eq_or_imp]

/-- Whether augmentations are found is decided class by class. -/
theorem foundIn_iff : foundIn as bs = true ↔
    ∀ a ∈ as, ∃ b, (bs.find? fun b => b.className == a.className) = some b ∧ (a == b) = true := by
  induction as with
  | nil => simp [foundIn]
  | cons a as ih =>
    rw [foundIn, Bool.and_eq_true, ih, List.forall_mem_cons]
    refine and_congr_left fun _ => ?_
    cases bs.find? fun b => b.className == a.className with
    | none => simp
    | some b => simp [BEq.beq]

end Object

/-- Two objects of a class are equal if their fields hold the same and their extensions are the
same, those by class in any order. -/
theorem Class.make_beq_make_iff :
    (c.make values objects augmentations anydata ==
      c.make values' objects' augmentations' anydata') = true ↔
      (∀ name ∈ c.valueNames, values name = values' name) ∧
      (∀ name ∈ c.objectNames,
        List.Forall₂ (fun a b => (a == b) = true) (objects name) (objects' name)) ∧
      (augmentations.length = augmentations'.length ∧
        ∀ a ∈ augmentations, ∃ b,
          (augmentations'.find? fun b => b.className == a.className) = some b ∧ (a == b) = true) ∧
      List.Forall₂ (fun a b => (a == b) = true) anydata anydata' := by
  have hleaves : ((c.valueNames.map fun name => (name, values name)) ==
      c.valueNames.map fun name => (name, values' name)) = true ↔
      ∀ name ∈ c.valueNames, values name = values' name := by
    simp
  change Object.beq _ _ = true ↔ _
  simp only [make, Object.beq, beq_self_eq_true, Bool.true_and, Bool.and_eq_true, hleaves,
    Object.beqMembers_iff, Object.foundIn_iff, Object.beqAll_iff, beq_iff_eq, and_assoc]

end YangBinding
