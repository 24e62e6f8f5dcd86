import YangBinding.Proofs.Latest

/-!
# Parts of an object that is changed

A change touches one part of an object and leaves the others as they are.

## Main results

* `Object.augmentation?_addAugmentation` — what the classes lead to when an augmentation is attached
-/

namespace YangBinding.Object

section Change

variable (name : String) (values : List LeafValue → List LeafValue)
  (objects : List Object → List Object) (o a : Object)

@[simp]
theorem type_updateLeaf : (o.updateLeaf name values).type = o.type := by
  cases o
  rfl

@[simp]
theorem objects_updateLeaf : (o.updateLeaf name values).objects = o.objects := by
  cases o
  rfl

@[simp]
theorem augmentations_updateLeaf :
    (o.updateLeaf name values).augmentations = o.augmentations := by
  cases o
  rfl

@[simp]
theorem augmentation?_updateLeaf :
    (o.updateLeaf name values).augmentation? = o.augmentation? := by
  cases o
  rfl

@[simp]
theorem anydata_updateLeaf : (o.updateLeaf name values).anydata = o.anydata := by
  cases o
  rfl

@[simp]
theorem type_updateMember : (o.updateMember name objects).type = o.type := by
  cases o
  rfl

@[simp]
theorem leafValues_updateMember : (o.updateMember name objects).leafValues = o.leafValues := by
  cases o
  rfl

@[simp]
theorem augmentations_updateMember :
    (o.updateMember name objects).augmentations = o.augmentations := by
  cases o
  rfl

@[simp]
theorem augmentation?_updateMember :
    (o.updateMember name objects).augmentation? = o.augmentation? := by
  cases o
  rfl

@[simp]
theorem anydata_updateMember : (o.updateMember name objects).anydata = o.anydata := by
  cases o
  rfl

@[simp]
theorem type_addAugmentation : (o.addAugmentation a).type = o.type := by
  cases o
  rfl

@[simp]
theorem leafValues_addAugmentation : (o.addAugmentation a).leafValues = o.leafValues := by
  cases o
  rfl

@[simp]
theorem objects_addAugmentation : (o.addAugmentation a).objects = o.objects := by
  cases o
  rfl

@[simp]
theorem augmentations_addAugmentation :
    (o.addAugmentation a).augmentations = insertAugmentation a o.augmentations := by
  cases o
  rfl

@[simp]
theorem anydata_addAugmentation : (o.addAugmentation a).anydata = o.anydata := by
  cases o
  rfl

@[simp]
theorem type_addAnydata : (o.addAnydata a).type = o.type := by
  cases o
  rfl

@[simp]
theorem leafValues_addAnydata : (o.addAnydata a).leafValues = o.leafValues := by
  cases o
  rfl

@[simp]
theorem objects_addAnydata : (o.addAnydata a).objects = o.objects := by
  cases o
  rfl

@[simp]
theorem augmentations_addAnydata : (o.addAnydata a).augmentations = o.augmentations := by
  cases o
  rfl

@[simp]
theorem augmentation?_addAnydata : (o.addAnydata a).augmentation? = o.augmentation? := by
  cases o
  rfl

@[simp]
theorem anydata_addAnydata : (o.addAnydata a).anydata = o.anydata ++ [a] := by
  cases o
  rfl

end Change

variable {o a : Object}

/-- After an augmentation has been attached, its class leads to it and any other class to what it
led to before. -/
theorem augmentation?_addAugmentation (className : String) :
    (o.addAugmentation a).augmentation? className =
      if a.className = className then some a else o.augmentation? className := by
  rw [augmentation?, augmentations_addAugmentation, insertAugmentation_eq, List.find?_upsert]
  rfl

end YangBinding.Object
