import YangBinding.Object.Basic

/-!
# Access to fields

Objects are read and changed only through the fields of classes. A field refuses objects of another
type than the one it belongs to, values that its leaf type cannot hold, and child objects of another
type than its own.

## Main definitions

* `FieldError`: why an access is refused
* `Field.values`, `Field.objects`: what a field of an object holds
* `Field.setLeaf`, `Field.pushLeaf`: storing values
* `Field.setContainer`, `Field.pushEntry`, `Field.setCase`: storing objects
-/

namespace YangBinding

/-- Why an access to a field is refused. -/
inductive FieldError where
  /-- The field belongs to another type than that of the object. -/
  | wrongTarget (expected actual : String)
  /-- The value cannot be held as the type of the leaf. -/
  | invalidValue (value : LeafValue) (type : Scalar)
  /-- The child is of another type than the objects of the field. -/
  | wrongObject (field actual : String)
  deriving DecidableEq, Repr

/-- The wording of a refusal. -/
def FieldError.message : FieldError → String
  | .wrongTarget expected actual =>
    s!"Accessor for {expected} applied to an object of type {actual}"
  | .invalidValue value type => s!"Value {value.diagnostic} cannot be stored as {type.name}"
  | .wrongObject field actual => s!"Object of type {actual} cannot be stored in {field}"

/-- The value that a leaf of a type stores for a given value. -/
def Scalar.store (type : Scalar) (value : LeafValue) : Except FieldError LeafValue :=
  match type.store? value with
  | some stored => .ok stored
  | none => .error (.invalidValue value type)

namespace Field

/-- The field belongs to the type of the object. -/
def checkTarget (f : Field) (o : Object) : Except FieldError Unit :=
  if o.type.typeName = f.owner then .ok () else .error (.wrongTarget f.owner o.className)

/-- The child has the type of the objects of a container or list. -/
def checkChild (f : Field) (typeName : String) (child : Object) : Except FieldError Unit :=
  if child.type.typeName = typeName then .ok () else .error (.wrongObject f.name child.className)

/-- The values that a leaf or leaf-list of an object holds. -/
def values (f : Field) (o : Object) : Except FieldError (List LeafValue) := do
  f.checkTarget o
  pure (o.leafValues f.name)

/-- The objects that a container, list or choice of an object holds. -/
def objects (f : Field) (o : Object) : Except FieldError (List Object) := do
  f.checkTarget o
  pure (o.objects f.name)

/-- Sets a leaf. -/
def setLeaf (f : Field) (type : Scalar) (value : LeafValue) (o : Object) :
    Except FieldError Object := do
  f.checkTarget o
  let stored ← type.store value
  pure (o.updateLeaf f.name fun _ => [stored])

/-- Adds a value to a leaf-list. -/
def pushLeaf (f : Field) (type : Scalar) (value : LeafValue) (o : Object) :
    Except FieldError Object := do
  f.checkTarget o
  let stored ← type.store value
  pure (o.updateLeaf f.name fun values => values ++ [stored])

/-- Sets a container; the child is looked at before the target. -/
def setContainer (f : Field) (typeName : String) (child : Object) (o : Object) :
    Except FieldError Object := do
  f.checkChild typeName child
  f.checkTarget o
  pure (o.updateMember f.name fun _ => [child])

/-- Adds an entry to a list; the entry is looked at before the target. -/
def pushEntry (f : Field) (typeName : String) (entry : Object) (o : Object) :
    Except FieldError Object := do
  f.checkChild typeName entry
  f.checkTarget o
  pure (o.updateMember f.name fun entries => entries ++ [entry])

/-- Selects a case of a choice; its class is free. -/
def setCase (f : Field) (selected : Object) (o : Object) : Except FieldError Object := do
  f.checkTarget o
  pure (o.updateMember f.name fun _ => [selected])

end Field

end YangBinding
