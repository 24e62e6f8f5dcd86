import YangBinding.Error
import YangBinding.Wire.Leaf

/-!
# Objects in JSON

An object is written as its class, its fields in the order of the class, and its extensions. Fields
that are not set, and extensions that are not there, are left out. Reading starts from an object in
which nothing is set and goes through the same accesses as any other change of an object, so a
written object that does not fit its class is refused.

## Main definitions

* `Wire.object`, `Wire.fieldContent`: an object, and what a field of it holds, as JSON
* `Wire.readObject`, `Wire.storeField`: the object of a JSON value, and a field set from one
-/

namespace YangBinding.Wire

open Json

/-- The items of an array that is left out when it is empty. -/
def listed : List Json → Option Json
  | [] => none
  | items => some (.array items)

mutual

/-- An object as JSON. -/
def object (o : Object) : Except FieldError Json := do
  let fields ← o.type.fields.mapM fun f => fieldContent f o
  let augmentations ← o.augmentations.attach.mapM fun ⟨a, h⟩ =>
    have := Object.sizeOf_lt_of_mem_augmentations h
    object a
  let anydata ← o.anydata.attach.mapM fun ⟨a, h⟩ =>
    have := Object.sizeOf_lt_of_mem_anydata h
    object a
  let shown := (o.type.fields.zip fields).filterMap fun (f, content) =>
    content.map fun content => .array [.string f.name, content]
  let extensions := [("aug", listed augmentations), ("any", listed anydata)]
  pure (.object ([("class", .string o.className), ("fields", .array shown)] ++
    extensions.filterMap fun (key, items) => items.map fun items => (key, items)))
termination_by (sizeOf o, 1)

/-- What a field of an object holds, none if it is not set. -/
def fieldContent (f : Field) (o : Object) : Except FieldError (Option Json) := do
  f.checkTarget o
  let values := (o.leafValues f.name).map leafValue
  let objects ← (o.objects f.name).attach.mapM fun ⟨child, h⟩ =>
    have := Object.sizeOf_lt_of_mem_members h
    object child
  match f.type with
  | .leaf _ => pure values.head?
  | .leafList _ => pure (listed values)
  | .container _ | .choice => pure objects.head?
  | .list _ => pure (listed objects)
termination_by (sizeOf o, 0)

end

/-! ## Reading -/

/-- Accesses an object with each of several values. A value that cannot be read or stored ends this,
and the object is as the values before it left it. -/
def accessEach {α : Type} (access : α → Object → Except FieldError Object) (o : Object) :
    List (Result α) → Object × Result Unit
  | [] => (o, .ok ())
  | .error cause :: _ => (o, .error cause)
  | .ok a :: rest =>
    match access a o with
    | .ok o => accessEach access o rest
    | .error cause => (o, .error (.field cause))

/-- A value that has to be readable. -/
def readable {α : Type} : Option α → Result α
  | some a => .ok a
  | none => .error .json

/-- A field of an object given by its name and its content. -/
def namedContent (type : Class) : Json → Result (Field × Json)
  | .array [.string name, content] => do
    pure (← readable (type.field? name), content)
  | _ => .error .json

/-- The items of an optional member. -/
def memberItems (key : String) (j : Json) : List Json :=
  ((j.member? key).bind items?).getD []

mutual

/-- Sets a field of an object, or adds to it, from a JSON value. -/
def storeField (classes : String → Option Class) :
    Nat → Field → Json → Object → Object × Result Unit
  | 0, _, _, o => (o, .error .json)
  | depth + 1, f, j, o =>
    let items := (items? j).getD []
    let value (j : Json) := readable (readLeafValue nestingLimit j)
    match f.type with
    | .leaf type => accessEach (f.setLeaf type) o [value j]
    | .leafList type => accessEach (f.pushLeaf type) o (items.map value)
    | .container typeName => accessEach (f.setContainer typeName) o [readObject classes depth j]
    | .list typeName => accessEach (f.pushEntry typeName) o (items.map (readObject classes depth))
    | .choice => accessEach f.setCase o [readObject classes depth j]

/-- The object of a JSON value. -/
def readObject (classes : String → Option Class) : Nat → Json → Result Object
  | 0, _ => .error .json
  | depth + 1, j => do
    let type ← readable (((j.member? "class").bind string?).bind classes)
    let o ← (memberItems "fields" j).foldlM (fun o entry => do
      let (f, content) ← namedContent type entry
      let (o, outcome) := storeField classes depth f content o
      outcome
      pure o) type.new
    let augmentations ← (memberItems "aug" j).mapM (readObject classes depth)
    let anydata ← (memberItems "any" j).mapM (readObject classes depth)
    pure (anydata.foldl (fun o payload => o.addAnydata payload)
      (augmentations.foldl (fun o a => o.addAugmentation a) o))

end

end YangBinding.Wire
