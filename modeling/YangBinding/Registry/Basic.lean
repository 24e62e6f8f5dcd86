import YangBinding.Error
import YangBinding.Registry.Index
import YangBinding.Text.Split

/-!
# The registry

The registry knows the models that are in use. It finds modules by name and namespace, nodes by the
class of their objects, and the payloads that may be put into an anydata node by the class of the
node. A model that is registered later hides what earlier ones provide under the same names, until
it is removed again.

## Main definitions

* `Registry`: the models in use, and how to find things in them
* `Registry.register`, `Registry.unregister`: models come and go
* `Registry.registerAnydata`, `Registry.unregisterAnydata`: payloads of anydata nodes
* `Registry.module?`, `Registry.moduleOfNamespace?`, `Registry.nodeOfClass?`: finding things
-/

namespace YangBinding

open Calendar (Date)
open Schema (Model ModelError Ref)
open Std (TreeMap)

/-- A node that is bound to a class, with what is known of the class itself. -/
structure Binding where
  node : Ref
  class? : Option Class

/-- The models in use. -/
structure Registry where
  /-- A class binding that names no node is refused. -/
  strictBindings : Bool := true
  /-- The models in the order of their registration. -/
  models : List Model := []
  modules : Index := ∅
  namespaces : Index := ∅
  /-- The nodes bound to each class, the latest first. -/
  classes : TreeMap String (List Binding) := ∅
  /-- The classes of the payloads of each anydata class, in the order of their registration. -/
  anydata : TreeMap String (List String) := ∅

namespace Registry

/-- The model of an identifier. -/
def model? (reg : Registry) (id : String) : Option Model :=
  reg.models.find? fun m => m.id == id

/-! ## Registration -/

/-- The first class that is bound to a node although an earlier node has it already. -/
def repeatedClass? (seen : List String) : List Ref → Option String
  | [] => none
  | node :: nodes =>
    match node.className with
    | some c => if seen.contains c then some c else repeatedClass? (c :: seen) nodes
    | none => repeatedClass? seen nodes

/-- The nodes of a model that are bound to a class. -/
def boundNodes (m : Model) : List (String × Ref) :=
  m.refs.filterMap fun node => node.className.map fun c => (c, node)

/-- The first class whose name no node of the model refers to. -/
def strayClass? (m : Model) (bindings : List Class) : Option Class :=
  bindings.find? fun c => !(boundNodes m).any fun bound => bound.1 == c.className

/-- What is known of a class; of several bindings of one class the last counts. -/
def lastBinding? (bindings : List Class) (className : String) : Option Class :=
  bindings.reverse.find? fun c => c.className == className

/-- Why a model cannot be registered. -/
def obstacle? (reg : Registry) (m : Model) (bindings : List Class) : Option ModelError :=
  if (reg.model? m.id).isSome then some (.alreadyRegistered m.id)
  else match repeatedClass? [] m.refs with
    | some c => some (.classBoundTwice c m.id)
    | none =>
      if reg.strictBindings then
        (strayClass? m bindings).map fun c => .bindingWithoutNode c.className m.id
      else none

/-- Adds the modules of a model under the names that a function gives them. -/
def addModules (name? : Ref → Option String) (m : Model) (index : Index) : Index :=
  m.moduleRefs.foldl (fun index module =>
    match name? module with
    | some name => index.add name module
    | none => index) index

/-- Adds the classes of a model. -/
def addClasses (m : Model) (bindings : List Class) (classes : TreeMap String (List Binding)) :
    TreeMap String (List Binding) :=
  (boundNodes m).foldl (fun classes bound =>
    classes.alter bound.1
      (Index.pushed { node := bound.2, class? := lastBinding? bindings bound.1 })) classes

/-- Registers a model and what is known of its classes. A model that cannot be registered leaves no
trace. -/
def register (reg : Registry) (m : Model) (bindings : List Class) : Result Registry :=
  match reg.obstacle? m bindings with
  | some cause => .error (.model cause)
  | none => .ok { reg with
      models := reg.models ++ [m]
      modules := addModules (fun module => some module.name) m reg.modules
      namespaces := addModules Ref.ns m reg.namespaces
      classes := addClasses m bindings reg.classes }

/-- Removes a model and all that it contributed, and hands the model out. Classes that no model binds
any more lose their anydata registrations. -/
def unregister (reg : Registry) (id : String) : Option Model × Registry :=
  let classes : TreeMap String (List Binding) :=
    reg.classes.filterMap fun _ bound => Index.kept (fun b => b.node.model.id != id) bound
  let gone (c : String) : Bool := reg.classes.contains c && !classes.contains c
  (reg.model? id,
    { reg with
      models := reg.models.filter fun m => m.id != id
      modules := reg.modules.drop id
      namespaces := reg.namespaces.drop id
      classes
      anydata := reg.anydata.filterMap fun holder payloads =>
        if gone holder then none else Index.kept (fun p => !gone p) payloads })

/-! ## Finding modules, nodes and classes -/

/-- The latest binding of a class. -/
def binding? (reg : Registry) (className : String) : Option Binding :=
  reg.classes[className]?.bind List.head?

/-- The node that is bound to a class. -/
def nodeOfClass? (reg : Registry) (className : String) : Option Ref :=
  (reg.binding? className).map Binding.node

/-- What is known of a class. -/
def class? (reg : Registry) (className : String) : Option Class :=
  (reg.binding? className).bind Binding.class?

/-- What is known of the class of a node. -/
def classOf? (reg : Registry) (node : Ref) : Option Class :=
  node.className.bind reg.class?

/-- The module of a name, or of a name and a revision with `@` between them. -/
def module? (reg : Registry) (name : String) : Option Ref :=
  match Text.halves? '@' name with
  | some (name, revision) =>
    (Date.read? revision).toOption.bind fun date => reg.modules.ofRevision? name (some date)
  | none => reg.modules.select? name

/-- The module of a namespace. Unless operations are asked for too, a module that has nothing but
operations and notifications at its top does not count. -/
def moduleOfNamespace? (reg : Registry) (ns : String) (operations : Bool) : Option Ref :=
  (reg.namespaces.select? ns).filter fun module =>
    let top := module.children.filter fun c => c.kind != .augment
    operations || top.isEmpty || !top.all fun c => c.kind.isOperation

/-! ## Anydata -/

/-- The payload of a class, if it is registered for the holder. -/
def payload? (reg : Registry) (holder payload : String) : Option Ref :=
  if (reg.anydata[holder]?.getD []).contains payload then reg.nodeOfClass? payload else none

/-- The first payload registered for the holder that has the name and, if one is given, the
namespace. -/
def payloadNamed? (reg : Registry) (holder name : String) (ns : Option String) : Option Ref :=
  ((reg.anydata[holder]?.getD []).filterMap reg.nodeOfClass?).find? fun node => node.id.fits name ns

/-- The node that is bound to a class, which has to be there. -/
def nodeOfClass (reg : Registry) (className : String) : Result Ref :=
  Result.found (.noNodeForClass className) (reg.nodeOfClass? className)

/-- Payloads with one more at the end, unless it is there already. -/
def withPayload (payload : String) : Option (List String) → Option (List String)
  | some payloads =>
    some (if payloads.contains payload then payloads else payloads ++ [payload])
  | none => some [payload]

/-- Registers a payload for an anydata node. -/
def registerAnydata (reg : Registry) (holder payload : String) : Result Registry := do
  let node ← reg.nodeOfClass holder
  if node.kind != .anydata then throw (.model (.notAnydata holder node.kind node.name))
  let content ← reg.nodeOfClass payload
  if content.kind.isLeafLike then throw (.model (.leafPayload payload))
  pure { reg with anydata := reg.anydata.alter holder (withPayload payload) }

/-- The payload is registered for the holder. -/
def hasPayload (reg : Registry) (holder payload : String) : Bool :=
  (reg.anydata[holder]?.getD []).contains payload

/-- Takes back the registration of a payload, and tells whether there was one. -/
def unregisterAnydata (reg : Registry) (holder payload : String) : Bool × Registry :=
  let payloads := reg.anydata[holder]?.getD []
  ((payloads.filter fun p => p != payload).length != payloads.length,
    { reg with anydata := reg.anydata.alter holder fun payloads =>
        payloads.bind (Index.kept fun p => p != payload) })

end Registry

end YangBinding
