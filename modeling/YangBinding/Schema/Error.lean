import YangBinding.Calendar.Date
import YangBinding.Schema.Kind

/-!
# Faults of schema models

What can be wrong with a model while it is drafted, compiled or registered. Each fault carries what
its wording needs and nothing else.
-/

namespace YangBinding.Schema

/-- Why a schema model, or a registration, is refused. -/
inductive ModelError where
  /-- A handle that stands for no node. -/
  | unknownNode (index : Nat)
  /-- A node of this kind has no place below a node of the other kind. -/
  | misplaced (kind : Kind) (name : String) (parent : Kind)
  | augmentOutsideModule
  | notAugmentable (kind : Kind)
  | keysOutsideList (kind : Kind) (name : String)
  | unresolvedPath (path : String)
  | noModules (model : String)
  /-- A key of the list is not one of its leaves. -/
  | undeclaredKey (list key : String)
  | unresolvedAugments (targets : List String)
  | invalidRevision (text : String) (cause : Calendar.DateError)
  | alreadyRegistered (model : String)
  | classBoundTwice (className model : String)
  | bindingWithoutNode (className model : String)
  | notAnydata (className : String) (kind : Kind) (name : String)
  | leafPayload (className : String)
  deriving DecidableEq, Repr

/-- The wording of a fault. -/
def ModelError.message : ModelError → String
  | .unknownNode index => s!"unknown node id {index}"
  | .misplaced kind name parent =>
    s!"{kind.text} '{name}' cannot be declared under a {parent.text}"
  | .augmentOutsideModule => "augments must be declared on a module"
  | .notAugmentable kind => s!"a {kind.text} cannot be the target of an augment"
  | .keysOutsideList kind name => s!"keys declared on {kind.text} '{name}'"
  | .unresolvedPath path => s!"schema path '{path}' does not resolve"
  | .noModules model => s!"model '{model}' declares no modules"
  | .undeclaredKey list key => s!"list '{list}' declares key '{key}' that is not one of its leaves"
  | .unresolvedAugments targets => "unresolved augment targets: " ++ ", ".intercalate targets
  | .invalidRevision text cause => s!"invalid revision '{text}': {cause.message}"
  | .alreadyRegistered model => s!"model '{model}' is already registered"
  | .classBoundTwice className model =>
    s!"class '{className}' is bound to more than one node of model '{model}'"
  | .bindingWithoutNode className model =>
    s!"class binding '{className}' names no node of model '{model}'"
  | .notAnydata className kind name =>
    s!"class '{className}' is bound to {kind.text} '{name}', not to an anydata node"
  | .leafPayload className => s!"anydata payload '{className}' must be an inner node"

end YangBinding.Schema
