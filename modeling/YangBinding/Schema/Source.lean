import YangBinding.Calendar.Date
import YangBinding.Schema.Kind

/-!
# Model sources

The declarations that a schema model is compiled from: modules with their nodes, nested as they are
declared, and with their augments, which name their targets by path.
-/

namespace YangBinding.Schema

open Calendar (Date)

/-- The declaration of a node and of the nodes in it. -/
structure NodeSource where
  kind : Kind
  name : String
  ns : Option String := none
  className : Option String := none
  keys : List String := []
  config : Bool := true
  children : List NodeSource := []
  deriving Repr, Inhabited

/-- The declaration of an augment. -/
structure AugmentSource where
  /-- The schema path of the node to be augmented. -/
  target : String
  className : Option String := none
  children : List NodeSource := []
  deriving Repr, Inhabited

/-- The declaration of a module. -/
structure ModuleSource where
  name : String
  ns : String
  revision : Option Date := none
  className : Option String := none
  children : List NodeSource := []
  augments : List AugmentSource := []
  deriving Repr

/-- The declarations of a model. -/
structure Source where
  id : String
  modules : List ModuleSource
  deriving Repr

end YangBinding.Schema
