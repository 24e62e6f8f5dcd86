/-!
# Kinds of schema nodes

Every construct of a schema has one of thirteen kinds. Choices and cases structure the schema but
never show up in data; leaves and leaf-lists end every path.
-/

namespace YangBinding.Schema

/-- The kind of a schema node. -/
inductive Kind where
  | module
  | container
  | list
  | leaf
  | leafList
  | choice
  | case
  | augment
  | rpc
  | input
  | output
  | notification
  | anydata
  deriving DecidableEq, Repr, Inhabited

namespace Kind

/-- Every kind. -/
def all : List Kind :=
  [module, container, list, leaf, leafList, choice, case, augment, rpc, input, output, notification,
    anydata]

theorem mem_all (k : Kind) : k ∈ all := by
  cases k <;> decide

/-- The name of a kind. -/
def text : Kind → String
  | module => "module"
  | container => "container"
  | list => "list"
  | leaf => "leaf"
  | leafList => "leaf-list"
  | choice => "choice"
  | case => "case"
  | augment => "augment"
  | rpc => "rpc"
  | input => "input"
  | output => "output"
  | notification => "notification"
  | anydata => "anydata"

/-- The kind that a name stands for. -/
def ofText? (s : String) : Option Kind :=
  all.find? fun k => k.text == s

/-- Reading a kind's name gives the kind back. -/
theorem ofText?_text (k : Kind) : ofText? k.text = some k := by
  cases k <;> decide

/-- Choices and cases never appear in data. -/
def isTransparent (k : Kind) : Bool :=
  k = choice || k = case

/-- Leaves and leaf-lists end a path and carry values. -/
def isLeafLike (k : Kind) : Bool :=
  k = leaf || k = leafList

/-- Everything but leaves, leaf-lists and anydata may have children in the schema. -/
def canHoldChildren (k : Kind) : Bool :=
  !(k = leaf || k = leafList || k = anydata)

/-- Operations and notifications, which are no configuration or state. -/
def isOperation (k : Kind) : Bool :=
  k = rpc || k = notification

/-- Kinds whose nodes hold one object in the data: a container, or something addressed like one. -/
def isSingleObject (k : Kind) : Bool :=
  k = container || k = anydata || k = input || k = output || k = notification

end Kind

end YangBinding.Schema
