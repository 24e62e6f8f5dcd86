import YangBinding.Registry.Lookup

/-!
# Assembling data trees

A data tree is put together from the top: adding a node descends into it, and leaving it completes
it and puts it among the children of the node above. Every node, leaves included, is left once. The
schema decides what kind of node each name stands for. The keys of a list entry are taken from its
leaves when it is left, so they can be added in any order.

## Main definitions

* `Assembly`: a tree under construction
* `Assembly.add`, `Assembly.enter`, `Assembly.exit`: its steps
* `Assembly.finish`: the top-level nodes
-/

namespace YangBinding.Tree

open Schema (Ref)

/-- A node that has been entered and not yet left. -/
structure Frame where
  schema : Ref
  value : Option LeafValue := none
  children : List Node := []

/-- A data tree under construction. -/
structure Assembly where
  /-- The schema node that the tree hangs below, none for the root. -/
  base : Option Ref := none
  /-- The nodes that are open, innermost first. -/
  stack : List Frame := []
  /-- The top-level nodes that are complete, in order. -/
  forest : List Node := []

/-- The key leaf of a list entry for a declared key: the first leaf of that name. -/
def keyLeaf? (children : List Node) (key : String) : Option KeyLeaf :=
  (children.find? fun c => c.shape == .singleLeaf && c.key.name == key).bind fun c =>
    c.value?.map fun value => { id := c.key.id, value }

/-- The key leaf of a list entry for a declared key, which has to be there. -/
def requireKeyLeaf (list : Ref) (children : List Node) (key : String) : Result KeyLeaf :=
  match keyLeaf? children key with
  | some leaf => .ok leaf
  | none => Result.refuse (.missingKeyLeaf list.name key)

/-- The data node that a frame has become. -/
def Frame.node (frame : Frame) : Result Node :=
  let id := frame.schema.id
  match frame.schema.kind with
  | .leaf => .ok (.leaf { id } .singleLeaf (frame.value.getD .empty))
  | .leafList =>
    let value := frame.value.getD .empty
    .ok (.leaf { id, selector := .leafList value } .multiLeaf value)
  | .list => do
    let leaves ← frame.schema.keys.mapM (requireKeyLeaf frame.schema frame.children)
    pure (.inner { id, selector := .list leaves } .multiNode frame.children)
  | _ => .ok (.inner { id } .singleNode frame.children)

namespace Assembly

/-- An assembly below the node at a resource id. -/
def at? (reg : Registry) (id : ResourceId) : Result Assembly := do
  let base ← reg.resolve id
  match base with
  | some node =>
    if node.kind.isLeafLike then Result.refuse (.nothingBelow node.kind node.name)
    else pure { base }
  | none => pure { base }

/-- The schema node of the current position, none at the root. -/
def current (a : Assembly) : Option Ref :=
  (a.stack.head?.map Frame.schema) <|> a.base

/-- The number of open nodes. -/
def depth (a : Assembly) : Nat := a.stack.length

/-- The value of a node of a schema node. A leaf without a value is empty; an entry of a leaf-list
needs one; nothing else has one. -/
def nodeValue (schema : Ref) (value : Option LeafValue) : Result (Option LeafValue) :=
  match schema.kind, value with
  | .leaf, value => .ok (some (value.getD .empty))
  | .leafList, some value => .ok (some value)
  | .leafList, none => Result.refuse (.entryWithoutValue schema.name)
  | kind, some _ => Result.refuse (.unexpectedValue kind schema.name)
  | _, none => .ok none

/-- Descends into a node of a schema node that is already known. -/
def enter (a : Assembly) (schema : Ref) (value : Option LeafValue) : Result Assembly := do
  match a.current with
  | some node =>
    if node.kind.isLeafLike then
      Result.refuse (.notBelow schema.name node.kind node.name)
  | none => pure ()
  let value ← nodeValue schema value
  pure { a with stack := { schema, value } :: a.stack }

/-- Descends into a child of the current node that is given by name. -/
def add (a : Assembly) (reg : Registry) (name : String) (ns : Option String)
    (value : Option LeafValue) : Result Assembly := do
  let child ← Result.found (.noNodeNamed name (a.current.map Ref.path))
    (reg.childOf? a.current name ns)
  a.enter child.node value

/-- Takes the innermost frame off, whether or not it can be completed. -/
def pop (a : Assembly) : Assembly := { a with stack := a.stack.tail }

/-- Puts a complete node below the innermost frame, or among the top-level nodes. -/
def place (a : Assembly) (node : Node) : Assembly :=
  match a.stack with
  | frame :: rest =>
    { a with stack := { frame with children := Children.insert node frame.children } :: rest }
  | [] => { a with forest := a.forest ++ [node] }

/-- Completes the current node and returns to the one above. -/
def exit (a : Assembly) : Result Assembly :=
  match a.stack with
  | [] => Result.refuse .exitAtRoot
  | frame :: _ => do
    let node ← frame.node
    pure (a.pop.place node)

/-- The top-level nodes. Every node has to be left. -/
def finish (a : Assembly) : Result (List Node) :=
  if a.stack.isEmpty then .ok a.forest else Result.refuse (.notExited a.stack.length)

/-! ## Runs -/

/-- A step of the construction. -/
inductive Command where
  | add (name : String) (ns : Option String) (value : Option LeafValue)
  | exit

/-- The result of a step. -/
def perform (a : Assembly) (reg : Registry) : Command → Result Assembly
  | .add name ns value => a.add reg name ns value
  | .exit => a.exit

/-- What a refused step leaves behind: a node that cannot be completed is given up, otherwise
nothing changes. -/
def afterRefusal (a : Assembly) : Command → Assembly
  | .add .. => a
  | .exit => a.pop

/-- The assembly after a step, whether it succeeds or not. -/
def step (a : Assembly) (reg : Registry) (command : Command) : Assembly :=
  match a.perform reg command with
  | .ok next => next
  | .error _ => a.afterRefusal command

/-- The assembly after a sequence of steps, whether they succeed or not. -/
def run (a : Assembly) (reg : Registry) (commands : List Command) : Assembly :=
  commands.foldl (fun a command => a.step reg command) a

end Assembly

end YangBinding.Tree
