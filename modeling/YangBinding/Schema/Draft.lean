import YangBinding.Schema.Error
import YangBinding.Schema.Walk
import YangBinding.Text.Split

/-!
# Drafting schema models

A model is put together node by node. Each command adds one node or changes one property, and a
command that would break a rule of the schema is refused and changes nothing. A node is named by
the number of nodes that were there before it. When the draft is complete it is frozen: every node
then inherits the namespace of its parent unless one was declared on it.

## Main definitions

* `Draft`: a model under construction, whose nodes carry the namespaces declared on them
* `Draft.Command`, `Draft.perform`, `Draft.run`: the steps of the construction
* `Draft.resolve`: the node at a schema path
* `Draft.freeze`: the finished model
-/

namespace YangBinding.Schema

open Calendar (Date)

/-- Which kinds may be declared under which. -/
def Kind.admits (parent : Kind) : Kind → Bool
  | .module | .augment => false
  | .case => parent == .choice || parent == .augment
  | .input | .output => parent == .rpc
  | .rpc => parent == .module
  | _ => parent.canHoldChildren && parent != .choice && parent != .rpc

/-- Which kinds an augment may target. -/
def Kind.isAugmentable (k : Kind) : Bool :=
  k.canHoldChildren && k != .module

/-- A model under construction. Its nodes carry the namespaces declared on them. -/
structure Draft where
  model : Model
  deriving DecidableEq, Repr

/-! ## Paths -/

/-- The names of a schema path; empty ones do not count. -/
def pathNames (path : String) : List String :=
  (Text.pieces '/' path).filter fun name => name != ""

/-- The module that a name of a path is qualified with, if any, and the name itself. -/
def qualifiedName (name : String) : Option String × String :=
  match Text.halves? ':' name with
  | some (module, name) => (some module, name)
  | none => (none, name)

/-- The child that a name of a schema path leads to. Choices and cases have names in such a path,
augments have not: what they contribute comes after what the node itself declares. -/
def Ref.pathChild? (r : Ref) (name : String) : Option Ref :=
  (r.children.filter fun c => c.kind != .augment).find? (fun c => c.name == name) <|>
    (r.augments.flatMap Ref.children).find? (fun c => c.name == name)

namespace Draft

/-- A draft without nodes. -/
def empty (id : String) : Draft := ⟨{ id }⟩

/-- The number of nodes, which is the name of the next one. -/
def size (d : Draft) : Nat := d.model.nodes.size

/-- The node of a number. -/
def ref (d : Draft) (i : Nat) : Except ModelError Ref :=
  match d.model.ref? i with
  | some r => .ok r
  | none => .error (.unknownNode i)

/-- The first module of a name and a revision. -/
def findModule? (d : Draft) (name : String) (revision : Option Date) : Option Ref :=
  d.model.moduleRefs.find? fun m => m.name == name && m.revision == revision

/-- The node at a schema path. The first name is searched in every module, or only in those it is
qualified with; further qualifications say nothing. -/
def resolve? (d : Draft) (path : String) : Option Ref :=
  match pathNames path with
  | [] => none
  | first :: rest =>
    let (module, name) := qualifiedName first
    let modules := d.model.moduleRefs.filter fun m => module.all fun n => n == m.name
    (modules.findSome? fun m => m.pathChild? name).bind fun top =>
      rest.foldlM (fun r name => r.pathChild? (qualifiedName name).2) top

/-- The node at a schema path, or the fault that there is none. -/
def resolve (d : Draft) (path : String) : Except ModelError Ref :=
  match d.resolve? path with
  | some r => .ok r
  | none => .error (.unresolvedPath path)

/-! ## Commands -/

/-- Replaces what the model says about one node. -/
def update (d : Draft) (i : Nat) (change : Node → Node) : Draft :=
  ⟨{ d.model with nodes := d.model.nodes.modify i change }⟩

/-- Adds a node at the end, and to the children of its parent. -/
def insert (d : Draft) (node : Node) : Draft :=
  let nodes := match node.parent with
    | some p => d.model.nodes.modify p fun n => { n with children := n.children ++ [d.size] }
    | none => d.model.nodes
  ⟨{ d.model with nodes := nodes.push node }⟩

/-- Declares a module. -/
def addModule (d : Draft) (name ns : String) (revision : Option Date) : Draft :=
  let d' := d.insert { id := ⟨name, some ns⟩, kind := .module, revision }
  ⟨{ d'.model with modules := d.model.modules ++ [d.size] }⟩

/-- Declares a child of a node. -/
def addChild (d : Draft) (parent : Nat) (kind : Kind) (name : String) : Except ModelError Draft := do
  let p ← d.ref parent
  if p.kind.admits kind then
    pure (d.insert { id := ⟨name, none⟩, kind, parent := some parent })
  else throw (.misplaced kind name p.kind)

/-- Declares an augment in a module. It is named by the path of its target. -/
def addAugment (d : Draft) (module target : Nat) : Except ModelError Draft := do
  let m ← d.ref module
  if m.kind != .module then throw .augmentOutsideModule
  let t ← d.ref target
  if !t.kind.isAugmentable then throw (.notAugmentable t.kind)
  let d' := d.insert
    { id := ⟨t.targetPath, none⟩, kind := .augment, parent := some module, target := some target }
  pure (d'.update target fun n => { n with augments := n.augments ++ [d.size] })

/-- Binds a node to the class of its objects. -/
def setClass (d : Draft) (i : Nat) (className : String) : Except ModelError Draft := do
  discard (d.ref i)
  pure (d.update i fun n => { n with className := some className })

/-- Declares the keys of a list. -/
def setKeys (d : Draft) (i : Nat) (keys : List String) : Except ModelError Draft := do
  let r ← d.ref i
  if r.kind == .list then pure (d.update i fun n => { n with keys })
  else throw (.keysOutsideList r.kind r.name)

/-- Declares the namespace of a node and of what it contains. -/
def setNamespace (d : Draft) (i : Nat) (ns : String) : Except ModelError Draft := do
  discard (d.ref i)
  pure (d.update i fun n => { n with id := { n.id with ns := some ns } })

/-- Declares a node to be configuration or state. -/
def setConfig (d : Draft) (i : Nat) (config : Bool) : Except ModelError Draft := do
  discard (d.ref i)
  pure (d.update i fun n => { n with config })

/-- A step of the construction. -/
inductive Command where
  | addModule (name ns : String) (revision : Option Date)
  | addChild (parent : Nat) (kind : Kind) (name : String)
  | addAugment (module target : Nat)
  | setClass (node : Nat) (className : String)
  | setKeys (list : Nat) (keys : List String)
  | setNamespace (node : Nat) (ns : String)
  | setConfig (node : Nat) (config : Bool)
  deriving DecidableEq, Repr

/-- The draft after a step, or why the step is refused. -/
def perform (d : Draft) : Command → Except ModelError Draft
  | .addModule name ns revision => .ok (d.addModule name ns revision)
  | .addChild parent kind name => d.addChild parent kind name
  | .addAugment module target => d.addAugment module target
  | .setClass node className => d.setClass node className
  | .setKeys list keys => d.setKeys list keys
  | .setNamespace node ns => d.setNamespace node ns
  | .setConfig node config => d.setConfig node config

/-- The draft after a sequence of steps; a step that is refused changes nothing. -/
def run (d : Draft) (commands : List Command) : Draft :=
  commands.foldl (fun d command => (d.perform command).toOption.getD d) d

/-! ## Freezing -/

/-- Every node gets the namespace of its parent unless one is declared on it. -/
def inheritNamespaces (nodes : Array Node) : Array Node :=
  nodes.foldl (fun done node =>
    let inherited := (node.parent.bind fun p => done[p]?).bind fun p => p.id.ns
    done.push { node with id := { node.id with ns := node.id.ns <|> inherited } }) #[]

/-- The first key of a list that is not one of its leaves. -/
def undeclaredKey? (r : Ref) : Option String :=
  if r.kind == .list then
    r.keys.find? fun key => !r.children.any fun c => c.kind == .leaf && c.name == key
  else none

/-- The finished model. It has a module, and the keys of its lists are leaves of them. -/
def freeze (d : Draft) : Except ModelError Model := do
  if d.model.modules.isEmpty then throw (.noModules d.model.id)
  let m := { d.model with nodes := inheritNamespaces d.model.nodes }
  match m.refs.findSome? fun r => (undeclaredKey? r).map fun key => (r.name, key) with
  | some (list, key) => throw (.undeclaredKey list key)
  | none => pure m

end Draft

end YangBinding.Schema
