import YangBinding.Schema.Draft
import YangBinding.Schema.Source

/-!
# Compiling schema models

Compilation drafts all modules first and then their augments. An augment may target what another
one contributes, in whatever order they are listed: an augment whose target is not there yet waits
for the next round, and rounds go on as long as one of them makes progress.

## Main definitions

* `Draft.graft`: adds a declared node and all that is in it
* `Draft.settle`: adds augments in as many rounds as it takes
* `Source.compile`: the model of a source
-/

namespace YangBinding.Schema

namespace Draft

/-- Binds a node to a class if one is declared. -/
def setDeclaredClass (d : Draft) (i : Nat) : Option String → Except ModelError Draft
  | some className => d.setClass i className
  | none => .ok d

mutual

/-- Adds a declared node, and all that is in it, below a node. -/
def graft (d : Draft) (parent : Nat) : NodeSource → Except ModelError Draft
  | ⟨kind, name, ns, className, keys, config, children⟩ => do
    let i := d.size
    let d ← d.addChild parent kind name
    let d ← match ns with
      | some ns => d.setNamespace i ns
      | none => pure d
    let d ← d.setDeclaredClass i className
    let d ← if keys.isEmpty then pure d else d.setKeys i keys
    let d ← if config then pure d else d.setConfig i false
    graftAll d i children

/-- Adds declared nodes below a node, one after the other. -/
def graftAll (d : Draft) (parent : Nat) : List NodeSource → Except ModelError Draft
  | [] => .ok d
  | source :: sources => do
    let d ← graft d parent source
    graftAll d parent sources

end

/-- Adds a module without its augments. -/
def graftModule (d : Draft) (source : ModuleSource) : Except ModelError Draft := do
  let i := d.size
  let d := d.addModule source.name source.ns source.revision
  let d ← d.setDeclaredClass i source.className
  d.graftAll i source.children

/-- Adds a declared augment of a module at its target. -/
def graftAugment (d : Draft) (module target : Nat) (source : AugmentSource) :
    Except ModelError Draft := do
  let i := d.size
  let d ← d.addAugment module target
  let d ← d.setDeclaredClass i source.className
  d.graftAll i source.children

/-- Adds modules without their augments, and lists the augments with the modules that declare
them. -/
def graftModules (d : Draft) :
    List ModuleSource → Except ModelError (Draft × List (Nat × AugmentSource))
  | [] => .ok (d, [])
  | source :: sources => do
    let d' ← d.graftModule source
    let (last, augments) ← d'.graftModules sources
    pure (last, source.augments.map (fun a => (d.size, a)) ++ augments)

/-- One round: adds each augment whose target is there, and lists those that have to wait. -/
def settleRound (d : Draft) :
    List (Nat × AugmentSource) → Except ModelError (Draft × List (Nat × AugmentSource))
  | [] => .ok (d, [])
  | (module, source) :: rest =>
    match d.resolve? source.target with
    | some target => do
      let d ← d.graftAugment module target.index source
      d.settleRound rest
    | none => do
      let (d, waiting) ← d.settleRound rest
      pure (d, (module, source) :: waiting)

/-- Adds augments in rounds. A round without progress is the last, and what still waits then has no
target. -/
def settle (d : Draft) (pending : List (Nat × AugmentSource)) : Except ModelError Draft :=
  if pending.isEmpty then .ok d
  else
    match d.settleRound pending with
    | .error e => .error e
    | .ok (d, waiting) =>
      if waiting.length < pending.length then d.settle waiting
      else .error (.unresolvedAugments (waiting.map fun p => p.2.target))
termination_by pending.length

end Draft

/-- The model that a source declares. -/
def Source.compile (source : Source) : Except ModelError Model := do
  let (d, augments) ← (Draft.empty source.id).graftModules source.modules
  let d ← d.settle augments
  d.freeze

end YangBinding.Schema
