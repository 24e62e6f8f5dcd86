import YangBinding.Registry.Lookup
import YangBinding.Text.Blank

/-!
# Cursors

A cursor builds a resource id from names as they stand in a text: each name is resolved against the
schema and put into the id with its full identifier. Key values of a list are given in one text,
separated by commas, in the order in which the keys are declared.

## Main definitions

* `Cursor`: a resource id with the schema node it leads to
* `Cursor.descend`: one step down
-/

namespace YangBinding.Tree

open Schema (Ref)

/-- A resource id with the schema node it leads to. -/
structure Cursor where
  id : ResourceId := .root
  /-- The schema node at the id, none at the root. -/
  schema : Option Ref := none

namespace Cursor

/-- A cursor at a resource id. -/
def at? (reg : Registry) (id : ResourceId) : Result Cursor := do
  pure { id, schema := ← reg.resolve id }

/-- The values that a text gives for the keys of a list: the pieces between commas, without the
blanks around them. -/
def keyValues (text : String) : List String :=
  (Text.pieces ',' text).map fun piece => String.ofList (Text.trim piece.toList)

/-- The identifier of a declared key of a list. -/
def keyId (list : Ref) (key : String) : Schema.Id :=
  match list.child? key with
  | some leaf => leaf.id
  | none => ⟨key, list.ns⟩

/-- The key of a node, with the value that a text gives for it. -/
def keyOf (child : Ref) (value : Option String) : Result NodeKey :=
  match child.kind, value with
  | .list, some text =>
    let values := keyValues text
    if values.length = child.keys.length then
      .ok { id := child.id,
            selector := .list ((child.keys.zip values).map fun (key, value) =>
              { id := keyId child key, value := .string value }) }
    else Result.refuse (.keyCount child.name child.keys.length values.length)
  | .list, none => Result.refuse (.listWithoutValues child.name)
  | .leafList, some text => .ok { id := child.id, selector := .leafList (.string text) }
  | kind, some _ => Result.refuse (.unexpectedValue kind child.name)
  | _, none => .ok { id := child.id }

/-- Goes down to the child of a name. -/
def descend (c : Cursor) (reg : Registry) (name : String) (ns value : Option String) :
    Result Cursor := do
  match c.schema with
  | some node =>
    if node.kind.isLeafLike then
      Result.refuse (.notAddressedBelow name node.kind node.name)
  | none => pure ()
  let child ← Result.found (.noNodeAt name c.id.text) (reg.childOf? c.schema name ns)
  let key ← keyOf child.node value
  pure { id := c.id.push key, schema := some child.node }

end Cursor

end YangBinding.Tree
